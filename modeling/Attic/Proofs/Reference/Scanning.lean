import Attic.Proofs.Reference.Pieces
import Mathlib

/-!
# Scanning a line

A line is scanned from place to place. Where a form stands nowhere in a text, the scan comes
out behind it with nothing found, as long as no form that starts in the text ends behind it.
What a form captures stands at its place, and what is found later stands behind its end.

Key theorems: `Reference.firstOf?_eq_some`, `Reference.occurrences_eq_nil_iff`,
`Reference.occurrencesFrom_append`, `Reference.infix_of_mem_occurrencesFrom`,
`Reference.infix_of_mem_after`.
-/

namespace Attic
namespace Reference

/-! ### Alternatives -/

section

variable {α β : Type} {f : α → Option β} {b : β}

theorem firstOf?_eq_none_iff : ∀ {l : List α}, firstOf? f l = none ↔ ∀ a ∈ l, f a = none
  | [] => by simp [firstOf?]
  | a :: l => by
    rw [firstOf?, Option.or_eq_none_iff, firstOf?_eq_none_iff (l := l), List.forall_mem_cons]

theorem exists_of_firstOf? : ∀ {l : List α}, firstOf? f l = some b → ∃ a ∈ l, f a = some b
  | a :: l, h => by
    rw [firstOf?, Option.or_eq_some_iff] at h
    rcases h with here | ⟨-, later⟩
    · exact ⟨a, List.mem_cons_self, here⟩
    · obtain ⟨x, hx, found⟩ := exists_of_firstOf? later
      exact ⟨x, List.mem_cons_of_mem a hx, found⟩

/-- Alternatives that all give the same answer, where they give one, give it. -/
theorem firstOf?_eq_some {l : List α} {a : α} (ha : a ∈ l) (found : f a = some b)
    (same : ∀ x ∈ l, ∀ y, f x = some y → y = b) : firstOf? f l = some b := by
  cases h : firstOf? f l with
  | none =>
    rw [firstOf?_eq_none_iff.1 h a ha] at found
    exact absurd found (by simp)
  | some y =>
    obtain ⟨x, hx, hy⟩ := exists_of_firstOf? h
    rw [same x hx y hy]

end

/-! ### From place to place -/

section

variable {α : Type} {form : Form α} {before cs lead rest : List Char} {c : Char} {a x : α}

theorem forall_none_of_occurrencesFrom : ∀ {cs before : List Char},
    occurrencesFrom form before 0 cs = [] →
      ∀ u v, cs = u ++ v → v ≠ [] → form (u.reverse ++ before) v = none
  | [], before, _, u, v, whole, hv => absurd (List.append_eq_nil_iff.1 whole.symm).2 hv
  | c :: cs, before, h, u, v, whole, hv => by
    rw [occurrencesFrom] at h
    cases here : form before (c :: cs) with
    | some found =>
      rw [here] at h
      exact absurd h (List.cons_ne_nil _ _)
    | none =>
      rw [here] at h
      cases u with
      | nil =>
        obtain rfl : c :: cs = v := whole
        exact here
      | cons d u =>
        obtain ⟨rfl, rfl⟩ := List.cons.inj whole
        rw [List.reverse_cons, List.append_assoc]
        exact forall_none_of_occurrencesFrom h u v rfl hv

/-- Where no form starts in a text, the scan goes on behind it. -/
theorem occurrencesFrom_append (form : Form α) : ∀ {lead before : List Char},
    (∀ u v, lead = u ++ v → v ≠ [] → form (u.reverse ++ before) (v ++ rest) = none) →
      occurrencesFrom form before 0 (lead ++ rest) =
        occurrencesFrom form (lead.reverse ++ before) 0 rest
  | [], _, _ => rfl
  | c :: lead, before, quiet => by
    have here : form before (c :: (lead ++ rest)) = none :=
      quiet [] (c :: lead) rfl (List.cons_ne_nil _ _)
    have later : ∀ u v, lead = u ++ v → v ≠ [] →
        form (u.reverse ++ (c :: before)) (v ++ rest) = none := by
      intro u v hlead hv
      have := quiet (c :: u) v (by rw [hlead, List.cons_append]) hv
      rwa [List.reverse_cons, List.append_assoc] at this
    rw [List.cons_append, occurrencesFrom, here, List.reverse_cons, List.append_assoc]
    exact occurrencesFrom_append form later

/-- A form occurs nowhere in a line when it stands at none of its places. -/
theorem occurrences_eq_nil_iff {line : List Char} : occurrences form line = [] ↔
    ∀ u v, line = u ++ v → v ≠ [] → form u.reverse v = none := by
  constructor
  · intro h u v whole hv
    have := forall_none_of_occurrencesFrom h u v whole hv
    rwa [List.append_nil] at this
  · intro h
    have quiet : ∀ u v, line = u ++ v → v ≠ [] → form (u.reverse ++ []) (v ++ []) = none := by
      intro u v whole hv
      rw [List.append_nil, List.append_nil]
      exact h u v whole hv
    have := occurrencesFrom_append form quiet
    rw [List.append_nil] at this
    exact this

/-- What is found was found at a place. -/
theorem exists_of_mem_occurrencesFrom : ∀ {cs before : List Char} {n : ℕ},
    a ∈ occurrencesFrom form before n cs → ∃ b ds rest, form b ds = some (a, rest)
  | c :: cs, before, n + 1, h => by
    rw [occurrencesFrom] at h
    exact exists_of_mem_occurrencesFrom h
  | c :: cs, before, 0, h => by
    rw [occurrencesFrom] at h
    cases here : form before (c :: cs) with
    | none =>
      rw [here] at h
      exact exists_of_mem_occurrencesFrom h
    | some found =>
      rw [here] at h
      rcases List.mem_cons.1 h with rfl | later
      · exact ⟨_, _, _, here⟩
      · exact exists_of_mem_occurrencesFrom later

/-- What is found stands in the part of the text that is still to be scanned. -/
theorem infix_of_mem_occurrencesFrom (part : α → List Char)
    (stands : ∀ b ds a rest, form b ds = some (a, rest) → part a <:+: ds) :
    ∀ {cs before : List Char} {n : ℕ}, a ∈ occurrencesFrom form before n cs →
      part a <:+: cs.drop n
  | c :: cs, before, n + 1, h => by
    rw [occurrencesFrom] at h
    rw [List.drop_succ_cons]
    exact infix_of_mem_occurrencesFrom part stands h
  | c :: cs, before, 0, h => by
    have later {n : ℕ} (h : a ∈ occurrencesFrom form (c :: before) n cs) : part a <:+: c :: cs :=
      ((infix_of_mem_occurrencesFrom part stands h).trans (List.drop_suffix n cs).isInfix).trans
        (List.suffix_cons c cs).isInfix
    rw [occurrencesFrom] at h
    cases here : form before (c :: cs) with
    | none =>
      rw [here] at h
      exact later h
    | some found =>
      rw [here] at h
      rcases List.mem_cons.1 h with rfl | h
      · exact stands _ _ _ _ here
      · exact later h

/-- Behind a form that is found, what is found stands in what it leaves. -/
theorem infix_of_mem_after (form : Form α) (part : α → List Char)
    (stands : ∀ b ds a rest, form b ds = some (a, rest) → part a <:+: ds)
    (here : form before (c :: cs) = some (a, rest)) (left : rest <:+ cs)
    (hx : x ∈ occurrencesFrom form before 0 (c :: cs)) : x = a ∨ part x <:+: rest := by
  obtain ⟨taken, rfl⟩ := left
  have behind : (taken ++ rest).drop ((taken ++ rest).length - rest.length) = rest := by
    rw [List.length_append, Nat.add_sub_cancel, List.drop_left]
  rw [occurrencesFrom, here] at hx
  rcases List.mem_cons.1 hx with same | later
  · exact .inl same
  · have := infix_of_mem_occurrencesFrom part stands later
    rw [behind] at this
    exact .inr this

/-- A part of two texts without what the second starts with is a part of one of them. -/
theorem infix_append_stop {z u v : List Char} (h : z <:+: u ++ v) (stop : ∀ c ∈ v.head?, c ∉ z) :
    z <:+: u ∨ z <:+: v := by
  obtain ⟨s, t, whole⟩ := h
  rcases List.append_eq_append_iff.1 whole with ⟨a, rfl, -⟩ | ⟨a, hsz, rfl⟩
  · exact .inl ⟨s, a, rfl⟩
  rcases List.append_eq_append_iff.1 hsz with ⟨b, rfl, hz⟩ | ⟨b, -, rfl⟩
  · cases a with
    | nil =>
      rw [List.append_nil] at hz
      exact .inl (hz ▸ (List.suffix_append s z).isInfix)
    | cons e a => exact absurd (by simp [hz]) (stop e rfl)
  · exact .inr ⟨b, t, rfl⟩

end

end Reference
end Attic
