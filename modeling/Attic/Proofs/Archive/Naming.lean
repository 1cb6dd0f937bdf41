import Attic.Archive
import Attic.Proofs.Calendar.ReadBack
import Attic.Proofs.Path.Extension
import Attic.Restore.Plan
import Mathlib

/-!
# Names of archived copies

A candidate is a name in the archive folder beside its script, another one for
each number, and has the extension of the script; one without an extension gets
the date for it, which is not that of a shell script.

Key theorems: `Archive.candidateName_isName`, `Archive.candidateName_injective`,
`Archive.candidateName_script`, `Archive.candidate_ofNames`, `Archive.isShell_candidateName`.
-/

namespace Attic

namespace Archive

/-! ### Dates and numbers -/

/-- What tells apart the candidates of a script. -/
def numberText (k : Nat) : List Char := if k = 1 then [] else '-' :: (toString k).toList

theorem mem_numberText {k : Nat} {c : Char} (h : c ∈ numberText k) :
    c.isDigit = true ∨ c = '-' ∨ c = '+' := by
  unfold numberText at h
  split at h
  · simp at h
  · rcases List.mem_cons.1 h with rfl | h
    · exact .inr (.inl rfl)
    · rw [Nat.toString_eq_repr, Nat.toList_repr] at h
      exact .inl (Nat.isDigit_of_mem_toDigits (by decide) (by decide) h)

theorem numberText_injective {j k : Nat} (h : numberText j = numberText k) : j = k := by
  unfold numberText at h
  split at h
  · next hj =>
    split at h
    · next hk => rw [hj, hk]
    · simp at h
  · split at h
    · simp at h
    · have same : toString j = toString k := String.toList_injective (List.cons.inj h).2
      rw [Nat.toString_eq_repr, Nat.toString_eq_repr] at same
      exact Nat.repr_injective same

/-- The date of a candidate with its number. -/
def dated (day : Date) (k : Nat) : List Char := day.write ++ numberText k

theorem not_mem_dated {day : Date} {k : Nat} {c : Char} (digit : c.isDigit = false)
    (dash : c ≠ '-') (plus : c ≠ '+') : c ∉ dated day k := by
  intro h
  have cases' : c.isDigit = true ∨ c = '-' ∨ c = '+' := by
    rcases List.mem_append.1 h with h | h
    · exact Date.mem_write h
    · exact mem_numberText h
  rcases cases' with h | h | h
  · rw [digit] at h
    exact Bool.noConfusion h
  · exact dash h
  · exact plus h

theorem dash_mem_dated (day : Date) (k : Nat) : '-' ∈ dated day k :=
  List.mem_append_left _ (Date.dash_mem_write day)

/-! ### Candidates -/

section

variable {ns : List String} {n dirName : String}
variable (h : ∀ m ∈ ns, Path.IsName m) (hn : Path.IsName n)

include h hn

/-- A candidate has the date of its script before the extension, or at the end. -/
theorem candidateName_cases (day : Date) (k : Nat) :
    (Path.splitDot n.toList = (n.toList, none) ∧
      (candidateName (.ofNames (ns ++ [n])) day k).toList = n.toList ++ '.' :: dated day k) ∨
    ∃ stem ext, n.toList = stem ++ '.' :: ext ∧ stem ≠ [] ∧ '.' ∉ ext ∧
      Path.splitDot n.toList = (stem, some ext) ∧
      (candidateName (.ofNames (ns ++ [n])) day k).toList =
        (stem ++ '.' :: dated day k) ++ '.' :: ext := by
  have chars := Path.fileChars?_ofNames h hn
  have number : (if k = 1 then "" else "-" ++ k.repr).toList = numberText k := by
    unfold numberText
    split <;> simp
  rcases Path.splitDot_cases n.toList with split | ⟨stem, ext, text, hs, dotless, split⟩
  · refine .inl ⟨split, ?_⟩
    simp [candidateName, Path.stem?, Path.extension?, chars, split, number, dated]
  · refine .inr ⟨stem, ext, text, hs, dotless, split, ?_⟩
    simp [candidateName, Path.stem?, Path.extension?, chars, split, number, dated]

theorem candidateName_isName (day : Date) (k : Nat) :
    Path.IsName (candidateName (.ofNames (ns ++ [n])) day k) := by
  have slash : '/' ∉ dated day k := not_mem_dated (by decide) (by decide) (by decide)
  have dash := dash_mem_dated day k
  have parts : '-' ∈ (candidateName (.ofNames (ns ++ [n])) day k).toList ∧
      '/' ∉ (candidateName (.ofNames (ns ++ [n])) day k).toList := by
    have whole := hn.no_slash
    rcases candidateName_cases h hn day k with
      ⟨-, text⟩ | ⟨stem, ext, old, -, -, -, text⟩
    · rw [text]
      simp [slash, dash, whole]
    · rw [old] at whole
      rw [text]
      simp only [List.mem_append, List.mem_cons, not_or] at whole ⊢
      exact ⟨.inl (.inr (.inr dash)), ⟨whole.1, by decide, slash⟩, by decide, whole.2.2⟩
  refine ⟨List.ne_nil_of_mem parts.1, parts.2, ?_, ?_⟩
  · intro e
    rw [e] at parts
    exact absurd parts.1 (by decide)
  · intro e
    rw [e] at parts
    exact absurd parts.1 (by decide)

/-- Each number gives another candidate. -/
theorem candidateName_injective {day : Date} {j k : Nat}
    (same : candidateName (.ofNames (ns ++ [n])) day j =
      candidateName (.ofNames (ns ++ [n])) day k) : j = k := by
  have same := congrArg String.toList same
  rcases candidateName_cases h hn day j with
    ⟨split, text⟩ | ⟨stem, ext, -, -, -, split, text⟩
  · rcases candidateName_cases h hn day k with ⟨-, text'⟩ | ⟨_, _, -, -, -, split', -⟩
    · rw [text, text'] at same
      exact numberText_injective (List.append_cancel_left
        (List.cons.inj (List.append_cancel_left same)).2)
    · rw [split] at split'
      simp at split'
  · rcases candidateName_cases h hn day k with
      ⟨split', -⟩ | ⟨stem', ext', -, -, -, split', text'⟩
    · rw [split] at split'
      simp at split'
    · rw [split] at split'
      obtain ⟨rfl, e⟩ := Prod.mk.inj split'
      obtain rfl := Option.some.inj e
      rw [text, text'] at same
      exact numberText_injective (List.append_cancel_left
        (List.cons.inj (List.append_cancel_left (List.append_cancel_right same))).2)

omit h hn in
/-- **A candidate tells its script**, whatever day and number it has. -/
theorem candidateName_script {ms : List String} {m : String} (hns : ∀ a ∈ ns, Path.IsName a)
    (hn : Path.IsName n) (hms : ∀ a ∈ ms, Path.IsName a) (hm : Path.IsName m) {day day' : Date}
    {j k : Nat} (same : candidateName (.ofNames (ns ++ [n])) day j =
      candidateName (.ofNames (ms ++ [m])) day' k) : n = m := by
  have dotless (day : Date) (k : Nat) : '.' ∉ dated day k :=
    not_mem_dated (by decide) (by decide) (by decide)
  -- a candidate without the extension of its script ends with the date
  have mixed {n stem ext : List Char} {day day' : Date} {j k : Nat} (hn : n ≠ [])
      (hs : stem ≠ []) (plain : Path.splitDot n = (n, none)) (hext : '.' ∉ ext)
      (same : n ++ '.' :: dated day j = (stem ++ '.' :: dated day' k) ++ '.' :: ext) : False := by
    have split := Path.splitDot_append hn (dotless day j)
    rw [same, Path.splitDot_append (by simp) hext] at split
    rw [← (Prod.mk.inj split).1, Path.splitDot_append hs (dotless day' k)] at plain
    simp at plain
  have same := congrArg String.toList same
  refine String.toList_injective ?_
  rcases candidateName_cases hns hn day j with
    ⟨plain, text⟩ | ⟨stem, ext, whole, hs, hext, -, text⟩ <;>
  rcases candidateName_cases hms hm day' k with
    ⟨plain', text'⟩ | ⟨stem', ext', whole', hs', hext', -, text'⟩ <;>
  rw [text, text'] at same
  · have split := Path.splitDot_append hn.nonempty (dotless day j)
    rw [same, Path.splitDot_append hm.nonempty (dotless day' k)] at split
    exact (Prod.mk.inj split).1.symm
  · exact (mixed hn.nonempty hs' plain hext' same).elim
  · exact (mixed hm.nonempty hs plain' hext same.symm).elim
  · have named : stem ++ '.' :: dated day j ≠ [] := by simp
    have split := Path.splitDot_append named hext
    rw [same, Path.splitDot_append (by simp) hext'] at split
    obtain ⟨stems, exts⟩ := Prod.mk.inj split
    have inner := Path.splitDot_append hs (dotless day j)
    rw [← stems, Path.splitDot_append hs' (dotless day' k)] at inner
    rw [whole, whole', (Prod.mk.inj inner).1, Option.some.inj exts]

/-- A candidate lies in the archive folder beside its script. -/
theorem candidate_ofNames (hd : Path.IsName dirName) (day : Date) (k : Nat) :
    candidate dirName (.ofNames (ns ++ [n])) day k =
      .ofNames (ns ++ [dirName, candidateName (.ofNames (ns ++ [n])) day k]) := by
  rw [candidate, Path.parent_ofNames h hn, Path.ofNames_join h hd,
    Path.ofNames_join (Path.isName_concat h hd) (candidateName_isName h hn day k)]
  simp

/-- A candidate has the extension of a shell script if its script has one. -/
theorem isShell_candidateName (day : Date) (k : Nat) (root root' : Path) {ms : List String}
    (hms : ∀ m ∈ ms, Path.IsName m) :
    (root.join (.ofNames (ms ++ [candidateName (.ofNames (ns ++ [n])) day k]))).extension?.any
        Restore.shellExtensions.contains =
      (root'.join (.ofNames (ns ++ [n]))).extension?.any Restore.shellExtensions.contains := by
  have dotless : '.' ∉ dated day k := not_mem_dated (by decide) (by decide) (by decide)
  rw [Path.extension?, Path.extension?,
    Path.fileChars?_join_ofNames hms (candidateName_isName h hn day k),
    Path.fileChars?_join_ofNames h hn, Option.bind_some, Option.bind_some]
  rcases candidateName_cases h hn day k with
    ⟨split, text⟩ | ⟨stem, ext, -, -, dotless, split, text⟩
  · -- the date is not the extension of a shell script: it has a dash
    rw [text, Path.splitDot_append hn.nonempty dotless, split]
    have other : ∀ e ∈ Restore.shellExtensions, '-' ∉ e.toList := by decide
    simp only [Option.map_some, Option.map_none, Option.any_some, Option.any_none]
    refine Bool.eq_false_iff.2 fun shell => ?_
    refine other _ (List.contains_iff_mem.1 shell) ?_
    rw [String.toList_ofList]
    exact dash_mem_dated day k
  · rw [text, Path.splitDot_append (by simp) dotless, split]

end

end Archive
end Attic
