import Attic.Ledger.Store
import Attic.Proofs.Ledger.Marking
import Mathlib

/-!
# Marks made one after the other

A mark goes to the first active entry of its path, so that of each path the
first active entries are marked, as many as there are marks for it. How many
active entries of its path stand before an entry is its rank; a mark for the
path lowers the rank of those that are left by one.

Key definitions: `Ledger.rank`, `Ledger.markEach?`, `Ledger.Due`,
`Ledger.Single`.
Key theorems: `Ledger.markEach?_getElem?`, `Ledger.markEach?_status`.
-/

namespace Attic
namespace Ledger

/-- How many active entries of a path are among the first `n`. -/
def rank (p : Path) (es : List Entry) (n : Nat) : Nat := (es.take n).countP (Entry.isActiveOf p)

/-- Marks the first active entry of each path, one after the other. -/
def markEach? : List (Path × Timestamp) → List Entry → Option (List Entry)
  | [], es => some es
  | (p, moment) :: marks, es => (markFirst? p moment es).bind (markEach? marks)

/-- Whether the `n`-th entry, which is `e`, is among those that marks for some
paths go to. -/
structure Due (ps : List Path) (es : List Entry) (n : Nat) (e : Entry) : Prop where
  there : es[n]? = some e
  active : e.isActive = true
  first : rank e.original es n < ps.countP e.original.same

/-- A ledger in which no path has two active entries. -/
def Single (es : List Entry) : Prop :=
  ∀ (n m : Nat) (e d : Entry) (p : Path), es[n]? = some e → es[m]? = some d →
    e.isActiveOf p = true → d.isActiveOf p = true → n = m

variable {p : Path} {ps qs : List Path} {moment : Timestamp} {es es' : List Entry} {n : Nat}
variable {e : Entry} {marks : List (Path × Timestamp)}

theorem Due.perm (h : Due ps es n e) (perm : ps.Perm qs) : Due qs es n e :=
  ⟨h.there, h.active, perm.countP_eq _ ▸ h.first⟩

/-! ### One mark -/

/-- No active entry of the path stands before the one that is marked. -/
theorem markFirst?_rank (h : markFirst? p moment es = some es') :
    ∃ j e, es[j]? = some e ∧ e.isActiveOf p = true ∧ rank p es j = 0 ∧
      es' = es.set j (e.restore moment) := by
  obtain ⟨j, e, there, active, before, marked⟩ := markFirst?_first h
  exact ⟨j, e, there, active, List.countP_eq_zero.2 before, marked⟩

theorem rank_eq_zero_iff : rank p es n = 0 ↔
    ∀ (m : Nat) (e : Entry), m < n → es[m]? = some e → e.isActiveOf p = false := by
  rw [rank, List.countP_eq_zero]
  constructor
  · intro h m e less there
    have inside : e ∈ es.take n :=
      List.mem_of_getElem? (by rw [List.getElem?_take_of_lt less, there])
    simpa using h e inside
  · intro h e inside
    obtain ⟨m, there⟩ := List.getElem?_of_mem inside
    rw [List.getElem?_take] at there
    split at there
    · next less => simp [h m e less there]
    · simp at there

/-- The rank of what stands behind an entry that is marked. -/
theorem rank_set {q : Path} {j : Nat} {d d' : Entry} (there : es[j]? = some d)
    (idle : d'.isActiveOf q = false) (behind : j < n) :
    rank q es n = rank q (es.set j d') n + (if d.isActiveOf q then 1 else 0) := by
  obtain ⟨inside, rfl⟩ := List.getElem?_eq_some_iff.1 there
  have short : j < (es.take n).length := by
    rw [List.length_take]
    omega
  have same : (es.take n)[j] = es[j] := List.getElem_take
  rw [rank, rank, List.take_set, List.countP_set short, same, idle]
  have counted : (if es[j].isActiveOf q = true then 1 else 0) ≤
      (es.take n).countP (Entry.isActiveOf q) := by
    rw [← same]
    split
    · next active => exact List.countP_pos_iff.2 ⟨_, List.getElem_mem short, active⟩
    · exact Nat.zero_le _
  simp only [Bool.false_eq_true, if_false, Nat.add_zero]
  omega

theorem rank_set_front {q : Path} {j : Nat} {d : Entry} (front : n ≤ j) :
    rank q (es.set j d) n = rank q es n := by
  rw [rank, rank, List.take_set, List.set_eq_of_length_le]
  rw [List.length_take]
  omega

/-- A restored entry is active for no path. -/
theorem isActiveOf_restore (q : Path) (e : Entry) (moment : Timestamp) :
    (e.restore moment).isActiveOf q = false := rfl

/-- **A mark lowers the rank of the entries of its path that are left.** -/
theorem rank_markFirst? (moment : Timestamp) {j : Nat} {d : Entry} (there : es[j]? = some d)
    (active : d.isActiveOf p = true) (first : rank p es j = 0) (left : es[n]? = some e)
    (still : e.isActive = true) (other : n ≠ j) : rank e.original es n =
      rank e.original (es.set j (d.restore moment)) n + (if e.original.same p then 1 else 0) := by
  simp only [Entry.isActiveOf, Bool.and_eq_true] at active
  by_cases behind : j < n
  · rw [rank_set there (isActiveOf_restore _ d moment) behind]
    have same : d.isActiveOf e.original = e.original.same p := by
      rw [Entry.isActiveOf, active.1, Bool.true_and, Bool.eq_iff_iff]
      exact ⟨fun h => Path.same_trans (Path.same_symm h) active.2,
        fun h => Path.same_trans active.2 (Path.same_symm h)⟩
    rw [same]
  · rw [rank_set_front (Nat.le_of_not_lt behind)]
    have unlike : e.original.same p = false := by
      have idle := rank_eq_zero_iff.1 first n e (by omega) left
      simpa [Entry.isActiveOf, still] using idle
    simp [unlike]

/-! ### Many marks -/

theorem markEach?_length : ∀ {marks : List (Path × Timestamp)} {es : List Entry},
    markEach? marks es = some es' → es'.length = es.length
  | [], es, h => by
    obtain rfl := Option.some.inj h
    rfl
  | (p, moment) :: marks, es, h => by
    obtain ⟨es₁, first, rest⟩ := Option.bind_eq_some_iff.1 h
    obtain ⟨j, d, -, -, rfl⟩ := markFirst?_eq_some first
    rw [markEach?_length rest, List.length_set]

/-- What is not active is not marked. -/
theorem markEach?_idle (idle : e.isActive = false) : ∀ {marks : List (Path × Timestamp)}
    {es : List Entry}, markEach? marks es = some es' → es[n]? = some e → es'[n]? = some e
  | [], es, h, there => by
    obtain rfl := Option.some.inj h
    exact there
  | (p, moment) :: marks, es, h, there => by
    obtain ⟨es₁, first, rest⟩ := Option.bind_eq_some_iff.1 h
    obtain ⟨j, d, thereD, active, rfl⟩ := markFirst?_eq_some first
    refine markEach?_idle idle rest ?_
    rw [List.getElem?_set_ne, there]
    rintro rfl
    obtain rfl := Option.some.inj (thereD.symm.trans there)
    simp [Entry.isActiveOf, idle] at active

/-- **Of each path the first active entries are marked, as many as it has marks**,
and every other entry stays as it is. -/
theorem markEach?_getElem? : ∀ {marks : List (Path × Timestamp)} {es : List Entry},
    markEach? marks es = some es' → es[n]? = some e →
      (Due (marks.map Prod.fst) es n e →
        ∃ m ∈ marks, e.original.same m.1 = true ∧ es'[n]? = some (e.restore m.2)) ∧
      (¬ Due (marks.map Prod.fst) es n e → es'[n]? = some e)
  | [], es, h, there => by
    obtain rfl := Option.some.inj h
    exact ⟨fun due => absurd due.first (by simp), fun _ => there⟩
  | (p, moment) :: marks, es, h, there => by
    obtain ⟨es₁, first, rest⟩ := Option.bind_eq_some_iff.1 h
    obtain ⟨j, d, thereD, active, firstD, rfl⟩ := markFirst?_rank first
    by_cases here : n = j
    · subst here
      obtain rfl := Option.some.inj (thereD.symm.trans there)
      have inside : n < es.length := (List.getElem?_eq_some_iff.1 there).1
      have marked : es'[n]? = some (d.restore moment) :=
        markEach?_idle rfl rest (List.getElem?_set_self inside)
      simp only [Entry.isActiveOf, Bool.and_eq_true] at active
      refine ⟨fun _ => ⟨(p, moment), List.mem_cons_self, active.2, marked⟩, fun none => ?_⟩
      refine absurd ⟨there, active.1, ?_⟩ none
      rw [List.map_cons, List.countP_cons_of_pos active.2,
        show rank d.original es n = rank p es n by rw [rank, rank, isActiveOf_congr active.2],
        firstD]
      exact Nat.succ_pos _
    · have there₁ : (es.set j (d.restore moment))[n]? = some e := by
        rw [List.getElem?_set_ne (Ne.symm here), there]
      obtain ⟨changed, kept⟩ := markEach?_getElem? rest there₁
      have due : Due (((p, moment) :: marks).map Prod.fst) es n e ↔
          Due (marks.map Prod.fst) (es.set j (d.restore moment)) n e := by
        have lowered (still : e.isActive = true) :=
          rank_markFirst? moment thereD active firstD there still here
        constructor <;> rintro ⟨-, still, less⟩
        · refine ⟨there₁, still, ?_⟩
          rw [List.map_cons, List.countP_cons, lowered still] at less
          exact Nat.lt_of_add_lt_add_right less
        · refine ⟨there, still, ?_⟩
          rw [List.map_cons, List.countP_cons, lowered still]
          exact Nat.add_lt_add_right less _
      rw [due]
      refine ⟨fun h => ?_, kept⟩
      obtain ⟨m, inside, same, marked⟩ := changed h
      exact ⟨m, List.mem_cons_of_mem _ inside, same, marked⟩

/-- Marks for the same paths, in whatever order and at whatever times, leave the same
statuses. -/
theorem markEach?_status {marks' : List (Path × Timestamp)} {es₁ es₂ : List Entry}
    (h₁ : markEach? marks es = some es₁) (h₂ : markEach? marks' es = some es₂)
    (perm : (marks.map Prod.fst).Perm (marks'.map Prod.fst)) :
    es₁.map Entry.status = es₂.map Entry.status := by
  refine List.ext_getElem? fun n => ?_
  rw [List.getElem?_map, List.getElem?_map]
  cases there : es[n]? with
  | none =>
    rw [List.getElem?_eq_none_iff, ← markEach?_length h₁] at there
    rw [List.getElem?_eq_none there, List.getElem?_eq_none]
    rwa [markEach?_length h₂, ← markEach?_length h₁]
  | some e =>
    obtain ⟨due₁, idle₁⟩ := markEach?_getElem? h₁ there
    obtain ⟨due₂, idle₂⟩ := markEach?_getElem? h₂ there
    by_cases due : Due (marks.map Prod.fst) es n e
    · obtain ⟨m₁, -, -, marked₁⟩ := due₁ due
      obtain ⟨m₂, -, -, marked₂⟩ := due₂ (due.perm perm)
      rw [marked₁, marked₂]
      rfl
    · rw [idle₁ due, idle₂ fun due' => due (due'.perm perm.symm)]

end Ledger
end Attic
