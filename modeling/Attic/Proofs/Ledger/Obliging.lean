import Attic.Proofs.Ledger.Keeper
import Attic.Proofs.Ledger.Marking
import Attic.Proofs.Tree.Staying
import Mathlib

/-!
# Stores that accept every write

A store that accepts every mark makes it where an entry is active for the path.
It may keep the ledger in files of the tree, which are its own, and the tree may
have links. The ledger in memory is such a store, and so is a journal that is
there.

Key definitions: `Ledger.Obliging`, `Ledger.Obliging.memory`,
`Ledger.Obliging.journal`.
Key theorem: `Ledger.exists_active_of_markFirst?`.
-/

namespace Attic
namespace Ledger

/-- How a store keeps its ledger and accepts what is written. -/
structure Obliging (s : Store) where
  /-- Whether the ledger of a repository has these entries. -/
  keeps : Repository → List Entry → Prop
  /-- The places of the tree that hold the ledger. -/
  own : Location → Prop
  active : ∀ {r es}, keeps r es → s.active r = .ok (es.filter Entry.isActive)
  held : ∀ {r es l}, r.tree.Grounded → keeps r es → own l →
    ∃ mode bytes, r.tree.get? l = some (.file mode bytes)
  /-- The ledger stays when the tree changes elsewhere and ways stay. -/
  steady : ∀ {r es t} {sources : List Location}, r.tree.Grounded → keeps r es →
    r.tree.Stays sources [] t → (∀ l, own l → t.get? l = r.tree.get? l) →
    keeps { r with tree := t } es
  /-- A mark is made. -/
  mark : ∀ {r es es' path moment}, r.tree.Grounded → keeps r es → moment.isValid = true →
    markFirst? path moment es = some es' →
    ∃ r', s.markRestored path moment r = (.ok (), r') ∧ keeps r' es' ∧ r'.tree.Grounded ∧
      r.tree.Stays [] [] r'.tree ∧ ∀ l, ¬ own l → r'.tree.get? l = r.tree.get? l

namespace Obliging

/-- The ledger in memory. -/
def memory : Obliging .memory where
  keeps r es := r.entries = es
  own _ := False
  active := @Store.memory_active
  held _ _ h := h.elim
  steady _ h _ _ := h
  mark := by
    rintro r es es' path moment grounded rfl - marked
    refine ⟨{ r with entries := es' }, ?_, rfl, grounded, .refl _, fun _ _ => rfl⟩
    simp only [Store.memory, marked]

/-- The journal at a path, whose file is at a place. -/
def journal (path : Path) (place : Location) : Obliging (.journal path) where
  keeps := Keeper.Journaled path place
  own l := l = place
  active := @Keeper.Journaled.active path place
  held := by
    rintro r es l grounded keeps rfl
    exact keeps.held grounded
  steady := by
    intro r es t sources grounded keeps stays own
    refine keeps.steady fun {o} spot => ?_
    obtain ⟨fault, way⟩ := Tree.spot_eq_ok spot
    have held : r.tree.get? place = some o := grounded.spot_holds spot
    exact Tree.spot_of_walk fault (Tree.walk_reads (fun _ => stays.folder)
      (fun _ _ => stays.link (by simp)) (.found ((own place rfl).trans held)) way)
  mark := by
    intro r es es' original moment grounded keeps valid marked
    have there : (es.find? (Entry.isActiveOf original)).isSome := by
      rw [← markFirst?_isSome original moment, marked]
      rfl
    obtain ⟨e, found⟩ := Option.isSome_iff_exists.1 there
    obtain ⟨es'', mode, bytes, marked', done, after⟩ := keeps.mark found valid
    obtain rfl := Option.some.inj (marked'.symm.trans marked)
    obtain ⟨mode', bytes', held⟩ := keeps.held grounded
    have free : r.tree.get? place ≠ some .folder := by simp [held]
    have hne := Tree.ne_nil_of_get? free
    refine ⟨_, done, after, ?_, ?_, fun l hl => Tree.get?_set_other hl⟩
    · exact grounded.set hne (grounded place hne (by simp [held])) free
    · exact .set_file hne fun o ho => ⟨mode', bytes', Option.some.inj (ho.symm.trans held)⟩

end Obliging

/-- A mark leaves the active entries of other paths. -/
theorem exists_active_of_markFirst? {p q : Path} {moment : Timestamp} {es es' : List Entry}
    (marked : markFirst? p moment es = some es') (other : q.same p = false)
    (active : ∃ e ∈ es, e.isActiveOf q = true) : ∃ e ∈ es', e.isActiveOf q = true := by
  obtain ⟨j, d, there, activeD, rfl⟩ := markFirst?_eq_some marked
  obtain ⟨e, he, activeE⟩ := active
  refine ⟨e, ?_, activeE⟩
  obtain ⟨n, hn, rfl⟩ := List.mem_iff_getElem.1 he
  refine List.mem_iff_getElem.2 ⟨n, by simpa using hn, List.getElem_set_ne ?_ _⟩
  rintro rfl
  obtain rfl := Option.some.inj ((List.getElem?_eq_getElem hn).symm.trans there)
  simp only [Entry.isActiveOf, Bool.and_eq_true] at activeD activeE
  have same := Path.same_trans (Path.same_symm activeE.2) activeD.2
  rw [same] at other
  exact Bool.noConfusion other

end Ledger
end Attic
