import Attic.Ledger.Unreliable
import Attic.Proofs.Ledger.Journal
import Attic.Proofs.Tree.Plain
import Mathlib

/-!
# Stores that keep a ledger

What a store must do for a run on the tree to agree with its ledger: list the
active entries, and either refuse a mark and change nothing, or mark the first
active entry of the path. It may keep the ledger in files of the tree, which
are its own. The ledger in memory is such a store, a journal that is there is
one, and so is any of them that refuses some paths.

Key definitions: `Ledger.Keeper`, `Ledger.Keeper.memory`,
`Ledger.Keeper.journal`, `Ledger.Keeper.refusing`.
-/

namespace Attic
namespace Ledger

/-- How a store keeps its ledger. -/
structure Keeper (s : Store) where
  /-- Whether the ledger of a repository has these entries. -/
  keeps : Repository → List Entry → Prop
  /-- The places of the tree that hold the ledger. -/
  own : Location → Prop
  active : ∀ {r es}, keeps r es → s.active r = .ok (es.filter Entry.isActive)
  /-- The store's places hold files. -/
  held : ∀ {r es l}, r.tree.Plain → keeps r es → own l →
    ∃ mode bytes, r.tree.get? l = some (.file mode bytes)
  /-- The ledger stays when the tree changes elsewhere. -/
  steady : ∀ {r es t}, r.tree.Plain → t.Plain → keeps r es →
    (∀ l, own l → t.get? l = r.tree.get? l) →
    (∀ l, r.tree.get? l = some .folder → t.get? l = some .folder) → keeps { r with tree := t } es
  /-- A mark is refused or made. -/
  mark : ∀ {r es}, r.tree.Plain → keeps r es → ∀ path moment, moment.isValid = true →
    (∃ f, s.markRestored path moment r = (.error f, r)) ∨
    ∃ es' r', markFirst? path moment es = some es' ∧
      s.markRestored path moment r = (.ok (), r') ∧ keeps r' es' ∧ r'.tree.Plain ∧
      ∀ l, ¬ own l → r'.tree.get? l = r.tree.get? l

namespace Keeper

/-- The ledger in memory. -/
def memory : Keeper Store.memory where
  keeps r es := r.entries = es
  own _ := False
  active := @Store.memory_active
  held _ _ h := h.elim
  steady _ _ h _ _ := h
  mark := by
    rintro r es plain rfl path moment -
    cases h : markFirst? path moment r.entries with
    | none => exact .inl ⟨.notActive path, by simp only [Store.memory, h]⟩
    | some es' =>
      refine .inr ⟨es', { r with entries := es' }, rfl, ?_, rfl, plain, fun _ _ => rfl⟩
      simp only [Store.memory, h]

/-- A store that refuses the marks of some paths. -/
def refusing {s : Store} (k : Keeper s) (refused : Path → Bool) :
    Keeper (Store.refusing refused s) where
  keeps := k.keeps
  own := k.own
  active := k.active
  held := k.held
  steady := k.steady
  mark := by
    intro r es plain keeps path moment valid
    simp only [Store.refusing]
    split
    · exact .inl ⟨Store.refusal, rfl⟩
    · exact k.mark plain keeps path moment valid

/-- A journal whose file is at a place and ends with a line feed. -/
structure Journaled (path : Path) (place : Location) (r : Repository) (es : List Entry) : Prop where
  read : Journal.entries path r.tree = .ok es
  slash : Tree.endsWithSlash path.text = false
  file : ∃ mode text, Journal.Ended text ∧
    r.tree.spot true false path = .ok (.found place (.file mode text.toByteArray))

section

variable {path : Path} {place : Location} {r : Repository} {es : List Entry}

theorem readFile_of_spot {t : Tree} {mode : Nat} {bytes : ByteArray}
    (slash : Tree.endsWithSlash path.text = false)
    (h : t.spot true false path = .ok (.found place (.file mode bytes))) :
    t.readFile path = .ok (mode, bytes) := by
  rw [Tree.readFile_eq_ok, Tree.look, slash, h]
  rfl

theorem entries_of_spot {t : Tree} {mode : Nat} {text : String}
    (slash : Tree.endsWithSlash path.text = false)
    (h : t.spot true false path = .ok (.found place (.file mode text.toByteArray))) :
    Journal.entries path t = (readEvents path text).map replay := by
  have there : t.readText path = .ok text :=
    Tree.readText_eq_ok.2 ⟨mode, readFile_of_spot slash h⟩
  rw [Journal.entries, Journal.events_of_holds (.inl there)]

/-- The tree after an append. -/
theorem append_of_spot {t : Tree} {mode : Nat} {text : String}
    (slash : Tree.endsWithSlash path.text = false)
    (h : t.spot true false path = .ok (.found place (.file mode text.toByteArray))) (e : Event) :
    Journal.append path e t =
      (.ok (), t.set place (.file mode (text ++ e.line).toByteArray)) := by
  have there : t.readText path = .ok text :=
    Tree.readText_eq_ok.2 ⟨mode, readFile_of_spot slash h⟩
  have written : t.appendFile path e.line.toByteArray =
      (.ok (), t.set place (.file mode (text ++ e.line).toByteArray)) := by
    rw [Tree.appendFile, Tree.updateFile, h, String.toByteArray_append]
    simp only [slash, Bool.false_eq_true, if_false]
  rw [Journal.append, Journal.prepare_of_readText there]
  simp only [written]

theorem Journaled.active (h : Journaled path place r es) :
    (Store.journal path).active r = .ok (es.filter Entry.isActive) := by
  simp only [Store.journal, h.read, Except.map]

theorem Journaled.held (grounded : r.tree.Grounded) (h : Journaled path place r es) :
    ∃ mode bytes, r.tree.get? place = some (.file mode bytes) := by
  obtain ⟨mode, text, -, spot⟩ := h.file
  exact ⟨mode, text.toByteArray, grounded.spot_holds spot⟩

/-- The journal stays where its path leads to the same file. -/
theorem Journaled.steady {t : Tree} (h : Journaled path place r es)
    (leads : ∀ {o}, r.tree.spot true false path = .ok (.found place o) →
      t.spot true false path = .ok (.found place o)) :
    Journaled path place { r with tree := t } es := by
  obtain ⟨mode, text, ended, spot⟩ := h.file
  refine ⟨?_, h.slash, mode, text, ended, leads spot⟩
  rw [entries_of_spot h.slash (leads spot), ← entries_of_spot h.slash spot, h.read]

/-- An append keeps the journal. -/
theorem Journaled.append (h : Journaled path place r es) {e : Event}
    (valid : e.moment.isValid = true) : ∃ mode bytes,
    Store.appendTo path e r = (.ok (), { r with tree := r.tree.set place (.file mode bytes) }) ∧
    Journaled path place { r with tree := r.tree.set place (.file mode bytes) }
      (applyEvent es e) := by
  obtain ⟨mode, text, ended, spot⟩ := h.file
  have there : r.tree.readText path = .ok text :=
    Tree.readText_eq_ok.2 ⟨mode, readFile_of_spot h.slash spot⟩
  have appended := append_of_spot h.slash spot e
  obtain ⟨fault, way⟩ := Tree.spot_eq_ok spot
  have fileAt : (Tree.Spot.found place (.file mode text.toByteArray)).fileAt place := rfl
  obtain ⟨-, hne, free⟩ := Tree.walk_fileAt fileAt way
  refine ⟨mode, (text ++ e.line).toByteArray, ?_, ⟨?_, h.slash, mode, text ++ e.line, ?_, ?_⟩⟩
  · simp only [Store.appendTo, appended]
  · have := Journal.entries_append (.inl there) h.read valid appended
    rwa [if_pos ended] at this
  · rw [Journal.Ended, Journal.unended_line]
    rfl
  · exact Tree.spot_of_walk fault (Tree.walk_set_file fileAt hne free way)

/-- A journal makes the mark of an entry that is active. -/
theorem Journaled.mark (h : Journaled path place r es) {original : Path} {moment : Timestamp}
    {e : Entry} (found : es.find? (Entry.isActiveOf original) = some e)
    (valid : moment.isValid = true) : ∃ es' mode bytes, markFirst? original moment es = some es' ∧
    (Store.journal path).markRestored original moment r =
      (.ok (), { r with tree := r.tree.set place (.file mode bytes) }) ∧
    Journaled path place { r with tree := r.tree.set place (.file mode bytes) } es' := by
  obtain ⟨mode, bytes, done, after⟩ :=
    h.append (e := .restored e.original e.batch moment) valid
  refine ⟨_, mode, bytes, Store.applyEvent_restored found, ?_, after⟩
  rw [Store.markRestored_of_some h.read found moment, done]

/-- The journal at a path, whose file is at a place. -/
def journal (path : Path) (place : Location) : Keeper (Store.journal path) where
  keeps := Journaled path place
  own l := l = place
  active := @Journaled.active path place
  held := by
    rintro r es l plain keeps rfl
    exact keeps.held plain.in_folder
  steady := by
    intro r es t plain plain' keeps own folders
    refine keeps.steady fun {o} spot => Tree.spot_kept plain folders spot ?_
    have held : r.tree.get? place = some o := plain.in_folder.spot_holds spot
    exact (own place rfl).trans held
  mark := by
    intro r es plain keeps original moment valid
    cases found : es.find? (Entry.isActiveOf original) with
    | none => exact .inl ⟨_, Store.markRestored_of_none keeps.read found moment⟩
    | some e =>
      obtain ⟨es', mode, bytes, marked, done, after⟩ := keeps.mark found valid
      obtain ⟨mode', bytes', held⟩ := keeps.held plain.in_folder
      have free : r.tree.get? place ≠ some .folder := by simp [held]
      have hne := Tree.ne_nil_of_get? free
      refine .inr ⟨es', _, marked, done, after, ?_, fun l hl => Tree.get?_set_other hl⟩
      exact plain.set (by simp) hne (plain.in_folder place hne (by simp [held])) free

end

end Keeper
end Ledger
end Attic
