import Attic.Proofs.Ledger.Deeds
import Attic.Proofs.Ledger.History
import Attic.Proofs.Ledger.Ranks
import Mathlib

/-!
# One active entry for a path

A store refuses to record a script whose path has an active entry, so that no
path ever has two of them, whatever is archived, restored, recorded or marked,
and whatever the store refuses in between. In a journal this lasts as long as no
other file comes to its place: a script that is moved there brings its own text,
which may say anything.

Key definition: `Ledger.Journal.Sound`.
Key theorems: `Ledger.Single.append`, `Ledger.Single.mark`,
`Deed.runAll_single_iff`.
-/

namespace Attic
namespace Ledger

variable {es es' : List Entry} {e : Entry} {path : Path} {moment : Timestamp} {t : Tree}

/-! ### Entries -/

/-- An entry comes whose path has no active one. -/
theorem Single.append (single : Single es) (new : es.any (Entry.isActiveOf e.original) = false) :
    Single (es ++ [e]) := by
  have apart {d : Entry} {n : Nat} {p : Path} (there : es[n]? = some d)
      (active : d.isActiveOf p = true) (active' : e.isActiveOf p = true) : False := by
    refine Bool.false_ne_true (new.symm.trans (List.any_eq_true.2 ⟨d, ?_, ?_⟩))
    · exact List.mem_of_getElem? there
    · have same : e.original.same p = true := (Bool.and_eq_true_iff.1 active').2
      rwa [isActiveOf_congr same]
  have last {n : Nat} {d : Entry} (there : (es ++ [e])[n]? = some d) (behind : es.length ≤ n) :
      n = es.length ∧ d = e := by
    rw [List.getElem?_append_right behind, List.getElem?_singleton] at there
    split at there
    · next zero => exact ⟨by omega, (Option.some.inj there).symm⟩
    · simp at there
  intro n m d d' p there there' active active'
  by_cases hn : n < es.length <;> by_cases hm : m < es.length
  · rw [List.getElem?_append_left hn] at there
    rw [List.getElem?_append_left hm] at there'
    exact single n m d d' p there there' active active'
  · rw [List.getElem?_append_left hn] at there
    obtain ⟨-, rfl⟩ := last there' (Nat.le_of_not_lt hm)
    exact (apart there active active').elim
  · rw [List.getElem?_append_left hm] at there'
    obtain ⟨-, rfl⟩ := last there (Nat.le_of_not_lt hn)
    exact (apart there' active' active).elim
  · exact (last there (Nat.le_of_not_lt hn)).1.trans (last there' (Nat.le_of_not_lt hm)).1.symm

/-- An entry is marked. -/
theorem Single.mark (single : Single es) (h : markFirst? path moment es = some es') :
    Single es' := by
  obtain ⟨j, d, -, -, rfl⟩ := markFirst?_eq_some h
  have before {n : Nat} {e : Entry} {p : Path} (there : (es.set j (d.restore moment))[n]? = some e)
      (active : e.isActiveOf p = true) : es[n]? = some e := by
    rw [List.getElem?_set] at there
    split at there
    · split at there
      · rw [← Option.some.inj there, isActiveOf_restore] at active
        exact absurd active Bool.false_ne_true
      · simp at there
    · exact there
  intro n m e e' p there there' active active'
  exact single n m e e' p (before there active) (before there' active') active active'

/-! ### Stores -/

/-- The ledger in memory keeps one active entry for a path. -/
theorem Store.memory_preserves : Store.memory.Preserves fun r => Single r.entries where
  record := by
    intro e r _ single
    simp only [memory]
    split
    · exact single
    · next new => exact single.append (Bool.eq_false_iff.2 new)
  mark := by
    intro path moment r _ single
    simp only [memory]
    split
    · next marked => exact single.mark marked
    · exact single

/-- A journal can be read, its text has an end, and no path has two active
entries; or there is no journal yet. -/
def Journal.Sound (path : Path) (t : Tree) : Prop := ∃ es, Stands path t es ∧ Single es

/-- A journal that no other file is put in the place of is sound after every call. -/
theorem Store.journal_preserves (path : Path) :
    (Store.journal path).Preserves fun r => Journal.Sound path r.tree where
  record := by
    rintro e r valid ⟨es, stands, single⟩
    rw [record_eq stands.read]
    split
    · exact ⟨es, stands, single⟩
    · next new =>
      let event : Event := .archived e.original e.archive e.batch e.archivedAt e.reason
      rcases stands.append (show event.moment.isValid = true from valid) with
        ⟨-, stands', -⟩ | ⟨-, stands', -⟩
      · exact ⟨_, stands', single.append (Bool.eq_false_iff.2 new)⟩
      · exact ⟨es, stands', single⟩
  mark := by
    rintro original moment r valid ⟨es, stands, single⟩
    cases found : es.find? (Entry.isActiveOf original) with
    | none =>
      rw [markRestored_of_none stands.read found]
      exact ⟨es, stands, single⟩
    | some e =>
      rw [markRestored_of_some stands.read found]
      let event : Event := .restored e.original e.batch moment
      rcases stands.append (show event.moment.isValid = true from valid) with
        ⟨-, stands', -⟩ | ⟨-, stands', -⟩
      · exact ⟨_, stands', single.mark (applyEvent_restored found)⟩
      · exact ⟨es, stands', single⟩

/-! ### Journals that are written line by line -/

/-- A store that refuses nothing. -/
theorem Store.refusing_none (s : Store) : Store.refusing (fun _ => false) s = s := by
  simp [Store.refusing]

/-- A journal that is written takes a script whose path has no active entry. -/
theorem Store.record_of_written {kept : List Entry} {text : String}
    (read : Journal.entries path t = .ok es) (there : t.readText path = .ok text)
    (new : es.any (Entry.isActiveOf e.original) = false) :
    (Store.journal path).record e ⟨t, kept⟩ =
      (.ok (), ⟨(Journal.append path
        (.archived e.original e.archive e.batch e.archivedAt e.reason) t).2, kept⟩) := by
  rw [record_eq (r := ⟨t, kept⟩) read, new, if_neg Bool.false_ne_true,
    ← Journal.append_of_readText there]
  rfl

/-- The text of events, one a line. -/
def textOf (events : List Event) : String := events.foldl (fun text e => text ++ e.line) ""

theorem textOf_concat (events : List Event) (e : Event) :
    textOf (events ++ [e]) = textOf events ++ e.line := by simp [textOf]

theorem ended_textOf (events : List Event) : Journal.Ended (textOf events) := by
  rcases List.eq_nil_or_concat events with rfl | ⟨events, e, rfl⟩
  · decide
  · rw [List.concat_eq_append, textOf_concat, Journal.Ended, Journal.unended_line]
    rfl

theorem readEvents_textOf (path : Path) {events : List Event}
    (valid : ∀ e ∈ events, e.moment.isValid = true) :
    readEvents path (textOf events) = .ok events := by
  induction events using List.reverseRecOn with
  | nil => rfl
  | append_singleton events e ih =>
    have before := ih fun d hd => valid d (List.mem_append_left _ hd)
    rw [textOf_concat, readEvents_append_line before (valid e (by simp))]
    exact if_pos (ended_textOf events)

/-- A journal with the lines of events has the entries that they make up. -/
theorem Journal.stands_textOf {events : List Event} (valid : ∀ e ∈ events, e.moment.isValid = true)
    (h : t.readText path = .ok (textOf events)) : Stands path t (replay events) := by
  refine ⟨⟨_, .inl h, ended_textOf events⟩, ?_⟩
  rw [entries, events_of_holds (.inl h), readEvents_textOf path valid]
  rfl

end Ledger

namespace Deed

open Ledger (Single Store Entry Event)
open Ledger.Journal (Sound Stands)

variable {path : Path} {t : Tree} {kept : List Entry}

/-- **No path has two active entries, whatever is done.** In memory this is so
without a condition. A journal stays sound through deeds if and only if none of
their changes of files spoils it: the calls of the ledger never do, be they refused
or not. -/
theorem runAll_single_iff (single : Single kept) (sound : Sound path t)
    (ds : List (Deed × (Path → Bool))) (timed : ∀ d ∈ ds, d.1.Timed) :
    (∀ n, Single (runAll .memory (ds.take n) ⟨t, kept⟩).entries) ∧
      ((∀ n, Sound path (runAll (.journal path) (ds.take n) ⟨t, kept⟩).tree) ∧
          (∀ c ∈ changesAll (.journal path) ds ⟨t, kept⟩, Sound path c.1 ∧ Sound path c.2) ↔
        ∀ c ∈ changesAll (.journal path) ds ⟨t, kept⟩, Sound path c.1 → Sound path c.2) := by
  have timed' (n : Nat) : ∀ d ∈ ds.take n, d.1.Timed := fun d hd =>
    timed d (List.mem_of_mem_take hd)
  constructor
  · intro n
    exact ((runAll_course ⟨t, kept⟩ (timed' n)).keeps Store.memory_preserves
      (fun _ _ _ => id) single).1
  constructor
  · exact fun all c hc _ => (all.2 c hc).2
  intro leaves
  have follows {ds' : List (Deed × (Path → Bool))} (timed : ∀ d ∈ ds', d.1.Timed)
      (inside : ∀ c ∈ changesAll (.journal path) ds' ⟨t, kept⟩,
        c ∈ changesAll (.journal path) ds ⟨t, kept⟩) :=
    (runAll_course ⟨t, kept⟩ timed).keeps (Store.journal_preserves path)
      (fun c hc _ => leaves c (inside c hc)) sound
  constructor
  · exact fun n => (follows (timed' n) fun c hc => (changesAll_take ds n _).subset hc).1
  · intro c hc
    obtain ⟨es, before⟩ := (follows timed fun c hc => hc).2 c hc
    exact ⟨before, leaves c hc before⟩

/-- A request for a script that is moved and recorded. -/
theorem archive_script {s : Store} {q : Archive.Request} {ps : List Path} {active : List Entry}
    {e : Entry} {u : Tree} {r' : Repository} (read : s.active ⟨t, kept⟩ = .ok active)
    (planned : Archive.planScripts q t active [] ps = .ok [e])
    (moved : t.moveFile (q.root.join e.original) (q.root.join e.archive) = (.ok (), u))
    (recorded : s.record e ⟨u, kept⟩ = (.ok (), r')) :
    Archive.archive q s ps false ⟨t, kept⟩ = (.ok ⟨q.batch, false, [e]⟩, r') := by
  have committed : Archive.commitEntry q.root s e ⟨t, kept⟩ = (.ok (), r') := by
    dsimp only [Archive.commitEntry]
    rw [moved]
    dsimp only
    rw [recorded]
  have batch : Archive.commit q.root s [e] ⟨t, kept⟩ = (.ok (), r') := by
    rw [Archive.commit, Archive.stepEach, committed]
    rfl
  rw [Archive.archive, read]
  dsimp only
  rw [planned]
  dsimp only
  rw [if_neg Bool.false_ne_true, batch]

/-! A script whose text is that of a journal with two active entries of one path is
archived to the place of the journal, by a path over a folder that is not there
when the place is looked at. -/

open Ledger.Store (sampleEntry sampleEvent)

def intrudedPath : Path := ⟨"/r/led/a.2025-06-01.sh"⟩

def intruderTree : Tree :=
  ⟨[(["r"], .folder),
    (["r", "a.sh"], .file 0o644 (Ledger.textOf [sampleEvent "q", sampleEvent "q"]).toByteArray),
    (["r", "led"], .folder),
    (["r", "led", "a.2025-06-01.sh"], .file 0o644 (Ledger.textOf [sampleEvent "p"]).toByteArray)]⟩

def intruderRequest : Archive.Request :=
  ⟨⟨"/r"⟩, "d/../led", "", "b1", ⟨⟨2025, 6, 1⟩, 43200, 0⟩⟩

def intruderEntry : Entry :=
  .fresh ⟨"a.sh"⟩ ⟨"d/../led/a.2025-06-01.sh"⟩ "b1" ⟨⟨2025, 6, 1⟩, 43200, 0⟩ ""

def intruderEvent : Event :=
  .archived intruderEntry.original intruderEntry.archive intruderEntry.batch
    intruderEntry.archivedAt intruderEntry.reason

def intruders : List (Deed × (Path → Bool)) :=
  [(.archive intruderRequest [⟨"a.sh"⟩] false, fun _ => false)]

/-- The tree after the script has moved. -/
def intrudedTree : Tree :=
  (intruderTree.moveFile (intruderRequest.root.join intruderEntry.original)
    (intruderRequest.root.join intruderEntry.archive)).2

theorem stands_intruderTree : Stands intrudedPath intruderTree [sampleEntry "p"] :=
  Ledger.Journal.stands_textOf
    (by decide : ∀ e ∈ [sampleEvent "p"], e.moment.isValid = true)
    (Tree.readText_eq_ok.2 ⟨0o644, rfl⟩)

theorem readText_intrudedTree : intrudedTree.readText intrudedPath =
    .ok (Ledger.textOf [sampleEvent "q", sampleEvent "q"]) :=
  Tree.readText_eq_ok.2 ⟨0o644, rfl⟩

theorem stands_intrudedTree :
    Stands intrudedPath intrudedTree [sampleEntry "q", sampleEntry "q"] :=
  Ledger.Journal.stands_textOf (by decide) readText_intrudedTree

/-- The script is moved over the journal, and its entry is recorded behind its text. -/
theorem runAll_intruders :
    runAll (.journal intrudedPath) intruders ⟨intruderTree, []⟩ =
      ⟨(Ledger.Journal.append intrudedPath intruderEvent intrudedTree).2, []⟩ := by
  have active : (Store.journal intrudedPath).active ⟨intruderTree, []⟩ =
      .ok [sampleEntry "p"] := by
    simp only [Store.journal, stands_intruderTree.read]
    rfl
  have planned : Archive.planScripts intruderRequest intruderTree [sampleEntry "p"] []
      [⟨"a.sh"⟩] = .ok [intruderEntry] := by decide +kernel
  have moves : (intruderTree.moveFile (intruderRequest.root.join intruderEntry.original)
      (intruderRequest.root.join intruderEntry.archive)).1 = .ok () := by decide +kernel
  have moved : intruderTree.moveFile (intruderRequest.root.join intruderEntry.original)
      (intruderRequest.root.join intruderEntry.archive) = (.ok (), intrudedTree) := by
    rw [intrudedTree, ← moves]
  have recorded : (Store.journal intrudedPath).record intruderEntry ⟨intrudedTree, []⟩ =
      (.ok (), ⟨(Ledger.Journal.append intrudedPath intruderEvent intrudedTree).2, []⟩) :=
    Ledger.Store.record_of_written stands_intrudedTree.read readText_intrudedTree (by decide)
  have done := archive_script active planned moved recorded
  rw [intruders, runAll, runAll, Deed.run, Ledger.Store.refusing_none, done]

/-- The journal can still be read, and has two active entries of one path. -/
theorem runAll_single_iff_intruder :
    Sound intrudedPath intruderTree ∧
      Ledger.Journal.entries intrudedPath
          (runAll (.journal intrudedPath) intruders ⟨intruderTree, []⟩).tree =
        .ok [sampleEntry "q", sampleEntry "q", intruderEntry] ∧
      ∃ c ∈ changesAll (.journal intrudedPath) intruders ⟨intruderTree, []⟩,
        Sound intrudedPath c.1 ∧ ¬ Sound intrudedPath c.2 := by
  have none : Single [] := fun n m e d p there => by simp at there
  have sound : Sound intrudedPath intruderTree := ⟨_, stands_intruderTree, none.append rfl⟩
  have last : Stands intrudedPath
      (runAll (.journal intrudedPath) intruders ⟨intruderTree, []⟩).tree
      [sampleEntry "q", sampleEntry "q", intruderEntry] := by
    rw [runAll_intruders]
    rcases stands_intrudedTree.append (by decide : intruderEvent.moment.isValid = true) with
      ⟨-, last, -⟩ | ⟨⟨f, failed⟩, -⟩
    · exact last
    · rw [Ledger.Journal.append_of_readText readText_intrudedTree] at failed
      simp at failed
  have spoilt : ¬ Sound intrudedPath
      (runAll (.journal intrudedPath) intruders ⟨intruderTree, []⟩).tree := by
    rintro ⟨es, stands, single⟩
    obtain rfl := Except.ok.inj (last.read.symm.trans stands.read)
    exact absurd (single 0 1 _ _ ⟨"q"⟩ rfl rfl (by decide) (by decide)) (by decide)
  have timed : ∀ d ∈ intruders, d.1.Timed := by
    intro d hd
    rw [List.mem_singleton.1 hd, Timed]
    decide
  have broken := (runAll_single_iff none sound intruders timed).2.not.1 fun all => spoilt (all.1 1)
  push Not at broken
  exact ⟨sound, last.read, broken⟩

end Deed
end Attic
