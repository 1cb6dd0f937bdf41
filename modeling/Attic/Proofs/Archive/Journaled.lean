import Attic.Proofs.Archive.Recorded
import Mathlib

/-!
# Journals among the files that are archived

In a tree without links, where the folder for copies is one beside the script, no
script is moved to the place of a journal. But a request may archive the journal
itself: then a new journal begins with the entry for the old one, and what was
recorded before is in the copy only. Apart from this the entries of a journal stay
when scripts are archived, if its text has an end.

Key definitions: `Archive.Due`, `Archive.Takes`.
Key theorems: `Archive.record_anew`, `Archive.Due.commitEntry_away`,
`Archive.Due.commitEntry_own`, `Archive.Due.taken`, `Archive.archive_journal_iff`.
-/

namespace Attic
namespace Archive

open Ledger (Entry Store)
open Ledger.Journal (Ended Holds Keeps entries)

variable {q : Request} {root path : Path} {base l : Location} {d : String} {e : Entry}
variable {es active new : List Entry} {r r' : Repository} {t t' : Tree} {text : String}
variable {mode : Nat} {bytes : ByteArray} {paths : List Path}

/-! ### Batches under way -/

/-- A batch whose scripts can still be archived: each of them is a file, and nothing is
where its copy goes, unless a folder has come there. -/
structure Due (root : Path) (base : Location) (d : String) (es : List Entry) (t : Tree) :
    Prop where
  plain : t.Plain
  rooted : t.reach [] (Tree.steps root.text) = some base
  sited : ∀ e ∈ es, Sited root d e
  apart : es.Pairwise Entry.Apart
  files : ∀ e ∈ es, ∃ mode bytes,
    t.get? (Tree.placeBelow base e.original) = some (.file mode bytes)
  free : ∀ e ∈ es, Tree.Nameable root e.archive →
    t.get? (Tree.placeBelow base e.archive) = none ∨
      t.get? (Tree.placeBelow base e.archive) = some .folder

theorem Ready.due (ready : Ready q base active es t) (plain : t.Plain) :
    Due q.root base q.dirName es t :=
  ⟨plain, ready.rooted, ready.sited, ready.apart, ready.files,
    fun _ he nameable => .inl (ready.vacant plain he nameable)⟩

namespace Due

theorem later (h : Due root base d es t) (plain : t'.Plain)
    (folders : ∀ k, t.get? k = some .folder → t'.get? k = some .folder)
    (files : ∀ e ∈ es, ∃ mode bytes,
      t'.get? (Tree.placeBelow base e.original) = some (.file mode bytes))
    (grows : ∀ e ∈ es, Tree.Nameable root e.archive →
      t.GrowsAt t' (Tree.placeBelow base e.archive)) : Due root base d es t' := by
  refine ⟨plain, Tree.reach_kept folders _ _ h.rooted, h.sited, h.apart, files,
    fun e he nameable => ?_⟩
  rcases grows e he nameable with same | ⟨-, folder⟩
  · rw [same]
    exact h.free e he nameable
  · exact .inr folder

/-- A file that is written is not where a copy goes. -/
theorem set (h : Due root base d es t) (hl : l ≠ []) (above : t.get? l.dropLast = some .folder)
    (noFolder : t.get? l ≠ some .folder)
    (beside : ∀ e ∈ es, Tree.Nameable root e.archive → l ≠ Tree.placeBelow base e.archive) :
    Due root base d es (t.set l (.file mode bytes)) := by
  refine h.later (h.plain.set (by simp) hl above noFolder) (fun k folder => ?_)
    (fun e he => ?_) fun e he nameable => .inl (Tree.get?_set_other (beside e he nameable).symm)
  · rwa [Tree.get?_set_other]
    rintro rfl
    exact noFolder folder
  · by_cases same : Tree.placeBelow base e.original = l
    · exact ⟨mode, bytes, by rw [same, Tree.get?_set_same hl]⟩
    · rw [Tree.get?_set_other same]
      exact h.files e he

/-- A file that is there is not where a copy goes. -/
theorem beside (h : Due root base d es t) (held : t.get? l = some (.file mode bytes)) :
    ∀ e ∈ es, Tree.Nameable root e.archive → l ≠ Tree.placeBelow base e.archive := by
  rintro e he nameable rfl
  rcases h.free e he nameable with none | folder
  · simp [none] at held
  · simp [folder] at held

variable (h : Due root base d (e :: es) t)

include h

/-- The other scripts of a batch can be archived when one has moved. -/
theorem moved
    (moved : t.moveFile (root.join e.original) (root.join e.archive) = (.ok (), t')) :
    Tree.Nameable root e.archive ∧
      t.Moves t' (Tree.placeBelow base e.original) (Tree.placeBelow base e.archive).dropLast
        (Tree.placeBelow base e.archive) ∧ Due root base d es t' := by
  have here := h.sited e List.mem_cons_self
  have sited : ∀ j ∈ es, Sited root d j := fun j hj => h.sited j (List.mem_cons_of_mem _ hj)
  obtain ⟨apartE, apart⟩ := List.pairwise_cons.1 h.apart
  obtain ⟨original, archive⟩ := here.elsewhere base sited apartE
  obtain ⟨mode, bytes, file⟩ := h.files e List.mem_cons_self
  obtain ⟨nameable, plain, moves, -⟩ := here.moveFile_ok h.plain h.rooted file moved
  have rest : Due root base d es t := ⟨h.plain, h.rooted, sited, apart,
    fun j hj => h.files j (List.mem_cons_of_mem _ hj),
    fun j hj => h.free j (List.mem_cons_of_mem _ hj)⟩
  refine ⟨nameable, moves, rest.later plain (fun k => moves.folders) (fun j hj => ?_)
    fun j hj _ => moves.growsAt (original j hj).2.symm (archive j hj).2.symm⟩
  obtain ⟨mode, bytes, script⟩ := rest.files j hj
  exact ⟨mode, bytes,
    (moves.growsAt (original j hj).1.symm (archive j hj).1.symm).keeps script⟩

end Due

/-! ### A journal that is a file -/

/-- A journal that is there takes an entry into its file or is left as it is. -/
theorem record_at (slash : Tree.endsWithSlash path.text = false)
    (spot : r.tree.spot true false path = .ok (.found l (.file mode bytes))) (e : Entry) :
    (∃ f, (Store.journal path).record e r = (.error f, r)) ∨
    ∃ bytes', (Store.journal path).record e r =
        (.ok (), { r with tree := r.tree.set l (.file mode bytes') }) ∧
      (r.tree.set l (.file mode bytes')).spot true false path =
        .ok (.found l (.file mode bytes')) := by
  have there := Ledger.Keeper.readFile_of_spot slash spot
  cases read : entries path r.tree with
  | error f => exact .inl ⟨f, by simp only [Store.journal, read]⟩
  | ok es =>
    rw [Ledger.Store.record_eq read]
    split
    · exact .inl ⟨_, rfl⟩
    obtain ⟨text, rfl⟩ : ∃ text : String, bytes = text.toByteArray := by
      have has : r.tree.has path = true := by rw [Tree.has, Tree.readFile_eq_ok.1 there]
      rw [entries, Ledger.Journal.events, has, if_pos rfl] at read
      cases written : r.tree.readText path with
      | error f => simp [written, Except.map] at read
      | ok text =>
        obtain ⟨mode', written⟩ := Tree.readText_eq_ok.1 written
        exact ⟨text, (Prod.mk.inj (Except.ok.inj (there.symm.trans written))).2⟩
    refine .inr ⟨(text ++ e.event.line).toByteArray, ?_, ?_⟩
    · rw [Ledger.Store.appendTo, ← Entry.event, Ledger.Keeper.append_of_spot slash spot]
    · obtain ⟨fault, way⟩ := Tree.spot_eq_ok spot
      have fileAt : (Tree.Spot.found l (.file mode text.toByteArray)).fileAt l := rfl
      obtain ⟨-, hne, free⟩ := Tree.walk_fileAt fileAt way
      exact Tree.spot_of_walk fault (Tree.walk_set_file fileAt hne free way)

/-- **A journal that has gone begins anew** with the next entry, at the place that it
has left. -/
theorem record_anew (plain : t.Plain) (slash : Tree.endsWithSlash path.text = false)
    (spot : t.spot true false path = .ok (.found l (.file mode bytes))) (plain' : t'.Plain)
    (folders : ∀ k, t.get? k = some .folder → t'.get? k = some .folder)
    (gone : t'.get? l = none) (e : Entry) :
    (Store.journal path).record e { r with tree := t' } =
        (.ok (), { r with tree := t'.set l (.file Tree.newMode e.event.line.toByteArray) }) ∧
      LeadsTo (t'.set l (.file Tree.newMode e.event.line.toByteArray)) path l ∧
      Holds path (t'.set l (.file Tree.newMode e.event.line.toByteArray)) e.event.line ∧
      l ≠ [] ∧ t'.get? l.dropLast = some .folder := by
  -- the path of the journal leads to the place that it has left
  obtain ⟨k, name, place, vacant⟩ := Tree.spot_emptied plain folders spot gone
  have none : t'.has path = false := by
    rw [Tree.has, Tree.look, slash, vacant]
    rfl
  have prepared : Ledger.Journal.prepare path t' = (.ok (), t') := by
    have parent := Tree.makeParent_kept plain folders (Ledger.Keeper.readFile_of_spot slash spot)
    unfold Tree.makeParent at parent
    unfold Ledger.Journal.prepare
    split <;> simp_all
  have written : Ledger.Journal.append path e.event t' =
      (.ok (), t'.set l (.file Tree.newMode e.event.line.toByteArray)) := by
    rw [Ledger.Journal.append, prepared]
    simp [Tree.appendFile, Tree.updateFile, vacant, slash, place]
  have read : entries path t' = .ok [] := by
    rw [entries, Ledger.Journal.events, none]
    rfl
  refine ⟨?_, ?_, ?_, by simp [place], ?_⟩
  · rw [Ledger.Store.record_eq (r := { r with tree := t' }) read, List.any_nil, if_neg (by simp),
      Ledger.Store.appendTo, ← Entry.event, written]
  · obtain ⟨fault, way⟩ := Tree.spot_eq_ok vacant
    have fileAt : (Tree.Spot.vacant k name).fileAt l := place.symm
    obtain ⟨-, hne, free⟩ := Tree.walk_fileAt fileAt way
    exact ⟨_, _, Tree.spot_of_walk fault (Tree.walk_set_file fileAt hne free way)⟩
  · have empty : Holds path t' "" := .inr ⟨none, by rw [prepared, none], rfl⟩
    have text := Ledger.Journal.readText_append empty written
    rw [String.empty_append] at text
    exact .inl text
  · rw [place, List.dropLast_concat]
    exact (plain'.in_folder.spot_holds vacant).1

section

variable (due : Due root base d (e :: es) r.tree) (slash : Tree.endsWithSlash path.text = false)
variable (spot : r.tree.spot true false path = .ok (.found l (.file mode bytes)))

include due slash spot

/-- Where the journal is a file, and that stays, its text stays. -/
theorem Due.keeps {t₁ t₂ : Tree}
    (folders₁ : ∀ k, r.tree.get? k = some .folder → t₁.get? k = some .folder)
    (folders₂ : ∀ k, r.tree.get? k = some .folder → t₂.get? k = some .folder)
    (same₁ : t₁.get? l = some (.file mode bytes)) (same₂ : t₂.get? l = some (.file mode bytes)) :
    Keeps path t₁ t₂ := by
  have there₁ := Tree.spot_kept due.plain folders₁ spot same₁
  have there₂ := Tree.spot_kept due.plain folders₂ spot same₂
  exact .of_readFile (Ledger.Keeper.readFile_of_spot slash there₁)
    (Ledger.Keeper.readFile_of_spot slash there₂)

/-- **A script other than the journal is archived past it.** -/
theorem Due.commitEntry_away (away : l ≠ Tree.placeBelow base e.original) :
    (∀ c ∈ commitChanges root (.journal path) e r, Keeps path c.1 c.2) ∧
    ∀ r', commitEntry root (.journal path) e r = (.ok (), r') →
      Due root base d es r'.tree ∧ LeadsTo r'.tree path l := by
  have here := due.sited e List.mem_cons_self
  have held : r.tree.get? l = some (.file mode bytes) := due.plain.in_folder.spot_holds spot
  obtain ⟨m, b, file⟩ := due.files e List.mem_cons_self
  rcases commitEntry_cases root (.journal path) e r with
    ⟨f, t, moving, failed, changes⟩ | ⟨t, moving, ends⟩
  · obtain ⟨-, opened⟩ := here.moveFile_error due.plain due.rooted file moving
    rw [changes, failed]
    refine ⟨fun c hc => ?_, fun r' done => by simp at done⟩
    rw [List.mem_singleton.1 hc]
    exact due.keeps slash spot (fun _ => id) (fun k => (opened.grows k).keeps) held
      ((opened.grows l).keeps held)
  obtain ⟨nameable, moves, due'⟩ := due.moved moving
  have held' : t.get? l = some (.file mode bytes) :=
    (moves.growsAt away (due.beside held e List.mem_cons_self nameable)).keeps held
  have first : Keeps path r.tree t :=
    due.keeps slash spot (fun _ => id) (fun _ => moves.folders) held held'
  have spot' := Tree.spot_kept due.plain (fun _ => moves.folders) spot held'
  rcases ends with ⟨r₁, recorded, done, changes⟩ | ⟨f, r₁, t₁, refused, back, failed, changes⟩
  · rw [changes, done]
    refine ⟨fun c hc => by rw [List.mem_singleton.1 hc]; exact first, fun r' finished => ?_⟩
    rw [← (Prod.mk.inj finished).2]
    rcases record_at (r := { r with tree := t }) slash spot' e with
      ⟨f, refused⟩ | ⟨bytes', written, after⟩
    · rw [recorded] at refused
      simp at refused
    rw [recorded] at written
    rw [(Prod.mk.inj written).2]
    have hl : l ≠ [] := Tree.ne_nil_of_get? (t := t) (by simp [held'])
    exact ⟨due'.set hl (due'.plain.in_folder l hl (by simp [held'])) (by simp [held'])
      (due'.beside held'), mode, bytes', after⟩
  · rw [changes, failed]
    refine ⟨fun c hc => ?_, fun r' done => by simp at done⟩
    rcases record_at (r := { r with tree := t }) slash spot' e with
      ⟨g, refused'⟩ | ⟨bytes', written, -⟩
    · obtain rfl : r₁ = { r with tree := t } := (Prod.mk.inj (refused.symm.trans refused')).2
      obtain ⟨t₂, back', -, opened⟩ := here.moveFile_back due.plain due.rooted file
        (due.free e List.mem_cons_self) moving
      rcases List.mem_cons.1 hc with rfl | hc
      · exact first
      · rw [List.mem_singleton.1 hc, ← back]
        simp only [back']
        exact due.keeps slash spot (fun _ => moves.folders) (fun k => (opened.grows k).keeps) held'
          ((opened.grows l).keeps held)
    · rw [refused] at written
      simp at written

/-- **The journal itself is archived**, and a new one begins with the entry for it. -/
theorem Due.commitEntry_own (own : l = Tree.placeBelow base e.original) :
    (∃ f r', commitEntry root (.journal path) e r = (.error f, r') ∧
      ∀ c ∈ commitChanges root (.journal path) e r, Keeps path c.1 c.2) ∨
    ∃ r', commitEntry root (.journal path) e r = (.ok (), r') ∧ Due root base d es r'.tree ∧
      LeadsTo r'.tree path l ∧ Holds path r'.tree e.event.line := by
  have here := due.sited e List.mem_cons_self
  have held : r.tree.get? l = some (.file mode bytes) := due.plain.in_folder.spot_holds spot
  have file := held
  rw [own] at file
  rcases commitEntry_cases root (.journal path) e r with
    ⟨f, t, moving, failed, changes⟩ | ⟨t, moving, ends⟩
  · obtain ⟨-, opened⟩ := here.moveFile_error due.plain due.rooted file moving
    refine .inl ⟨_, _, failed, fun c hc => ?_⟩
    rw [changes] at hc
    rw [List.mem_singleton.1 hc]
    exact due.keeps slash spot (fun _ => id) (fun k => (opened.grows k).keeps) held
      ((opened.grows l).keeps held)
  right
  obtain ⟨-, moves, due'⟩ := due.moved moving
  have gone : t.get? l = none := by rw [own, moves.gone]
  obtain ⟨recorded, there, holds, hl, above⟩ :=
    record_anew (r := r) due.plain slash spot due'.plain (fun _ => moves.folders) gone e
  rcases ends with ⟨r₁, recorded', done, -⟩ | ⟨f, r₁, t₁, refused, -⟩
  · obtain rfl := (Prod.mk.inj (recorded.symm.trans recorded')).2
    have sited : ∀ j ∈ es, Sited root d j := fun j hj => due.sited j (List.mem_cons_of_mem _ hj)
    have apart := (here.elsewhere base sited (List.pairwise_cons.1 due.apart).1).1
    refine ⟨_, done, due'.set hl above (by simp [gone]) fun j hj _ => ?_, there, holds⟩
    rw [own]
    exact (apart j hj).2
  · rw [recorded] at refused
    simp at refused

end

/-- Where the journal is not among the scripts that are archived its text stays. -/
theorem Due.kept (slash : Tree.endsWithSlash path.text = false) : ∀ {es : List Entry}
    {r : Repository}, Due root base d es r.tree → LeadsTo r.tree path l →
    (∀ e ∈ stepped (commitEntry root (.journal path)) es r, l ≠ Tree.placeBelow base e.original) →
    ∀ c ∈ eachChanges (commitEntry root (.journal path)) (commitChanges root (.journal path)) es r,
      Keeps path c.1 c.2
  | [], _, _, _, _ => by simp [eachChanges]
  | e :: es, r, due, ⟨mode, bytes, spot⟩, others => by
    rw [eachChanges, List.forall_mem_append]
    rw [stepped] at others
    by_cases own : l = Tree.placeBelow base e.original
    · rcases due.commitEntry_own slash spot own with ⟨f, r', failed, kept⟩ | ⟨r', done, -⟩
      · exact ⟨kept, by simp [failed]⟩
      · simp only [done] at others
        exact absurd own (others e List.mem_cons_self)
    · obtain ⟨kept, goes⟩ := due.commitEntry_away slash spot own
      refine ⟨kept, ?_⟩
      split
      · simp
      · next r' done =>
        simp only [done] at others
        obtain ⟨due', there⟩ := goes r' done
        exact due'.kept slash there fun j hj => others j (List.mem_cons_of_mem _ hj)

/-- **Where the journal is among the scripts that are archived** it begins anew with its
own entry. -/
theorem Due.taken (slash : Tree.endsWithSlash path.text = false) : ∀ {es : List Entry}
    {r : Repository}, Due root base d es r.tree → LeadsTo r.tree path l →
    (∃ e ∈ stepped (commitEntry root (.journal path)) es r, l = Tree.placeBelow base e.original) →
    ∃ e post, e :: post <:+ stepped (commitEntry root (.journal path)) es r ∧
      Holds path (stepEach (commitEntry root (.journal path)) es r).2.tree
        (Ledger.textOf ((e :: post).map Entry.event))
  | [], _, _, _, own => by simp [stepped] at own
  | e :: es, r, due, ⟨mode, bytes, spot⟩, own => by
    rw [stepped] at own ⊢
    rw [stepEach]
    by_cases here : l = Tree.placeBelow base e.original
    · rcases due.commitEntry_own slash spot here with
        ⟨f, r', failed, -⟩ | ⟨r', done, due', there, holds⟩
      · simp [failed] at own
      simp only [done]
      have sited : ∀ j ∈ es, Sited root d j := fun j hj => due.sited j (List.mem_cons_of_mem _ hj)
      have apart := ((due.sited e List.mem_cons_self).elsewhere base sited
        (List.pairwise_cons.1 due.apart).1).1
      have rest := due'.kept slash there fun j hj => by
        rw [here]
        exact (apart j (stepped_subset es r' hj)).1
      have after := stepEach_holds holds rest
      refine ⟨e, _, List.suffix_rfl, ?_⟩
      have text := Ledger.textOf_cons "" e.event
        ((stepped (commitEntry root (.journal path)) es r').map Entry.event)
      rw [String.empty_append, String.empty_append] at text
      rwa [List.map_cons, text]
    · obtain ⟨-, goes⟩ := due.commitEntry_away slash spot here
      cases step : commitEntry root (.journal path) e r with
      | mk result r' =>
      cases result with
      | error f => simp [step] at own
      | ok =>
      simp only [step] at own ⊢
      obtain ⟨due', there⟩ := goes r' step
      obtain ⟨j, hj, place⟩ := own
      have later : j ∈ stepped (commitEntry root (.journal path)) es r' := by
        refine (List.mem_cons.1 hj).resolve_left ?_
        rintro rfl
        exact here place
      obtain ⟨a, post, suffix, holds⟩ := due'.taken slash there ⟨j, later, place⟩
      exact ⟨a, post, suffix.trans (List.suffix_cons e _), holds⟩

/-! ### The request -/

/-- Whether the journal is one of the scripts that are archived. -/
def Takes (q : Request) (path : Path) (t : Tree) (es : List Entry) : Prop :=
  ∃ e ∈ es, ∃ l, LeadsTo t path l ∧ LeadsTo t (q.root.join e.original) l

/-- A script leads to its place. -/
theorem Due.leadsTo_iff (due : Due root base d es t) (he : e ∈ es) :
    LeadsTo t (root.join e.original) l ↔ l = Tree.placeBelow base e.original := by
  obtain ⟨mode, bytes, file⟩ := due.files e he
  have spot := Tree.spot_normal due.plain due.rooted (due.sited e he).nameable file true
  constructor
  · rintro ⟨mode', bytes', spot'⟩
    exact ((Tree.Spot.found.inj (Except.ok.inj (spot.symm.trans spot'))).1).symm
  · rintro rfl
    exact ⟨mode, bytes, spot⟩

theorem LeadsTo.unique {p : Path} {k : Location} (h : LeadsTo t p l) (h' : LeadsTo t p k) :
    k = l := by
  obtain ⟨mode, bytes, spot⟩ := h
  obtain ⟨mode', bytes', spot'⟩ := h'
  exact (Tree.Spot.found.inj (Except.ok.inj (spot'.symm.trans spot))).1

section

variable (plain : r.tree.Plain) (hd : Path.IsName q.dirName)

include plain hd

/-- In a tree without links a request changes nothing, or its batch can be committed. -/
theorem archive_ready (s : Store) (paths : List Path) (dryRun : Bool) :
    (archive q s paths dryRun r).2 = r ∧ recorded q s paths dryRun r = [] ∧
        changes q s paths dryRun r = [] ∨
      ∃ active planned base, s.active r = .ok active ∧ Ready q base active planned r.tree ∧
        (archive q s paths dryRun r).2 = (stepEach (commitEntry q.root s) planned r).2 ∧
        recorded q s paths dryRun r = stepped (commitEntry q.root s) planned r ∧
        changes q s paths dryRun r =
          eachChanges (commitEntry q.root s) (commitChanges q.root s) planned r := by
  rcases archive_cases q s paths dryRun r with
    still | ⟨active, planned, asked, scripts, after, new, moves⟩
  · exact .inl still
  by_cases hne : paths = []
  · obtain rfl : planned = [] := by
      rw [hne] at scripts
      exact (Except.ok.inj scripts).symm
    exact .inl ⟨after, new, moves⟩
  · obtain ⟨-, base, ready⟩ := planScripts_ready plain hd hne scripts
    exact .inr ⟨active, planned, base, asked, ready, after, new, moves⟩

variable (file : r.tree.isFile path = true) (dryRun : Bool)

include file

/-- A request that does not archive the journal keeps its text. -/
theorem keeps_of_not_takes
    (other : ¬ Takes q path r.tree (recorded q (.journal path) paths dryRun r)) :
    ∀ c ∈ changes q (.journal path) paths dryRun r, Keeps path c.1 c.2 := by
  obtain ⟨mode, bytes, file⟩ := Tree.isFile_iff.1 file
  obtain ⟨slash, l, spot⟩ := Tree.spot_of_readFile file
  have there : LeadsTo r.tree path l := ⟨mode, bytes, spot⟩
  rcases archive_ready plain hd (.journal path) paths dryRun with
    ⟨-, -, still⟩ | ⟨active, planned, base, -, ready, -, new, moves⟩
  · simp [still]
  have due := ready.due plain
  rw [moves]
  refine due.kept slash there fun e he own => other ⟨e, ?_, l, there, ?_⟩
  · rwa [new]
  · exact (due.leadsTo_iff (stepped_subset planned r he)).2 own

/-- **A request that archives the journal leaves a new one**, with the entries from that
of the old one on. -/
theorem entries_of_takes (timed : q.now.isValid = true)
    (takes : Takes q path r.tree (recorded q (.journal path) paths dryRun r)) :
    ∃ active e post, (Store.journal path).active r = .ok active ∧
      (∀ a ∈ active, a.original.same e.original = false) ∧
      e :: post <:+ recorded q (.journal path) paths dryRun r ∧
      entries path (archive q (.journal path) paths dryRun r).2.tree = .ok (e :: post) := by
  obtain ⟨mode, bytes, file⟩ := Tree.isFile_iff.1 file
  obtain ⟨slash, l, spot⟩ := Tree.spot_of_readFile file
  have there : LeadsTo r.tree path l := ⟨mode, bytes, spot⟩
  have fresh : ∀ e ∈ recorded q (.journal path) paths dryRun r, e.isNew = true ∧
      e.archivedAt = q.now := recorded_new dryRun
  obtain ⟨d, hd', k, own, script⟩ := takes
  rcases archive_ready plain hd (.journal path) paths dryRun with
    ⟨-, none, -⟩ | ⟨active, planned, base, asked, ready, after, new, -⟩
  · simp [none] at hd'
  have due := ready.due plain
  have ours : ∃ e ∈ stepped (commitEntry q.root (.journal path)) planned r,
      l = Tree.placeBelow base e.original := by
    rw [new] at hd'
    obtain rfl := there.unique own
    exact ⟨d, hd', (due.leadsTo_iff (stepped_subset planned r hd')).1 script⟩
  obtain ⟨e, post, suffix, holds⟩ := due.taken slash there ours
  have he : e ∈ planned := stepped_subset planned r (suffix.subset List.mem_cons_self)
  rw [← new] at suffix
  refine ⟨active, e, post, asked, (ready.planned e he).new, suffix, ?_⟩
  have valid : ∀ event ∈ (e :: post).map Entry.event, event.moment.isValid = true := by
    intro event hevent
    obtain ⟨j, hj, rfl⟩ := List.mem_map.1 hevent
    rw [← timed, ← (fresh j (suffix.subset hj)).2]
    rfl
  rw [after, entries, Ledger.Journal.events_of_holds holds, Ledger.readEvents_textOf path valid,
    Except.map]
  exact congrArg Except.ok
    (Ledger.replay_archived [] fun j hj => (fresh j (suffix.subset hj)).1)

end

/-- The entries of a journal whose text no move has changed. -/
theorem entries_of_keeps (holds : Holds path r.tree text) (read : entries path r.tree = .ok es)
    (timed : q.now.isValid = true) (dryRun : Bool)
    (kept : ∀ c ∈ changes q (.journal path) paths dryRun r, Keeps path c.1 c.2) :
    ((∃ more, entries path (archive q (.journal path) paths dryRun r).2.tree = .ok (es ++ more)) ↔
        Ended text ∨ recorded q (.journal path) paths dryRun r = []) ∧
      (Ended text → entries path (archive q (.journal path) paths dryRun r).2.tree =
        .ok (es ++ recorded q (.journal path) paths dryRun r)) := by
  have new : ∀ e ∈ recorded q (.journal path) paths dryRun r, e.isNew = true ∧
      e.archivedAt = q.now := recorded_new dryRun
  obtain ⟨whole, broken⟩ := Ledger.Journal.entries_holds holds read (fun e he => (new e he).1)
    (fun e he => by rw [(new e he).2, timed]) (archive_holds dryRun holds kept)
  refine ⟨⟨?_, fun fine => ⟨_, whole fine⟩⟩, fun ended => whole (.inl ended)⟩
  rintro ⟨more, after⟩
  by_contra neither
  obtain ⟨f, failed⟩ := broken neither
  rw [failed] at after
  simp at after

/-- **What becomes of a journal in a repository where scripts are archived.** If no move
changes its text, the entries so far stay at the beginning exactly where that text had
an end or nothing was recorded; with an end the entries recorded are the others. In a
tree without links, where the folder for copies is one beside the script, the only
move that changes the text is that of the journal itself, and then what was recorded
before is lost. -/
theorem archive_journal_iff (holds : Holds path r.tree text) (read : entries path r.tree = .ok es)
    (timed : q.now.isValid = true) (paths : List Path) (dryRun : Bool) :
    ((∀ c ∈ changes q (.journal path) paths dryRun r, Keeps path c.1 c.2) →
      ((∃ more, entries path (archive q (.journal path) paths dryRun r).2.tree = .ok (es ++ more)) ↔
        Ended text ∨ recorded q (.journal path) paths dryRun r = []) ∧
      (Ended text → entries path (archive q (.journal path) paths dryRun r).2.tree =
        .ok (es ++ recorded q (.journal path) paths dryRun r))) ∧
    (r.tree.Plain → Path.IsName q.dirName → r.tree.isFile path = true →
      ((∃ more, entries path (archive q (.journal path) paths dryRun r).2.tree = .ok (es ++ more)) ↔
        recorded q (.journal path) paths dryRun r = [] ∨
          (Takes q path r.tree (recorded q (.journal path) paths dryRun r) ∧ es = []) ∨
          ¬ Takes q path r.tree (recorded q (.journal path) paths dryRun r) ∧ Ended text)) := by
  refine ⟨entries_of_keeps holds read timed dryRun, fun plain hd file => ?_⟩
  by_cases takes : Takes q path r.tree (recorded q (.journal path) paths dryRun r)
  · obtain ⟨active, e, post, asked, other, suffix, after⟩ :=
      entries_of_takes plain hd file dryRun timed takes
    have some : recorded q (.journal path) paths dryRun r ≠ [] := by
      intro none
      simp [none] at suffix
    simp only [after, Except.ok.injEq, some, takes, not_true_eq_false, false_and, or_false,
      true_and, false_or]
    constructor
    · rintro ⟨more, same⟩
      -- the first entry of the new journal is that of the old one, which was not in it
      by_contra before
      obtain ⟨a, rest, rfl⟩ := List.exists_cons_of_ne_nil before
      obtain ⟨rfl, -⟩ := List.cons.inj same
      have new := recorded_new dryRun e (suffix.subset List.mem_cons_self)
      have mem : e ∈ active := by
        simp only [Store.journal, read, Except.map, Except.ok.injEq] at asked
        rw [← asked]
        refine List.mem_filter.2 ⟨List.mem_cons_self, ?_⟩
        rw [← Entry.eq_fresh new.1]
        rfl
      have differs := other e mem
      rw [Path.same_refl] at differs
      exact Bool.noConfusion differs
    · rintro rfl
      exact ⟨_, rfl⟩
  · have kept := keeps_of_not_takes plain hd file dryRun takes
    rw [(entries_of_keeps holds read timed dryRun kept).1]
    simp only [takes, false_and, false_or, not_false_eq_true, true_and]
    exact or_comm

open Ledger.Store (sampleEntry sampleEvent)

/-- A repository with a script and a journal that says of one. -/
def ownRepository : Repository where
  tree := ⟨[(["r"], .folder), (["r", "b"], .file 0o644 "y".toByteArray),
    (["r", "led"], .file 0o644 (Ledger.textOf [sampleEvent "p"]).toByteArray)]⟩
  entries := []

def ownRequest : Request :=
  ⟨⟨"/r"⟩, ".archived_scripts", "", "b2", ⟨⟨2025, 6, 1⟩, 43200, 0⟩⟩

/-- The entry for a file of that repository. -/
def ownEntry (name : String) : Entry :=
  .fresh ⟨name⟩ ⟨".archived_scripts/" ++ name ++ ".2025-06-01"⟩ "b2" ⟨⟨2025, 6, 1⟩, 43200, 0⟩ ""

/-- The script is archived and the entry of the other one stays; the journal is
archived and that entry is lost. -/
theorem archive_journal_iff_own :
    entries ⟨"/r/led"⟩ ownRepository.tree = .ok [sampleEntry "p"] ∧
    entries ⟨"/r/led"⟩
        (archive ownRequest (.journal ⟨"/r/led"⟩) [⟨"b"⟩] false ownRepository).2.tree =
      .ok ([sampleEntry "p"] ++
        recorded ownRequest (.journal ⟨"/r/led"⟩) [⟨"b"⟩] false ownRepository) ∧
    recorded ownRequest (.journal ⟨"/r/led"⟩) [⟨"led"⟩] false ownRepository = [ownEntry "led"] ∧
    ¬ ∃ more, entries ⟨"/r/led"⟩
        (archive ownRequest (.journal ⟨"/r/led"⟩) [⟨"led"⟩] false ownRepository).2.tree =
      .ok ([sampleEntry "p"] ++ more) := by
  have written : ownRepository.tree.readText ⟨"/r/led"⟩ = .ok (Ledger.textOf [sampleEvent "p"]) :=
    Tree.readText_eq_ok.2 ⟨0o644, rfl⟩
  have read : entries ⟨"/r/led"⟩ ownRepository.tree = .ok [sampleEntry "p"] :=
    (Ledger.Journal.stands_textOf (by decide) written).read
  have active : (Store.journal ⟨"/r/led"⟩).active ownRepository = .ok [sampleEntry "p"] := by
    simp only [Store.journal, read]
    rfl
  have plain : ownRepository.tree.Plain := by
    refine Tree.plain_of_objects ?_ (by decide +kernel)
    simp [ownRepository]
  have hd : Path.IsName ownRequest.dirName := ⟨by decide, by decide, by decide, by decide⟩
  have file : ownRepository.tree.isFile ⟨"/r/led"⟩ = true := by decide +kernel
  have place : LeadsTo ownRepository.tree ⟨"/r/led"⟩ ["r", "led"] := ⟨_, _, rfl⟩
  have script : LeadsTo ownRepository.tree ⟨"/r/b"⟩ ["r", "b"] := ⟨_, _, rfl⟩
  have planned (name : String) (h : name = "b" ∨ name = "led") :
      planScripts ownRequest ownRepository.tree [sampleEntry "p"] [] [⟨name⟩] =
        .ok [ownEntry name] := by
    rcases h with rfl | rfl <;> decide +kernel
  have taken : recorded ownRequest (.journal ⟨"/r/led"⟩) [⟨"led"⟩] false ownRepository =
      [ownEntry "led"] := by
    have done : (commitEntry ownRequest.root (.journal ⟨"/r/led"⟩) (ownEntry "led")
        ownRepository).1 = .ok () := by decide +kernel
    have pair : commitEntry ownRequest.root (.journal ⟨"/r/led"⟩) (ownEntry "led") ownRepository =
        (.ok (), (commitEntry ownRequest.root (.journal ⟨"/r/led"⟩) (ownEntry "led")
          ownRepository).2) := by rw [← done]
    rw [recorded, active]
    simp only [planned "led" (.inr rfl), Bool.false_eq_true, if_false, stepped]
    rw [pair]
  have other : ¬ Takes ownRequest ⟨"/r/led"⟩ ownRepository.tree
      (recorded ownRequest (.journal ⟨"/r/led"⟩) [⟨"b"⟩] false ownRepository) := by
    rintro ⟨e, he, l, own, b⟩
    have mem : e ∈ [ownEntry "b"] := by
      rw [recorded, active] at he
      simp only [planned "b" (.inl rfl), Bool.false_eq_true, if_false] at he
      exact stepped_subset _ _ he
    obtain rfl := List.mem_singleton.1 mem
    exact absurd ((place.unique own).symm.trans (script.unique b)) (by decide)
  refine ⟨read, ?_, taken, ?_⟩
  · exact ((archive_journal_iff (.inl written) read (by decide) [⟨"b"⟩] false).1
      (keeps_of_not_takes plain hd file false other)).2 (Ledger.ended_textOf _)
  · rw [(archive_journal_iff (q := ownRequest) (.inl written) read (by decide) [⟨"led"⟩] false).2
      plain hd file, taken]
    have takes : Takes ownRequest ⟨"/r/led"⟩ ownRepository.tree [ownEntry "led"] :=
      ⟨_, List.mem_singleton_self _, _, place, place⟩
    simp [takes]

end Archive
end Attic
