import Attic.Proofs.Archive.Recorded
import Attic.Proofs.Ledger.Confined
import Attic.Proofs.Tree.Replacing
import Mathlib

/-!
# What archiving leaves alone

Nothing is at the path of a copy when it is planned, as far as links are followed.
The move that comes later follows no link at the end, and the folder for the copy
may be there only then. So a link that leads nowhere makes way for a copy, and so may
anything at a place to which the path did not lead before. Everything else that is in a
tree is there after a request as it was, but for the scripts themselves, and whether
the request comes to its end or not.

Key definition: `Archive.planned`.
Key theorems: `Archive.commitEntry_leaves`, `Archive.stepEach_leaves`,
`Archive.archive_leaves`, `Archive.archive_leaves_plain`.
-/

namespace Attic
namespace Archive

open Ledger (Confined Entry Store)

variable {q : Request} {root : Path} {s : Store} {e : Entry} {es active : List Entry}
variable {r : Repository} {t₀ : Tree} {l : Location} {o : Object} {paths : List Path}

/-- The entries for the scripts of a request, if all of them can be planned. -/
def planned (q : Request) (s : Store) (paths : List Path) (r : Repository) : List Entry :=
  match s.active r with
  | .error _ => []
  | .ok active =>
    match planScripts q r.tree active [] paths with
    | .error _ => []
    | .ok planned => planned

/-! ### Scripts that are moved -/

/-- What holds of the trees before all changes of files, and at the end, holds at the
start. -/
theorem eachChanges_first (P : Tree → Prop) (es : List Entry) (r : Repository)
    (before : ∀ c ∈ eachChanges (commitEntry root s) (commitChanges root s) es r, P c.1)
    (after : P (stepEach (commitEntry root s) es r).2.tree) : P r.tree := by
  cases es with
  | nil => exact after
  | cons e es => exact before (r.tree, _) List.mem_cons_self

section

variable (grounded : t₀.Grounded) (was : t₀.get? l = some o) (k : Confined s)

/-- Whether a copy goes to a place at which nothing is that a way goes on through, and
not to a certain one. -/
def GoesClear (root : Path) (t₀ : Tree) (l : Location) (t : Tree) (e : Entry) : Prop :=
  ∀ m, t.arrival? (root.join e.archive) = some m → t₀.Yields m ∧ m ≠ l

/-- Whether the place of a script holds nothing that a way goes on through, and is not
a certain one. -/
def ComesClear (root : Path) (t₀ : Tree) (l : Location) (e : Entry) : Prop :=
  ∃ m, t₀.placeOf? false (root.join e.original) = some m ∧ t₀.Yields m ∧ m ≠ l

include grounded was

/-- A script that is moved leaves the rest. -/
theorem moveFile_leaves (script : ComesClear root t₀ l e) {t : Tree} (lasts : t₀.Lasts t)
    (here : t.get? l = some o) (copy : GoesClear root t₀ l t e) :
    t₀.Lasts (t.moveFile (root.join e.original) (root.join e.archive)).2 ∧
      (t.moveFile (root.join e.original) (root.join e.archive)).2.get? l = some o := by
  obtain ⟨m, place, yields, other⟩ := script
  have opened := lasts.grounded.makeParent_grows (root.join e.archive)
  have still := (lasts.grows opened.2 opened.1).steady _ _ place
  obtain ⟨lasts', elsewhere⟩ := lasts.moveFile grounded
    (p := root.join e.original) (q := root.join e.archive)
    (fun l' hl' => Option.some.inj (still.symm.trans hl') ▸ yields) fun m hm => (copy m hm).1
  exact ⟨lasts', elsewhere l o was (fun same => other (Option.some.inj (still.symm.trans same)))
    (fun same => (copy l same).2 rfl) here⟩

/-- A copy that is moved back leaves the rest. -/
theorem moveFile_back_leaves (script : ComesClear root t₀ l e) {t : Tree} (lasts : t₀.Lasts t)
    (here : t.get? l = some o) (copy : GoesClear root t₀ l t e) :
    t₀.Lasts (t.moveFile (root.join e.archive) (root.join e.original)).2 ∧
      (t.moveFile (root.join e.archive) (root.join e.original)).2.get? l = some o := by
  obtain ⟨m, place, yields, other⟩ := script
  obtain ⟨s, spot, -⟩ := Tree.placeOf?_eq_some.1 (lasts.steady _ _ place)
  -- the folder of the script is there, so nothing comes before the move
  have opened : (t.makeParent (root.join e.original)).2 = t := by rw [Tree.makeParent_of_spot spot]
  have arrives := lasts.arrives place
  obtain ⟨lasts', elsewhere⟩ := lasts.moveFile grounded
    (p := root.join e.archive) (q := root.join e.original)
    (fun l' hl' => (copy l' (Tree.arrival?_of_placeOf? (opened ▸ hl'))).1)
    fun m' hm' => Option.some.inj (arrives.symm.trans hm') ▸ yields
  refine ⟨lasts', elsewhere l o was (fun same => ?_) (fun same => ?_) here⟩
  · exact (copy l (Tree.arrival?_of_placeOf? (opened ▸ same))).2 rfl
  · exact other (Option.some.inj (arrives.symm.trans same))

include k

/-- **A script that is archived leaves the rest**, whether it is recorded or moved
back. -/
theorem commitEntry_leaves (script : ComesClear root t₀ l e) (lasts : t₀.Lasts r.tree)
    (here : r.tree.get? l = some o)
    (copy : ∀ c ∈ commitChanges root s e r, t₀.Lasts c.1 → GoesClear root t₀ l c.1 e)
    (ledger : ∀ c ∈ commitChanges root s e r, k.place c.1 ≠ some l)
    (ledger' : k.place (commitEntry root s e r).2.tree ≠ some l) :
    t₀.Lasts (commitEntry root s e r).2.tree ∧
      (commitEntry root s e r).2.tree.get? l = some o := by
  have moved := moveFile_leaves grounded was script lasts here
  rcases commitEntry_cases root s e r with
    ⟨f, t, moving, failed, changes⟩ | ⟨t, moving, ⟨r₁, recorded, done, changes⟩ |
      ⟨f, r₁, t₁, refused, back, failed, changes⟩⟩
  · rw [changes] at copy
    rw [moving] at moved
    rw [failed]
    exact moved (copy (r.tree, t) List.mem_cons_self lasts)
  · rw [changes] at copy
    rw [moving] at moved
    rw [done] at ledger' ⊢
    obtain ⟨lasts₁, there₁⟩ := moved (copy (r.tree, t) List.mem_cons_self lasts)
    have writes := k.writes e { r with tree := t } lasts₁.grounded
    simp only [recorded] at writes
    exact ⟨lasts₁.stays writes.stays writes.grounded, (writes.elsewhere l ledger').keeps there₁⟩
  · rw [changes] at copy ledger
    rw [moving] at moved
    rw [failed]
    obtain ⟨lasts₁, there₁⟩ := moved (copy (r.tree, t) List.mem_cons_self lasts)
    have writes := k.writes e { r with tree := t } lasts₁.grounded
    simp only [refused] at writes
    have last : (r₁.tree, t₁) ∈ [(r.tree, t), (r₁.tree, t₁)] := by simp
    have lasts₂ := lasts₁.stays writes.stays writes.grounded
    have there₂ := (writes.elsewhere l (ledger _ last)).keeps there₁
    have restored := moveFile_back_leaves grounded was script lasts₂ there₂
      (copy (r₁.tree, t₁) last lasts₂)
    rw [back] at restored
    exact restored

/-- **A batch leaves the rest**, wherever it ends. -/
theorem stepEach_leaves : ∀ {es : List Entry} {r : Repository}, t₀.Lasts r.tree →
    r.tree.get? l = some o → (∀ e ∈ es, ComesClear root t₀ l e) →
    (∀ c ∈ eachChanges (commitEntry root s) (commitChanges root s) es r, t₀.Lasts c.1 →
      ∀ e ∈ es, GoesClear root t₀ l c.1 e) →
    (∀ c ∈ eachChanges (commitEntry root s) (commitChanges root s) es r, k.place c.1 ≠ some l) →
    k.place (stepEach (commitEntry root s) es r).2.tree ≠ some l →
      (stepEach (commitEntry root s) es r).2.tree.get? l = some o
  | [], r => fun _ here _ _ _ _ => here
  | e :: es, r => by
    intro lasts here scripts copies ledger ledger'
    obtain ⟨script, scripts'⟩ := List.forall_mem_cons.1 scripts
    rw [eachChanges, List.forall_mem_append] at copies ledger
    have step := commitEntry_leaves (r := r) grounded was k script lasts here
      (fun c hc lasts => copies.1 c hc lasts e List.mem_cons_self) ledger.1
    rw [stepEach] at ledger' ⊢
    cases stepped : commitEntry root s e r with
    | mk result r₁ =>
    simp only [stepped] at step copies ledger ledger' ⊢
    cases result with
    | error f => exact (step ledger').2
    | ok =>
      obtain ⟨lasts₁, there₁⟩ := step
        (eachChanges_first (fun t => k.place t ≠ some l) es r₁ ledger.2 ledger')
      exact stepEach_leaves lasts₁ there₁ scripts'
        (fun c hc lasts e he => copies.2 c hc lasts e (List.mem_cons_of_mem _ he)) ledger.2 ledger'

end

/-! ### Scripts that are planned -/

theorem Planned.slash (made : Planned q r.tree active e) :
    Tree.endsWithSlash (q.root.join e.archive).text = false := by
  obtain ⟨ns, n, k, hns, hn, original, archive⟩ := made.names
  rw [archive, original]
  exact Path.endsWithSlash_join_name (candidateName_isName hns hn q.now.date k) q.root _

/-- A script comes from the place of its path, at which no way goes on. -/
theorem Planned.comesClear (made : Planned q r.tree active e) (grounded : r.tree.Grounded)
    (other : r.tree.placeOf? false (q.root.join e.original) ≠ some l) :
    ComesClear q.root r.tree l e := by
  obtain ⟨mode, bytes, read⟩ := Tree.isFile_iff.1 made.file
  obtain ⟨m, place, -⟩ := Tree.placeOf?_of_readFile read
  refine ⟨m, place, Tree.yields_of_readFile grounded read place, ?_⟩
  rintro rfl
  exact other place

/-- **A copy goes where it could be seen to go**: to a place with nothing but a link
that leads to no folder. -/
theorem Planned.goesClear (made : Planned q r.tree active e) (grounded : r.tree.Grounded)
    {t : Tree} (lasts : r.tree.Lasts t) (was : r.tree.get? l = some o)
    (few : r.tree.look (q.root.join e.archive) ≠ .error .tooManyLinks)
    (other : r.tree.placeOf? false (q.root.join e.archive) ≠ some l)
    (new : r.tree.placeOf? false (q.root.join e.archive) = none → ∀ m,
      t.arrival? (q.root.join e.archive) = some m → r.tree.get? m = none) :
    GoesClear q.root r.tree l t e := by
  intro m arrival
  cases place : r.tree.placeOf? false (q.root.join e.archive) with
  | none =>
    have free := new place m arrival
    refine ⟨Tree.yields_of_none free, ?_⟩
    rintro rfl
    simp [free] at was
  | some m' =>
    obtain rfl := Option.some.inj ((lasts.arrives place).symm.trans arrival)
    refine ⟨fun o there => ?_, fun same => other (same ▸ place)⟩
    obtain ⟨target, rfl, dead⟩ :=
      Tree.dead_of_not_has grounded made.slash made.free few place there
    exact ⟨by simp, fun _ e => Object.link.inj e ▸ dead⟩

/-- In a tree without links a copy in a folder beside its script goes to where nothing
was. -/
theorem Planned.goesClear_beside (made : Planned q r.tree active e) (plain : r.tree.Plain)
    (hd : Path.IsName q.dirName) {t : Tree} (lasts : r.tree.Lasts t)
    (was : r.tree.get? l = some o) : GoesClear q.root r.tree l t e := by
  intro m arrival
  obtain ⟨ns, n, k, hns, hn, original, chosen⟩ := made.names
  have free := made.free
  have isName := Path.isName_pair hns hd (candidateName_isName hns hn q.now.date k)
  obtain ⟨base, rooted⟩ := Tree.reach_root plain
    (original ▸ Path.ofNames_isNormal (Path.isName_concat hns hn)) made.file
  rw [original, candidate_ofNames hns hn hd] at chosen
  rw [chosen] at free arrival
  -- folders stay, so the path of the copy goes the same way at any time
  obtain ⟨plain', grows⟩ := Tree.makeParent_grows (lasts.plain plain) _
  have rooted' := Tree.reach_kept (fun l => (grows l).keeps) _ _
    (Tree.reach_kept (fun _ => lasts.folder) _ _ rooted)
  obtain ⟨s, spot, rfl⟩ := Tree.placeOf?_eq_some.1 arrival
  obtain ⟨fits, place⟩ := Tree.place_below plain' rooted' isName spot
  have vacant : r.tree.get? s.place.1 = none := by
    by_contra there
    obtain ⟨o', there⟩ := Option.ne_none_iff_exists'.1 there
    rw [place] at there
    rw [Tree.has, (Tree.look_below plain rooted isName (by simp)).2 ⟨fits, there⟩] at free
    exact Bool.noConfusion free
  refine ⟨Tree.yields_of_none vacant, ?_⟩
  rintro rfl
  simp [vacant] at was

/-- A request ends before anything moves, or all of its scripts are planned. -/
theorem planned_cases (q : Request) (s : Store) (paths : List Path) (dryRun : Bool) :
    (archive q s paths dryRun r).2 = r ∨
      (archive q s paths dryRun r).2 =
          (stepEach (commitEntry q.root s) (planned q s paths r) r).2 ∧
        changes q s paths dryRun r =
          eachChanges (commitEntry q.root s) (commitChanges q.root s) (planned q s paths r) r ∧
        ∃ active, ∀ e ∈ planned q s paths r, Planned q r.tree active e := by
  rcases archive_cases q s paths dryRun r with
    ⟨same, -, -⟩ | ⟨active, es, asked, scripts, after, -, moves⟩
  · exact .inl same
  have same : planned q s paths r = es := by simp only [planned, asked, scripts]
  obtain ⟨more, rfl, -, made, -⟩ := planScripts_planned scripts
  rw [same]
  exact .inr ⟨after, moves, active, made⟩

/-! ### Requests -/

/-- **Archiving leaves what is in a tree, but for links that lead nowhere at the places
of copies**, where each copy goes to where its path led, or to where nothing was if it
led nowhere. -/
theorem archive_leaves (grounded : r.tree.Grounded) (k : Confined s) (q : Request)
    (paths : List Path) (dryRun : Bool)
    (few : ∀ e ∈ planned q s paths r,
      r.tree.look (q.root.join e.archive) ≠ .error .tooManyLinks)
    (new : ∀ c ∈ changes q s paths dryRun r, ∀ e ∈ planned q s paths r,
      r.tree.placeOf? false (q.root.join e.archive) = none → ∀ m,
        c.1.arrival? (q.root.join e.archive) = some m → r.tree.get? m = none)
    (was : r.tree.get? l = some o)
    (other : ∀ e ∈ planned q s paths r,
      r.tree.placeOf? false (q.root.join e.original) ≠ some l)
    (ledger : ∀ c ∈ changes q s paths dryRun r, k.place c.1 ≠ some l)
    (ledger' : k.place (archive q s paths dryRun r).2.tree ≠ some l) :
    (archive q s paths dryRun r).2.tree.get? l = some o ∨
      (∃ target, o = .link target) ∧ ∃ e ∈ planned q s paths r,
        r.tree.placeOf? false (q.root.join e.archive) = some l ∧
          r.tree.has (q.root.join e.archive) = false := by
  rcases planned_cases q s paths dryRun with same | ⟨after, moves, active, made⟩
  · rw [same]
    exact .inl was
  rw [moves] at new ledger
  rw [after] at ledger' ⊢
  by_cases at' : ∃ e ∈ planned q s paths r,
      r.tree.placeOf? false (q.root.join e.archive) = some l
  · obtain ⟨e, he, place⟩ := at'
    obtain ⟨target, rfl, -⟩ := Tree.dead_of_not_has grounded (made e he).slash (made e he).free
      (few e he) place was
    exact .inr ⟨⟨target, rfl⟩, e, he, place, (made e he).free⟩
  · refine .inl (stepEach_leaves grounded was k (.refl grounded) was
      (fun e he => (made e he).comesClear grounded (other e he)) (fun c hc lasts e he => ?_)
      ledger ledger')
    exact (made e he).goesClear grounded lasts was (few e he) (fun place => at' ⟨e, he, place⟩)
      (new c hc e he)

/-- A repository with a link that leads nowhere at the place of a copy. -/
def danglingRepository : Repository where
  tree := ⟨[(["r"], .folder), (["r", "a.sh"], .file 0o644 "1".toByteArray),
    (["r", "b"], .folder), (["r", "b", "c.sh"], .file 0o755 "2".toByteArray),
    (["r", "old"], .folder), (["r", "old", "a.2025-06-01.sh"], .link "gone"),
    (["r", "old", "note"], .file 0o600 "3".toByteArray)]⟩
  entries := []

def danglingRequest : Request := ⟨⟨"/r"⟩, "old", "", "b1", ⟨⟨2025, 6, 1⟩, 43200, 0⟩⟩

/-- Its scripts, one with an archive folder beside it and one without. -/
def danglingEntries : List Entry :=
  [.fresh ⟨"a.sh"⟩ ⟨"old/a.2025-06-01.sh"⟩ "b1" ⟨⟨2025, 6, 1⟩, 43200, 0⟩ "",
    .fresh ⟨"b/c.sh"⟩ ⟨"b/old/c.2025-06-01.sh"⟩ "b1" ⟨⟨2025, 6, 1⟩, 43200, 0⟩ ""]

/-- The copy of the first script takes the place of the link; the note beside it
stays. -/
theorem archive_leaves_dangling :
    danglingRepository.tree.get? ["r", "old", "a.2025-06-01.sh"] = some (.link "gone") ∧
    (archive danglingRequest .memory [⟨"a.sh"⟩, ⟨"b/c.sh"⟩] false danglingRepository).2.tree.get?
        ["r", "old", "a.2025-06-01.sh"] = some (.file 0o644 "1".toByteArray) ∧
    (∃ e ∈ planned danglingRequest .memory [⟨"a.sh"⟩, ⟨"b/c.sh"⟩] danglingRepository,
      danglingRepository.tree.placeOf? false (danglingRequest.root.join e.archive) =
          some ["r", "old", "a.2025-06-01.sh"] ∧
        danglingRepository.tree.has (danglingRequest.root.join e.archive) = false) ∧
    (archive danglingRequest .memory [⟨"a.sh"⟩, ⟨"b/c.sh"⟩] false danglingRepository).2.tree.get?
        ["r", "old", "note"] = some (.file 0o600 "3".toByteArray) := by
  have made : planned danglingRequest .memory [⟨"a.sh"⟩, ⟨"b/c.sh"⟩] danglingRepository =
      danglingEntries := by decide +kernel
  have grounded : danglingRepository.tree.Grounded :=
    Tree.WellFormed.grounded ⟨by decide, by decide, by decide⟩
  have few : ∀ e ∈ danglingEntries, danglingRepository.tree.look
      (danglingRequest.root.join e.archive) ≠ .error .tooManyLinks := by decide +kernel
  -- the folder of the second copy comes with its move at the latest
  have opens : ∀ c ∈ changes danglingRequest .memory [⟨"a.sh"⟩, ⟨"b/c.sh"⟩] false
      danglingRepository, c.1.arrival? ⟨"/r/b/old/c.2025-06-01.sh"⟩ =
        some ["r", "b", "old", "c.2025-06-01.sh"] := by decide +kernel
  have new : ∀ c ∈ changes danglingRequest .memory [⟨"a.sh"⟩, ⟨"b/c.sh"⟩] false
      danglingRepository, ∀ e ∈ danglingEntries,
        danglingRepository.tree.placeOf? false (danglingRequest.root.join e.archive) = none →
        ∀ m, c.1.arrival? (danglingRequest.root.join e.archive) = some m →
          danglingRepository.tree.get? m = none := by
    simp only [danglingEntries, List.forall_mem_cons]
    refine fun c hc => ⟨fun led => ?_, fun _ m arrival => ?_, by simp⟩
    · exact absurd led (by decide +kernel)
    · obtain rfl := Option.some.inj ((opens c hc).symm.trans arrival)
      rfl
  have leaves {l : Location} {o : Object} (was : danglingRepository.tree.get? l = some o)
      (other : ∀ e ∈ danglingEntries, danglingRepository.tree.placeOf? false
        (danglingRequest.root.join e.original) ≠ some l) :=
    archive_leaves grounded Ledger.Confined.memory danglingRequest [⟨"a.sh"⟩, ⟨"b/c.sh"⟩] false
      (made ▸ few) (made ▸ new) was (made ▸ other) (fun _ _ => by simp [Ledger.Confined.memory])
      (by simp [Ledger.Confined.memory])
  have replaced : (archive danglingRequest .memory [⟨"a.sh"⟩, ⟨"b/c.sh"⟩] false
      danglingRepository).2.tree.get? ["r", "old", "a.2025-06-01.sh"] =
        some (.file 0o644 "1".toByteArray) := by decide +kernel
  refine ⟨rfl, replaced, ?_, ?_⟩
  · rcases leaves (l := ["r", "old", "a.2025-06-01.sh"]) rfl (by decide +kernel) with
      still | ⟨-, lost⟩
    · rw [replaced] at still
      simp at still
    · exact lost
  · rcases leaves (l := ["r", "old", "note"]) rfl (by decide +kernel) with still | ⟨⟨_, link⟩, -⟩
    · exact still
    · simp at link

/-- **In a tree without links archiving overwrites nothing**, if the archive folder is
one beside each script. -/
theorem archive_leaves_plain (plain : r.tree.Plain) (hd : Path.IsName q.dirName) (k : Confined s)
    (paths : List Path) (dryRun : Bool) (was : r.tree.get? l = some o)
    (other : ∀ e ∈ planned q s paths r,
      r.tree.placeOf? false (q.root.join e.original) ≠ some l)
    (ledger : ∀ c ∈ changes q s paths dryRun r, k.place c.1 ≠ some l)
    (ledger' : k.place (archive q s paths dryRun r).2.tree ≠ some l) :
    (archive q s paths dryRun r).2.tree.get? l = some o := by
  have grounded := plain.in_folder
  rcases planned_cases q s paths dryRun with same | ⟨after, moves, active, made⟩
  · rw [same]
    exact was
  rw [moves] at ledger
  rw [after] at ledger' ⊢
  exact stepEach_leaves grounded was k (.refl grounded) was
    (fun e he => (made e he).comesClear grounded (other e he))
    (fun c _ lasts e he => (made e he).goesClear_beside plain hd lasts was) ledger ledger'

end Archive
end Attic
