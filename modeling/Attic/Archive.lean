import Attic.Ledger.Store
import Attic.Path.Normal
import Attic.Request

/-!
# Archiving scripts

An archived script moves into a folder beside it and gets the date into its
name: `media/clip.ts` becomes `media/.archived_scripts/clip.2025-06-01.ts`, or
`clip.2025-06-01-2.ts` when that name is taken. The scripts of one request form
a batch. All of them are looked at before any moves. When the ledger refuses
an entry, its script moves back and the batch ends there.

Key definitions: `Archive.Outcome`, `Archive.candidate`, `Archive.freePath`,
`Archive.planScripts`, `Archive.commit`, `Archive.archive`,
`Archive.standardBatch`.
Key theorems: `Archive.planScript_ok`, `Archive.planScripts_each`, `Archive.archive_done`.
-/

namespace Attic
namespace Archive

/-- What an archiving request comes to: the entries recorded, or those that
would be. -/
structure Outcome where
  batch : String
  dryRun : Bool
  entries : List Ledger.Entry
  deriving DecidableEq

def Outcome.json (o : Outcome) : Json.Value :=
  .object [
    ("batch_id", .text o.batch),
    ("dry_run", .bool o.dryRun),
    ("entries", .list (o.entries.map Ledger.Entry.json))]

/-- The batch of a request that names none. -/
def standardBatch (now : Timestamp) : String := "archive-" ++ String.ofList now.writeCompact

/-- The `n`-th name, from 1, for a script archived on a day. -/
def candidateName (script : Path) (day : Date) (n : Nat) : String :=
  let number := if n = 1 then "" else "-" ++ toString n
  let dated := script.stem?.getD "script" ++ "." ++ String.ofList day.write ++ number
  match script.extension? with
  | some ext => dated ++ "." ++ ext
  | none => dated

/-- The `n`-th place for a script archived on a day. -/
def candidate (dirName : String) (script : Path) (day : Date) (n : Nat) : Path :=
  (script.parent.join ⟨dirName⟩).join ⟨candidateName script day n⟩

/-- Whether a place is neither promised to another script nor in use. -/
def isFree (t : Tree) (root : Path) (taken : List Path) (p : Path) : Bool :=
  !taken.any (fun q => q.same p) && !t.has (root.join p)

/-- The first free place for a script. Each place in use is an object of the
tree or promised, so one of the numbers tried is free. -/
def freePath (t : Tree) (root : Path) (dirName : String) (script : Path) (day : Date)
    (taken : List Path) : Path :=
  let bound := t.objects.length + taken.length + 2
  let numbers := (List.range bound).map (· + 1)
  match numbers.find? fun n => isFree t root taken (candidate dirName script day n) with
  | some n => candidate dirName script day n
  | none => candidate dirName script day (bound + 1)

/-- What stays the same for all scripts of a request. -/
structure Request where
  root : Path
  /-- The folder beside a script that it moves to. -/
  dirName : String
  reason : String
  batch : String
  now : Timestamp

/-- The entry for one more script of a request, after those planned so far. -/
def planScript (q : Request) (t : Tree) (active planned : List Ledger.Entry) (p : Path) :
    Except RequestFault Ledger.Entry :=
  match p.normalize? with
  | none => .error (.notAFile p)
  | some script =>
    if script.isEmpty then .error (.notAFile p)
    else if !t.isFile (q.root.join script) then .error (.notAFile script)
    else if (active ++ planned).any fun e => e.original.same script then
      .error (.ledger (.alreadyActive script))
    else
      let place :=
        freePath t q.root q.dirName script q.now.date (planned.map Ledger.Entry.archive)
      .ok (.fresh script place q.batch q.now q.reason)

/-- The entries for the scripts of a request. Nothing moves yet. -/
def planScripts (q : Request) (t : Tree) (active : List Ledger.Entry) :
    List Ledger.Entry → List Path → Except RequestFault (List Ledger.Entry)
  | planned, [] => .ok planned
  | planned, p :: ps =>
    match planScript q t active planned p with
    | .error f => .error f
    | .ok e => planScripts q t active (planned ++ [e]) ps

/-- What a script has been that is planned, and the entry that is made for it. -/
theorem planScript_ok {q : Request} {t : Tree} {active planned : List Ledger.Entry} {p : Path}
    {e : Ledger.Entry} (h : planScript q t active planned p = .ok e) :
    ∃ script, p.normalize? = some script ∧ script.isEmpty = false ∧
      t.isFile (q.root.join script) = true ∧
      (∀ a ∈ active ++ planned, a.original.same script = false) ∧
      e = .fresh script (freePath t q.root q.dirName script q.now.date
        (planned.map Ledger.Entry.archive)) q.batch q.now q.reason := by
  unfold planScript at h
  split at h
  · simp at h
  next script normal =>
  split at h
  · simp at h
  next written =>
  split at h
  · simp at h
  next file =>
  split at h
  · simp at h
  next new =>
  refine ⟨script, normal, Bool.eq_false_iff.2 written, by simpa using file, ?_,
    (Except.ok.inj h).symm⟩
  simpa only [Bool.not_eq_true, List.any_eq_false] using new

/-- The entries that are planned are those before them and one for each script. -/
theorem planScripts_each {q : Request} {t : Tree} {active : List Ledger.Entry} :
    ∀ {paths : List Path} {planned es : List Ledger.Entry},
      planScripts q t active planned paths = .ok es → planned ⊆ es ∧
        (∀ e ∈ es, e ∈ planned ∨
          ∃ p ∈ paths, ∃ before, planScript q t active before p = .ok e) ∧
        ∀ p ∈ paths, ∃ e ∈ es, ∃ before, planScript q t active before p = .ok e
  | [], planned, es, h => by
    obtain rfl := Except.ok.inj h
    exact ⟨List.Subset.refl _, fun e he => .inl he, by simp⟩
  | p :: paths, planned, es, h => by
    unfold planScripts at h
    split at h
    · simp at h
    next e made =>
    obtain ⟨kept, each, all⟩ := planScripts_each h
    obtain ⟨kept', first⟩ := List.append_subset.1 kept
    refine ⟨kept', fun d hd => ?_, fun p' hp => ?_⟩
    · rcases each d hd with before | ⟨p', hp, made'⟩
      · rcases List.mem_append.1 before with before | here
        · exact .inl before
        · obtain rfl := List.mem_singleton.1 here
          exact .inr ⟨p, List.mem_cons_self, planned, made⟩
      · exact .inr ⟨p', List.mem_cons_of_mem p hp, made'⟩
    · rcases List.mem_cons.1 hp with rfl | hp
      · exact ⟨e, first List.mem_cons_self, planned, made⟩
      · exact all p' hp

/-- Moves one script and records it. -/
def commitEntry (root : Path) (s : Ledger.Store) (e : Ledger.Entry) (r : Repository) :
    Except RequestFault Unit × Repository :=
  let source := root.join e.original
  let target := root.join e.archive
  match r.tree.moveFile source target with
  | (.error f, t) => (.error (.tree e.original f), { r with tree := t })
  | (.ok (), t) =>
    match s.record e { r with tree := t } with
    | (.ok (), r) => (.ok (), r)
    | (.error f, r) => (.error (.ledger f), { r with tree := (r.tree.moveFile target source).2 })

/-- Takes a step for each entry, up to the first that fails. -/
def stepEach (step : Ledger.Entry → Repository → Except RequestFault Unit × Repository) :
    List Ledger.Entry → Repository → Except RequestFault Unit × Repository
  | [], r => (.ok (), r)
  | e :: es, r =>
    match step e r with
    | (.error f, r) => (.error f, r)
    | (.ok (), r) => stepEach step es r

/-- Moves and records the planned scripts one after the other. -/
def commit (root : Path) (s : Ledger.Store) :
    List Ledger.Entry → Repository → Except RequestFault Unit × Repository :=
  stepEach (commitEntry root s)

/-- Archives scripts as one batch. -/
def archive (q : Request) (s : Ledger.Store) (paths : List Path) (dryRun : Bool)
    (r : Repository) : Except RequestFault Outcome × Repository :=
  match s.active r with
  | .error f => (.error (.ledger f), r)
  | .ok active =>
    match planScripts q r.tree active [] paths with
    | .error f => (.error f, r)
    | .ok planned =>
      if dryRun then (.ok ⟨q.batch, true, planned⟩, r)
      else
        match commit q.root s planned r with
        | (.error f, r) => (.error f, r)
        | (.ok (), r) => (.ok ⟨q.batch, false, planned⟩, r)

/-- A request that succeeds has planned its entries and, unless it was a dry run, has
moved and recorded them. -/
theorem archive_done {q : Request} {s : Ledger.Store} {paths : List Path} {dryRun : Bool}
    {r r' : Repository} {out : Outcome} (h : archive q s paths dryRun r = (.ok out, r')) :
    ∃ active, s.active r = .ok active ∧
      planScripts q r.tree active [] paths = .ok out.entries ∧
      if dryRun then r' = r else commit q.root s out.entries r = (.ok (), r') := by
  unfold archive at h
  split at h
  · simp at h
  next active read =>
  split at h
  · simp at h
  next planned made =>
  cases dryRun with
  | true =>
    rw [if_pos rfl] at h
    obtain ⟨out', same⟩ := Prod.mk.inj h
    obtain rfl := Except.ok.inj out'
    exact ⟨active, read, made, same.symm⟩
  | false =>
    rw [if_neg Bool.false_ne_true] at h
    split at h
    · simp at h
    next done =>
    obtain ⟨out', rfl⟩ := Prod.mk.inj h
    obtain rfl := Except.ok.inj out'
    exact ⟨active, read, made, done⟩

end Archive
end Attic
