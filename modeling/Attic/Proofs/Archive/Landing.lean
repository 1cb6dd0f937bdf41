import Attic.Proofs.Archive.RoundTrip
import Attic.Proofs.Ledger.Scribe
import Mathlib

/-!
# Where archived scripts land

The copies of a batch get their paths before anything moves, and two paths may
lead to one place: by `..` or a link in the name of the folder. A script that is
moved takes the place of a file that is there, also of a copy of its own batch.
In any tree, with links or without, this is the only way in which a batch can
lose a script: what was not moved upon is found at the path of its entry.

Key definitions: `Archive.Hauls`, `Archive.Hauled`, `Archive.Kept`.
Key theorems: `Tree.Grounded.rename_takes`, `Archive.Hauled.arrives`,
`Archive.commit_hauled`, `Archive.archive_kept_iff`.
-/

namespace Attic

/-- What has another name now is at its new place and nowhere else. -/
theorem Tree.Grounded.rename_takes {t t' : Tree} {p q : Path} {l : Location} {o : Object}
    (grounded : t.Grounded) (ho : o ≠ .folder)
    (there : t.spot false false p = .ok (.found l o)) (done : t.rename p q = (.ok (), t')) :
    ∃ s, t.spot false false q = .ok s ∧ t.get? s.place.1 ≠ some .folder ∧ t'.Grounded ∧
      ∀ k, t'.get? k = if k = s.place.1 then some o else if k = l then none else t.get? k := by
  have stands : t.get? l = some o := grounded.spot_holds there
  have noFolder : t.get? l ≠ some .folder := by simpa [stands] using ho
  by_cases idle : ∃ s, t.spot false false q = .ok s ∧ s.place.1 = l
  · obtain ⟨s, hs, rfl⟩ := idle
    have same : t' = t := by
      unfold rename at done
      simp only [there, hs, if_true, Prod.mk.injEq, true_and] at done
      exact done.symm
    refine ⟨s, hs, noFolder, same ▸ grounded, fun k => ?_⟩
    by_cases hk : k = s.place.1
    · rw [if_pos hk, hk, same, stands]
    · rw [if_neg hk, if_neg hk, same]
  · have differ : ∀ s, t.spot false false q = .ok s → s.place.1 ≠ l :=
      fun s hs e => idle ⟨s, hs, e⟩
    obtain ⟨s, hs, free, folder, rfl⟩ := grounded.rename_object ho there differ done
    have hm := ne_nil_of_get? free
    have apart := differ s hs
    have after := grounded.get?_relocate stands ho hm apart.symm
    have keeps {k : Location} (hk : t.get? k = some .folder) :
        (t.erase l).get? k = some .folder := by
      rw [get?_erase_other, hk]
      rintro rfl
      exact noFolder hk
    refine ⟨s, hs, free, ?_, fun k => ?_⟩
    · refine ((grounded.erase noFolder).set hm (keeps folder) ?_).congr after
      rwa [get?_erase_other apart]
    · rw [after]
      by_cases hk : k = s.place.1
      · rw [if_pos hk, hk, get?_set_same hm]
      rw [if_neg hk, get?_set_other hk]
      by_cases hkl : k = l
      · rw [if_pos hkl, hkl, get?_erase_same (ne_nil_of_get? noFolder)]
      · rw [if_neg hkl, get?_erase_other hkl]

namespace Archive

open Ledger (Entry Scribe Store)

variable {root : Path} {own : Option Location} {l m k : Location} {t t' z : Tree} {e : Entry}
variable {es : List Entry} {src dst : Entry → Location} {r r' : Repository} {s : Store}
variable {mode : Nat} {bytes : ByteArray}

/-! ### Files that are taken away -/

/-- What happens to files when one is moved from `l` to `m` and the ledger, whose
place is `own`, is written. -/
structure Hauls (own : Option Location) (t t' : Tree) (l m : Location) : Prop where
  file : own ≠ some m →
    ∃ mode bytes, t.get? l = some (.file mode bytes) ∧ t'.get? m = some (.file mode bytes)
  gone : own ≠ some l → l ≠ m → ∀ mode bytes, t'.get? l ≠ some (.file mode bytes)
  before : ∀ {k mode bytes}, own ≠ some k → k ≠ m → t'.get? k = some (.file mode bytes) →
    t.get? k = some (.file mode bytes)

/-- What happens when the scripts of entries are moved one after the other. -/
inductive Hauled (own : Option Location) (src dst : Entry → Location) :
    List Entry → Tree → Tree → Prop
  | nil (t : Tree) : Hauled own src dst [] t t
  | cons {e : Entry} {es : List Entry} {t t' u : Tree} (first : Hauls own t t' (src e) (dst e))
      (rest : Hauled own src dst es t' u) : Hauled own src dst (e :: es) t u

namespace Hauled

/-- A file that nothing was moved upon was there before. -/
theorem before (h : Hauled own src dst es t z) (away : own ≠ some k) (free : ∀ e ∈ es, dst e ≠ k)
    (there : z.get? k = some (.file mode bytes)) : t.get? k = some (.file mode bytes) := by
  induction h with
  | nil => exact there
  | cons first _ ih =>
    have free' := List.forall_mem_cons.1 free
    exact first.before away free'.1.symm (ih free'.2 there)

/-- No file is where a script was, unless one was moved there. -/
theorem gone (h : Hauled own src dst es t z) (away : ∀ e ∈ es, own ≠ some (src e))
    (he : e ∈ es) (free : ∀ f ∈ es, dst f ≠ src e) (mode : Nat) (bytes : ByteArray) :
    z.get? (src e) ≠ some (.file mode bytes) := by
  induction h with
  | nil => simp at he
  | cons first rest ih =>
    have away' := List.forall_mem_cons.1 away
    have free' := List.forall_mem_cons.1 free
    rcases List.mem_cons.1 he with rfl | he
    · intro there
      exact first.gone away'.1 free'.1.symm _ _ (rest.before away'.1 free'.2 there)
    · exact ih away'.2 he free'.2

/-- **Scripts that are moved to places of their own arrive.** -/
theorem arrives (h : Hauled own src dst es t z)
    (away : ∀ e ∈ es, own ≠ some (src e) ∧ own ≠ some (dst e))
    (apart : es.Pairwise fun e f => dst e ≠ dst f)
    (files : ∀ e ∈ es, ∃ mode bytes, z.get? (dst e) = some (.file mode bytes)) :
    ∀ e ∈ es, ∃ mode bytes, t.get? (src e) = some (.file mode bytes) ∧
      z.get? (dst e) = some (.file mode bytes) := by
  induction h with
  | nil => simp
  | @cons e es t t' u first rest ih =>
    obtain ⟨⟨awayS, awayD⟩, away'⟩ := List.forall_mem_cons.1 away
    obtain ⟨apartE, apart'⟩ := List.pairwise_cons.1 apart
    obtain ⟨⟨mode, bytes, copy⟩, files'⟩ := List.forall_mem_cons.1 files
    have landed := rest.before awayD (fun f hf => (apartE f hf).symm) copy
    refine List.forall_mem_cons.2 ⟨?_, fun f hf => ?_⟩
    · obtain ⟨mode', bytes', script, moved⟩ := first.file awayD
      rw [moved] at landed
      exact ⟨mode', bytes', script, copy.trans landed.symm⟩
    · obtain ⟨mode', bytes', script, copy'⟩ := ih away' apart' files' f hf
      refine ⟨mode', bytes', first.before (away' f hf).1 ?_ script, copy'⟩
      -- a copy that took the place of a script would have gone with it
      intro upon
      refine rest.gone (fun g hg => (away' g hg).1) hf (fun g hg same => ?_) _ _
        (upon ▸ copy)
      exact apartE g hg (upon ▸ same.symm)

end Hauled

/-! ### One script -/

theorem exists_found {t t' : Tree} {p q : Path} (done : t.rename p q = (.ok (), t')) :
    ∃ l o, t.spot false false p = .ok (.found l o) := by
  unfold Tree.rename at done
  cases hs : t.spot false false p with
  | error f => simp [hs] at done
  | ok s =>
    cases s with
    | found l o => exact ⟨l, o, rfl⟩
    | vacant here name =>
      simp only [hs] at done
      split at done <;> simp_all

section

variable {sources targets : List Location} (stays : t.Stays sources targets r.tree)
variable (grounded : r.tree.Grounded)
variable (moved : ∀ l ∈ sources, ∀ target, t.get? l ≠ some (.link target)) (fresh : l ∉ sources)
variable (there : t.get? l = some (.file mode bytes))
variable (script : t.placeOf? false (root.join e.original) = some l)

include stays grounded moved fresh there script

/-- A script is moved from where its path has led since `t`. -/
theorem moveFile_takes {t₂ : Tree}
    (done : r.tree.moveFile (root.join e.original) (root.join e.archive) = (.ok (), t₂)) :
    ∃ m t₁ mode bytes, r.tree.Grows t₁ ∧ t₁.placeOf? false (root.join e.archive) = some m ∧
      t₁.get? l = some (.file mode bytes) ∧ t₁.get? m ≠ some .folder ∧ t₂.Grounded ∧
      ∀ k, t₂.get? k =
        if k = m then some (.file mode bytes) else if k = l then none else t₁.get? k := by
  obtain ⟨grounded₁, grows⟩ := grounded.makeParent_grows (root.join e.archive)
  unfold Tree.moveFile at done
  split at done
  · simp at done
  next t₁ made =>
  rw [made] at grounded₁ grows
  have stays₁ : t.Stays (sources ++ []) (targets ++ []) t₁ := stays.trans (.of_grows grows)
  rw [List.append_nil, List.append_nil] at stays₁
  obtain ⟨l', o, spot⟩ := exists_found done
  have place : t₁.placeOf? false (root.join e.original) = some l' :=
    Tree.placeOf?_eq_some.2 ⟨_, spot, rfl⟩
  obtain rfl : l' = l := by simpa using stays₁.placeOf? moved script place
  have stands : t₁.get? l' = some o := grounded₁.spot_holds spot
  obtain ⟨mode', bytes', rfl⟩ : ∃ mode bytes, o = .file mode bytes := by
    obtain ⟨o', there', noFolder⟩ := stays₁.solid fresh there (by simp)
    obtain rfl := Option.some.inj (there'.symm.trans stands)
    cases o' with
    | file mode bytes => exact ⟨mode, bytes, rfl⟩
    | folder => exact absurd rfl noFolder
    | link target => simp [stays₁.linked stands] at there
  obtain ⟨s, hs, free, grounded₂, after⟩ := grounded₁.rename_takes (by simp) spot done
  exact ⟨s.place.1, t₁, mode', bytes', grows, Tree.placeOf?_eq_some.2 ⟨s, hs, rfl⟩, stands, free,
    grounded₂, after⟩

/-- **A script that is committed is moved**, and its entry is recorded. -/
theorem commitEntry_hauls (k : Scribe s) (done : commitEntry root s e r = (.ok (), r')) :
    ∃ m t₁ r₁, r.tree.Grows t₁ ∧ t₁.placeOf? false (root.join e.archive) = some m ∧
      t₁.Stays [l] [m] r'.tree ∧ r₁.tree.Grounded ∧ s.record e r₁ = (.ok (), r') ∧
      Hauls (k.place r'.tree) r.tree r'.tree l m := by
  unfold commitEntry at done
  dsimp only at done
  split at done
  · simp at done
  next t₂ taken =>
  split at done
  · next r₃ recorded =>
    obtain rfl := (Prod.mk.inj done).2
    obtain ⟨m, t₁, mode', bytes', grows, place, stands, free, grounded₂, after⟩ :=
      moveFile_takes stays grounded moved fresh there script taken
    obtain ⟨-, stays₃, writes⟩ := k.writes grounded₂ recorded
    have moves : t₁.Stays ([l] ++ []) ([m] ++ []) r₃.tree :=
      (Tree.Stays.move stands free after).trans stays₃
    refine ⟨m, t₁, { r with tree := t₂ }, grows, place, moves, grounded₂, recorded,
      fun away => ?_, fun away apart mode bytes file => ?_,
      fun {k mode bytes} away other file => ?_⟩
    · refine ⟨mode', bytes', (grows l).file stands, (writes _ away).keeps ?_⟩
      simp [after]
    · have file₂ := (writes _ away).file file
      simp [after, apart] at file₂
    · have file₂ := (writes _ away).file file
      rw [after, if_neg other] at file₂
      split at file₂
      · simp at file₂
      · exact (grows k).file file₂
  · simp at done

end

/-! ### A batch -/

theorem noLink_of_scripts (scripts : ∀ e ∈ es, t.placeOf? false (root.join e.original) =
    some (src e) ∧ ∃ mode bytes, t.get? (src e) = some (.file mode bytes)) :
    ∀ l ∈ es.map src, ∀ target, t.get? l ≠ some (.link target) := by
  intro l hl target
  obtain ⟨e, he, rfl⟩ := List.mem_map.1 hl
  obtain ⟨-, mode, bytes, file⟩ := scripts e he
  simp [file]

/-- The ledger stands in the end where it stood after one of the records, if no copy
comes to its place. -/
theorem place_steady {r₁ r₂ : Repository} {sources targets : List Location} (k : Scribe s)
    (grounded : r₂.tree.Grounded) (recorded : s.record e r₂ = (.ok (), r₁))
    (stays : r₁.tree.Stays sources targets r'.tree)
    (moved : ∀ l ∈ sources, ∀ target, r₁.tree.get? l ≠ some (.link target))
    (ledger : ∀ l ∈ targets, k.place r'.tree ≠ some l)
    (last : r₁ = r' ∨ ∃ f r₃, r₃.tree.Grounded ∧ s.record f r₃ = (.ok (), r')) :
    k.place r'.tree = k.place r₁.tree := by
  rcases last with rfl | ⟨f, r₃, grounded', recorded'⟩
  · rfl
  rcases k.stays grounded recorded grounded' recorded' stays moved with same | ⟨l, hl, upon⟩
  · exact same
  · exact absurd upon (ledger l hl)

section

variable {all : List Entry} (k : Scribe s)
variable (scripts : ∀ e ∈ all, t.placeOf? false (root.join e.original) = some (src e) ∧
  ∃ mode bytes, t.get? (src e) = some (.file mode bytes))
variable (apart : all.Pairwise fun e f => src e ≠ src f)
variable (copies : ∀ e ∈ all, r'.tree.placeOf? false (root.join e.archive) = some (dst e))
variable (ledger : ∀ e ∈ all, k.place r'.tree ≠ some (dst e))

include scripts apart copies ledger

/-- **The scripts of a batch that is committed are moved one after the other**,
from where their paths lead in the beginning to where those of the copies lead in
the end. -/
theorem commit_hauled : ∀ {es before : List Entry} {r : Repository} {targets : List Location},
    all = before ++ es → r.tree.Grounded → t.Stays (before.map src) targets r.tree →
    commit root s es r = (.ok (), r') →
    Hauled (k.place r'.tree) src dst es r.tree r'.tree ∧
      r.tree.Stays (es.map src) (es.map dst) r'.tree ∧ r'.tree.Grounded ∧
      (∀ e ∈ es, ∀ target, r'.tree.get? (dst e) ≠ some (.link target)) ∧
      (es = [] ∧ r = r' ∨ ∃ e r₁, r₁.tree.Grounded ∧ s.record e r₁ = (.ok (), r'))
  | [], before, r, targets, split, grounded, stays, done => by
    obtain rfl : r = r' := (Prod.mk.inj done).2
    exact ⟨.nil _, .refl _, grounded, by simp, by simp⟩
  | e :: es, before, r, targets, split, grounded, stays, done => by
    have inside : e ∈ all := by simp [split]
    have noLink {fs : List Entry} (sub : fs ⊆ all) := noLink_of_scripts fun f hf =>
      scripts f (sub hf)
    obtain ⟨script, mode, bytes, there⟩ := scripts e inside
    have fresh : src e ∉ before.map src := by
      rw [split, List.pairwise_append] at apart
      intro hl
      obtain ⟨f, hf, same⟩ := List.mem_map.1 hl
      exact apart.2.2 f hf e List.mem_cons_self same
    obtain ⟨r₁, first, rest⟩ := stepEach_cons done
    obtain ⟨m, t₁, r₂, grows, place, stays₁, grounded₂, recorded, hauls⟩ := commitEntry_hauls stays
      grounded (noLink (by simp [split])) fresh there script k first
    have step : r.tree.Stays ([] ++ [src e]) ([] ++ [m]) r₁.tree :=
      (Tree.Stays.of_grows grows).trans stays₁
    have stays' : t.Stays ((before ++ [e]).map src) (targets ++ [m]) r₁.tree := by
      rw [List.map_append]
      exact stays.trans step
    obtain ⟨hauled, kept, grounded', plain, last⟩ := commit_hauled (by simp [split])
      (k.writes grounded₂ recorded).1 stays' rest
    -- what the copy's path led to when the script was moved it leads to in the end
    have linked {l : Location} {target : String} (link : t₁.get? l = some (.link target)) :
        t.get? l = some (.link target) :=
      (stays.trans (.of_grows grows)).linked link
    obtain rfl : dst e = m := by
      have sub : e :: es ⊆ all := by simp [split]
      simpa using (stays₁.trans kept).placeOf?
        (fun l hl target link => noLink sub l hl target (linked link)) place (copies e inside)
    -- and so it is with the ledger
    have own : k.place r'.tree = k.place r₁.tree := by
      have sub : es ⊆ all := by simp [split]
      refine place_steady k grounded₂ recorded kept
        (fun l hl target link => noLink sub l hl target (stays'.linked link)) ?_
        (last.imp_left And.right)
      intro l hl
      obtain ⟨f, hf, rfl⟩ := List.mem_map.1 hl
      exact ledger f (sub hf)
    rw [← own] at hauls
    refine ⟨.cons hauls hauled, step.trans kept, grounded', List.forall_mem_cons.2 ⟨?_, plain⟩, ?_⟩
    · intro target link
      obtain ⟨mode, bytes, -, copy⟩ := hauls.file (ledger e inside)
      simp [kept.linked link] at copy
    · right
      rcases last with ⟨-, rfl⟩ | last
      · exact ⟨e, r₂, grounded₂, recorded⟩
      · exact last

end

/-! ### What is kept of a batch -/

/-- Whether scripts are kept: the path of each copy leads to a file with the bytes
and the mode of its script, and no two copies are one file. -/
structure Kept (root : Path) (es : List Entry) (t t' : Tree) : Prop where
  same : ∀ e ∈ es, t'.readFile (root.join e.archive) = t.readFile (root.join e.original)
  apart : es.Pairwise fun e f =>
    t'.placeOf? false (root.join e.archive) ≠ t'.placeOf? false (root.join f.archive)

section

variable {q : Request} {paths : List Path} {out : Outcome}

theorem commit_of_archive (run : archive q s paths false r = (.ok out, r')) :
    commit q.root s out.entries r = (.ok (), r') := by
  obtain ⟨-, -, -, done⟩ := archive_done run
  exact done

/-- **A batch keeps its scripts if and only if its copies are files at places of
their own.** The scripts are files, not links, at places of their own, and the
ledger stands at none of the places of scripts and copies. The tree may have
links, the name of the folder may be any text, and the ledger may be kept in the
tree. -/
theorem archive_kept_iff (k : Scribe s) (grounded : r.tree.Grounded)
    (run : archive q s paths false r = (.ok out, r'))
    (scripts : ∀ e ∈ out.entries, ∃ mode bytes,
      r.tree.lookPlain (q.root.join e.original) = .ok (.file mode bytes))
    (apart : out.entries.Pairwise fun e f =>
      r.tree.placeOf? false (q.root.join e.original) ≠
        r.tree.placeOf? false (q.root.join f.original))
    (ledger : ∀ l, k.place r'.tree = some l → ∀ e ∈ out.entries,
      r.tree.placeOf? false (q.root.join e.original) ≠ some l ∧
        r'.tree.placeOf? false (q.root.join e.archive) ≠ some l) :
    Kept q.root out.entries r.tree r'.tree ↔
      (∀ e ∈ out.entries, r'.tree.isFile (q.root.join e.archive) = true) ∧
        out.entries.Pairwise fun e f => r'.tree.placeOf? false (q.root.join e.archive) ≠
          r'.tree.placeOf? false (q.root.join f.archive) := by
  have script {e : Entry} (he : e ∈ out.entries) : ∃ l mode bytes,
      r.tree.placeOf? false (q.root.join e.original) = some l ∧
        r.tree.get? l = some (.file mode bytes) ∧
        r.tree.readFile (q.root.join e.original) = .ok (mode, bytes) := by
    obtain ⟨mode, bytes, file⟩ := scripts e he
    obtain ⟨read, l, place, stands⟩ := Tree.placeOf?_of_lookPlain grounded file
    exact ⟨l, mode, bytes, place, stands, read⟩
  refine ⟨fun kept => ⟨fun e he => ?_, kept.apart⟩, fun ⟨files, landings⟩ => ⟨?_, landings⟩⟩
  · obtain ⟨l, mode, bytes, -, -, read⟩ := script he
    exact Tree.isFile_iff.2 ⟨mode, bytes, (kept.same e he).trans read⟩
  let src (e : Entry) : Location := (r.tree.placeOf? false (q.root.join e.original)).getD []
  let dst (e : Entry) : Location := (r'.tree.placeOf? false (q.root.join e.archive)).getD []
  have source : ∀ e ∈ out.entries, r.tree.placeOf? false (q.root.join e.original) = some (src e) ∧
      ∃ mode bytes, r.tree.get? (src e) = some (.file mode bytes) := by
    intro e he
    obtain ⟨l, mode, bytes, place, stands, -⟩ := script he
    simp only [src, place, Option.getD_some]
    exact ⟨trivial, mode, bytes, stands⟩
  have copy : ∀ e ∈ out.entries, r'.tree.placeOf? false (q.root.join e.archive) = some (dst e) ∧
      ∃ mode bytes, r'.tree.readFile (q.root.join e.archive) = .ok (mode, bytes) ∧
        (r'.tree.Grounded → (∀ target, r'.tree.get? (dst e) ≠ some (.link target)) →
          r'.tree.get? (dst e) = some (.file mode bytes)) := by
    intro e he
    obtain ⟨mode, bytes, read⟩ := Tree.isFile_iff.1 (files e he)
    obtain ⟨l, place, stands⟩ := Tree.placeOf?_of_readFile read
    simp only [dst, place, Option.getD_some]
    exact ⟨trivial, mode, bytes, read, fun grounded noLink => (stands grounded noLink).1⟩
  have away : ∀ e ∈ out.entries, k.place r'.tree ≠ some (src e) ∧ k.place r'.tree ≠ some (dst e) :=
    fun e he => ⟨fun own => (ledger _ own e he).1 (source e he).1,
      fun own => (ledger _ own e he).2 (copy e he).1⟩
  have apart' : out.entries.Pairwise fun e f => src e ≠ src f := by
    refine apart.imp_of_mem fun he hf differ same => differ ?_
    rw [(source _ he).1, (source _ hf).1, same]
  obtain ⟨hauled, -, grounded', noLink, -⟩ := commit_hauled k source apart'
    (fun e he => (copy e he).1) (fun e he => (away e he).2) (List.nil_append _).symm grounded
    (.refl r.tree) (commit_of_archive run)
  have landings' : out.entries.Pairwise fun e f => dst e ≠ dst f := by
    refine landings.imp_of_mem fun he hf differ same => differ ?_
    rw [(copy _ he).1, (copy _ hf).1, same]
  have arrived := hauled.arrives away landings' fun e he => by
    obtain ⟨-, mode, bytes, -, stands⟩ := copy e he
    exact ⟨mode, bytes, stands grounded' (noLink e he)⟩
  intro e he
  obtain ⟨l, mode, bytes, place, stands, read⟩ := script he
  obtain ⟨-, mode', bytes', read', stands'⟩ := copy e he
  obtain ⟨mode₁, bytes₁, before, after⟩ := arrived e he
  have here : src e = l := by simp only [src, place, Option.getD_some]
  rw [here, stands] at before
  rw [stands' grounded' (noLink e he), ← before] at after
  obtain ⟨rfl, rfl⟩ := Object.file.inj (Option.some.inj after)
  rw [read, read']

end

def upRequest : Request := ⟨⟨"/r"⟩, "../z", "", "b1", ⟨⟨2025, 6, 1⟩, 0, 0⟩⟩

def upRepository : Repository where
  tree := ⟨[(["r"], .folder), (["r", "a"], .folder), (["r", "b"], .folder),
    (["r", "a", "x"], .file 0o644 "1".toByteArray), (["r", "b", "x"], .file 0o644 "2".toByteArray)]⟩
  entries := []

def upOutcome : Outcome where
  batch := "b1"
  dryRun := false
  entries := [.fresh ⟨"a/x"⟩ ⟨"a/../z/x.2025-06-01"⟩ "b1" ⟨⟨2025, 6, 1⟩, 0, 0⟩ "",
    .fresh ⟨"b/x"⟩ ⟨"b/../z/x.2025-06-01"⟩ "b1" ⟨⟨2025, 6, 1⟩, 0, 0⟩ ""]

/-- Two scripts of one name are archived into one folder above them. Only the
second is kept. -/
theorem archive_kept_iff_up : ∃ r',
    archive upRequest .memory [⟨"a/x"⟩, ⟨"b/x"⟩] false upRepository = (.ok upOutcome, r') ∧
    upRepository.tree.readFile ⟨"/r/a/x"⟩ = .ok (0o644, "1".toByteArray) ∧
    r'.tree.readFile ⟨"/r/a/../z/x.2025-06-01"⟩ = .ok (0o644, "2".toByteArray) ∧
    ¬ Kept upRequest.root upOutcome.entries upRepository.tree r'.tree := by
  have archived : archive upRequest .memory [⟨"a/x"⟩, ⟨"b/x"⟩] false upRepository =
      (.ok upOutcome, ⟨⟨[(["r"], .folder), (["r", "a"], .folder), (["r", "b"], .folder),
        (["r", "z", "x.2025-06-01"], .file 0o644 "2".toByteArray), (["r", "z"], .folder)]⟩,
        upOutcome.entries⟩) := by decide +kernel
  have grounded : upRepository.tree.Grounded :=
    Tree.WellFormed.grounded ⟨by decide, by decide, by decide +kernel⟩
  have scripts : ∀ e ∈ upOutcome.entries, ∃ mode bytes,
      upRepository.tree.lookPlain (upRequest.root.join e.original) = .ok (.file mode bytes) := by
    refine List.forall_mem_cons.2 ⟨⟨0o644, "1".toByteArray, by decide +kernel⟩, ?_⟩
    exact List.forall_mem_cons.2 ⟨⟨0o644, "2".toByteArray, by decide +kernel⟩, by simp⟩
  have kept := archive_kept_iff .memory grounded archived
    scripts
    (by decide +kernel) (fun _ own => by simp [Scribe.memory] at own)
  refine ⟨_, archived, by decide +kernel, by decide +kernel, fun both => ?_⟩
  have landings := (kept.1 both).2
  revert landings
  decide +kernel

/-- The place of a file behind a root in a tree without links. -/
theorem placeOf?_plain {base : Location} {p : Path} (plain : t.Plain)
    (rooted : t.reach [] (Tree.steps root.text) = some base) (normal : p.IsNormal)
    (h : t.readFile (root.join p) = .ok (mode, bytes)) :
    t.placeOf? false (root.join p) = some (Tree.placeBelow base p) := by
  obtain ⟨names, rfl, isName⟩ := normal.exists_names
  obtain ⟨l, place, -⟩ := Tree.placeOf?_of_readFile h
  obtain ⟨s, spot, rfl⟩ := Tree.placeOf?_eq_some.1 place
  rw [place, (Tree.place_below plain rooted isName spot).2, Tree.placeBelow_ofNames base isName]

/-- **In a tree without links every script is kept** where the folder for the
copies has a name. -/
theorem archive_keeps {q : Request} {paths : List Path} {out : Outcome} (plain : r.tree.Plain)
    (hd : Path.IsName q.dirName) (run : archive q .memory paths false r = (.ok out, r')) :
    Kept q.root out.entries r.tree r'.tree := by
  by_cases hne : paths = []
  · obtain ⟨planned, -⟩ := archive_ok run
    subst hne
    rw [← Except.ok.inj planned]
    exact ⟨by simp, .nil⟩
  obtain ⟨-, base, stowed⟩ := archive_stowed plain hd hne run
  have file {e : Entry} (he : e ∈ out.entries) := stowed.exists_file he
  refine ⟨fun e he => ?_, ?_⟩
  · obtain ⟨mode, bytes, script, copy⟩ := file he
    rw [script, copy]
  · refine stowed.apart.imp_of_mem fun {e f} he hf apart => ?_
    have normal {e : Entry} (he : e ∈ out.entries) := (stowed.sited e he).normal
    have place {e : Entry} (he : e ∈ out.entries) :
        r'.tree.placeOf? false (q.root.join e.archive) = some (Tree.placeBelow base e.archive) := by
      obtain ⟨mode, bytes, -, copy⟩ := file he
      exact placeOf?_plain stowed.plain₁ stowed.rooted₁ (normal he).archive copy
    rw [place he, place hf]
    exact fun same => (apart.places (normal he) (normal hf) base).2.2 (Option.some.inj same)

end Archive
end Attic
