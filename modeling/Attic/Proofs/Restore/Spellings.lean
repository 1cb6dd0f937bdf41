import Attic.Proofs.Archive.Recorded
import Attic.Proofs.Path.Composed
import Attic.Proofs.Restore.Accounts
import Mathlib

/-!
# Spellings of a path

Archiving records a script under the normal form of its path, whatever dots and steps up
the path is written with. A restore by path finds the same form for every spelling: for a
relative path by normalizing it, for an absolute one by taking the root off first. So all
spellings of a path select the same entries, and a script that was archived under one of
them is restored under any other.

Key definitions: `Restore.Spells`, `Restore.Restorer.Offers`.
Key theorems: `Restore.Spells.relativePath`, `Restore.plan_spelling`,
`Restore.plan_spellings`.
-/

namespace Attic

namespace Archive

open Ledger (Entry Store)

variable {a : Request} {paths : List Path} {r r' : Repository} {out : Outcome} {e : Entry}

/-- A ledger in memory lists what was archived. -/
theorem mem_entries_of_archive (run : archive a .memory paths false r = (.ok out, r'))
    (he : e ∈ out.entries) : e ∈ r'.entries := by
  obtain ⟨-, done⟩ := archive_ok run
  have entries := stepEach_entries a.root out.entries r
  rw [commit] at done
  rw [done, stepped_of_ok done] at entries
  rw [entries]
  exact List.mem_append_right _ he

end Archive

namespace Restore

open Ledger (Entry Store)

variable {s : Restorer} {t : Tree} {r r' : Repository} {p q n : Path} {e : Entry}

/-! ### Spellings -/

/-- Whether a path is a spelling of a normal one: it has that normal form, or it is the
root with such a path joined to it. -/
inductive Spells (root n : Path) : Path → Prop
  | relative {p : Path} (normal : p.normalize? = some n) : Spells root n p
  | absolute {p : Path} (normal : p.normalize? = some n) : Spells root n (root.join p)

/-- **Every spelling of a path comes to the form that the ledger records.** -/
theorem Spells.relativePath (absolute : s.root.isAbsolute = true) (h : Spells s.root n p) :
    s.relativePath t p = n := by
  cases h with
  | relative normal => exact relativePath_of_normalize? normal
  | absolute normal =>
    obtain ⟨names, found, -⟩ := Option.map_eq_some_iff.1 normal
    have relative := Path.isAbsolute_of_names? found
    have written : s.root.isEmpty = false := by
      by_contra empty
      have blank : s.root = ⟨""⟩ := Path.eq_of_isEmpty (by simpa using empty)
      rw [blank] at absolute
      exact absurd absolute (by decide)
    obtain ⟨b, left, same⟩ := Path.normalize?_below?_join written relative
    rw [Restorer.relativePath, Path.isAbsolute_join_eq relative, absolute, if_pos rfl,
      Restorer.belowRoot?, left]
    simp [same, normal]

/-! ### Plans -/

/-- The items for the entries of a path. -/
def pathItems (s : Restorer) (t : Tree) (n : Path) (es : List Entry) : List Item :=
  (Order.sortBy entryBefore (es.filter fun e => e.original.same n)).map (planItem t s.root)

theorem pathItems_perm (s : Restorer) (t : Tree) (n : Path) (es : List Entry) :
    ((pathItems s t n es).map Item.entry).Perm (es.filter fun e => e.original.same n) := by
  rw [pathItems, List.map_map]
  simpa [Function.comp_def] using Order.sortBy_perm entryBefore _

/-- **A plan for a spelling has the items of the path**, if the ledger can be read. -/
theorem plan_spelling (absolute : s.root.isAbsolute = true) (h : Spells s.root n p)
    (r : Repository) : s.plan (.path p) r = match s.store.active r with
      | .error f => .error (.ledger f)
      | .ok es => .ok ⟨.path p, pathItems s r.tree n es⟩ := by
  rw [Restorer.plan, Restorer.select]
  simp only [h.relativePath absolute]
  cases s.store.active r <;> rfl

/-- Whether restoring by a path has an item for an entry. -/
def Restorer.Offers (s : Restorer) (r : Repository) (p : Path) (e : Entry) : Prop :=
  ∃ plan, s.plan (.path p) r = .ok plan ∧ e ∈ plan.items.map Item.entry

/-- An active entry is offered for each spelling of its path. -/
theorem offers_of_active {es : List Entry} (absolute : s.root.isAbsolute = true)
    (h : Spells s.root e.original p) (active : s.store.active r = .ok es) (he : e ∈ es) :
    s.Offers r p e := by
  refine ⟨_, by rw [plan_spelling absolute h, active], ?_⟩
  refine (pathItems_perm s r.tree e.original es).mem_iff.2 (List.mem_filter.2 ⟨he, ?_⟩)
  exact Path.same_refl _

/-- **All spellings of a path select the same.** Restoring by a path, by another one with
the same normal form, by this form, or by the root with one of them joined to it plans the
same items, one for each active entry of the path, or fails alike where the ledger cannot
be read. A script that was archived under one spelling is recorded under the normal form,
and any other spelling selects it for as long as its entry is active; so it does right
after the script was archived with a ledger in memory. -/
theorem plan_spellings {q₁ q₂ : Path} (absolute : s.root.isAbsolute = true)
    (h₁ : q₁.normalize? = some n) (h₂ : q₂.normalize? = some n) :
    (∀ r es, s.store.active r = .ok es → ∃ items,
      (∀ p ∈ [q₁, q₂, n, s.root.join q₁], s.plan (.path p) r = .ok ⟨.path p, items⟩) ∧
      (items.map Item.entry).Perm (es.filter fun e => e.original.same n) ∧
      ∀ i ∈ items, i = planItem r.tree s.root i.entry) ∧
    (∀ r f, s.store.active r = .error f →
      ∀ p ∈ [q₁, q₂, n, s.root.join q₁], s.plan (.path p) r = .error (.ledger f)) ∧
    ∀ (a : Archive.Request) paths dryRun r out r',
      Archive.archive a s.store paths dryRun r = (.ok out, r') → q₁ ∈ paths →
      ∃ e ∈ out.entries, e.original = n ∧
        (∀ r₂ es, s.store.active r₂ = .ok es → e ∈ es → s.Offers r₂ q₂ e) ∧
        (s.store = .memory → dryRun = false → s.Offers r' q₂ e) := by
  have form : n.normalize? = some n := Path.isNormal_of_normalize? h₁
  have spells : ∀ p ∈ [q₁, q₂, n, s.root.join q₁], Spells s.root n p := by
    simp only [List.forall_mem_cons]
    exact ⟨.relative h₁, .relative h₂, .relative form, .absolute h₁, by simp⟩
  refine ⟨fun r es active => ?_, fun r f failed p hp => ?_, ?_⟩
  · refine ⟨pathItems s r.tree n es, fun p hp => ?_, pathItems_perm s r.tree n es, fun i hi => ?_⟩
    · rw [plan_spelling absolute (spells p hp), active]
    · obtain ⟨e, -, rfl⟩ := List.mem_map.1 hi
      rw [planItem_entry]
  · rw [plan_spelling absolute (spells p hp), failed]
  · intro a paths dryRun r out r' run asked
    obtain ⟨active, -, planned, -⟩ := Archive.archive_done run
    obtain ⟨e, he, before, made⟩ := (Archive.planScripts_each planned).2.2 q₁ asked
    obtain ⟨script, normal, -, -, -, fresh⟩ := Archive.planScript_ok made
    obtain rfl : n = script := Option.some.inj (h₁.symm.trans normal)
    have original : e.original = n := by rw [fresh]; rfl
    have spelled : Spells s.root e.original q₂ := .relative (h₂.trans (congrArg some original.symm))
    refine ⟨e, he, original, fun r₂ es read there => ?_, fun memory real => ?_⟩
    · exact offers_of_active absolute spelled read there
    · rw [memory, real] at run
      have waits : e.isActive = true := by rw [fresh]; rfl
      have read : s.store.active r' = .ok (r'.entries.filter Entry.isActive) := by
        rw [memory]
        rfl
      exact offers_of_active absolute spelled read
        (List.mem_filter.2 ⟨Archive.mem_entries_of_archive run he, waits⟩)

open Archive (archive sampleRepository sampleRequest)

def dottedRestorer : Restorer := ⟨⟨"/r"⟩, [], .memory⟩

/-- A script is archived by a path that goes up and selected by three other spellings. -/
theorem plan_spellings_dotted : ∃ out r₁ items,
    archive sampleRequest .memory [⟨"m/../a.sh"⟩] false sampleRepository = (.ok out, r₁) ∧
    (∃ e ∈ out.entries, e.original = ⟨"a.sh"⟩ ∧ dottedRestorer.Offers r₁ ⟨"./a.sh"⟩ e) ∧
    dottedRestorer.plan (.path ⟨"./a.sh"⟩) r₁ = .ok ⟨.path ⟨"./a.sh"⟩, items⟩ ∧
    dottedRestorer.plan (.path ⟨"/r/m/../a.sh"⟩) r₁ = .ok ⟨.path ⟨"/r/m/../a.sh"⟩, items⟩ ∧
    items.length = 1 := by
  have absolute : dottedRestorer.root.isAbsolute = true := by decide
  have h₁ : (⟨"m/../a.sh"⟩ : Path).normalize? = some ⟨"a.sh"⟩ := by decide +kernel
  have h₂ : (⟨"./a.sh"⟩ : Path).normalize? = some ⟨"a.sh"⟩ := by decide +kernel
  obtain ⟨planned, -, archived⟩ := plan_spellings absolute h₁ h₂
  have succeeds : (archive sampleRequest .memory [⟨"m/../a.sh"⟩] false
      sampleRepository).1.toOption.isSome = true := by decide +kernel
  have listed : ((archive sampleRequest .memory [⟨"m/../a.sh"⟩] false
      sampleRepository).2.entries.filter fun e => e.isActive && e.original.same ⟨"a.sh"⟩).length =
        1 := by decide +kernel
  cases run : archive sampleRequest .memory [⟨"m/../a.sh"⟩] false sampleRepository with
  | mk result r₁ =>
  rw [run] at succeeds listed
  cases result with
  | error f => exact absurd succeeds Bool.false_ne_true
  | ok out =>
  obtain ⟨items, plans, perm, -⟩ := planned r₁ (r₁.entries.filter Ledger.Entry.isActive) rfl
  obtain ⟨e, he, original, -, offered⟩ :=
    archived _ _ _ _ _ _ run (List.mem_singleton.2 rfl)
  have place : dottedRestorer.root.join ⟨"m/../a.sh"⟩ = ⟨"/r/m/../a.sh"⟩ := by decide +kernel
  rw [place] at plans
  refine ⟨out, r₁, items, rfl, ⟨e, he, original, offered rfl rfl⟩, plans _ (by simp),
    plans _ (by simp), ?_⟩
  · rw [← List.length_map (f := Item.entry), perm.length_eq, List.filter_filter, ← listed]
    simp only [Bool.and_comm]

end Restore
end Attic
