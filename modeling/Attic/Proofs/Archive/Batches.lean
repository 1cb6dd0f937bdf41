import Attic.Proofs.Archive.FirstFree
import Attic.Proofs.Ledger.Entries
import Mathlib

/-!
# Planned batches

Among the candidates for a copy one is always free. So the scripts of a planned batch
and their copies have paths of their own: a script is a file, and the path of its copy
names nothing.

Key definition: `Archive.Planned`.
Key theorem: `Archive.planScripts_planned`.
-/

namespace Attic
namespace Archive

open Ledger (Entry)

variable {t : Tree} {p : Path} {q : Request} {active planned : List Entry} {e : Entry}

/-- What holds of the entry of a script that has been planned. -/
structure Planned (q : Request) (t : Tree) (active : List Entry) (e : Entry) : Prop where
  names : ∃ ns n k, (∀ a ∈ ns, Path.IsName a) ∧ Path.IsName n ∧ e.original = .ofNames (ns ++ [n]) ∧
    e.archive = candidate q.dirName e.original q.now.date k
  fresh : e = .fresh e.original e.archive q.batch q.now q.reason
  file : t.isFile (q.root.join e.original) = true
  new : ∀ a ∈ active, a.original.same e.original = false
  free : t.has (q.root.join e.archive) = false

theorem planScript_planned (h : planScript q t active planned p = .ok e) :
    p.normalize? = some e.original ∧ Planned q t active e ∧ ∀ a ∈ planned, a.Unlike e := by
  obtain ⟨script, normal, written, file, new, rfl⟩ := planScript_ok h
  obtain ⟨ns, n, rfl, hns, hn⟩ := (Path.isNormal_of_normalize? normal).exists_concat written
  obtain ⟨k, chosen⟩ := freePath_candidate t q.root q.dirName (.ofNames (ns ++ [n])) q.now.date
    (planned.map Entry.archive)
  obtain ⟨unpromised, unused⟩ := isFree_eq_true.1 (isFree_freePath t q.root q.dirName
    (.ofNames (ns ++ [n])) q.now.date (planned.map Entry.archive))
  refine ⟨normal, ⟨⟨ns, n, k, hns, hn, rfl, chosen⟩, rfl, file, fun a ha => ?_, unused⟩,
    fun a ha => ⟨?_, ?_⟩⟩
  · exact new a (List.mem_append_left _ ha)
  · intro same
    refine Bool.false_ne_true ((new a (List.mem_append_right _ ha)).symm.trans ?_)
    rw [same]
    exact Path.same_refl _
  · intro same
    refine Bool.false_ne_true ((unpromised a.archive (List.mem_map_of_mem ha)).symm.trans ?_)
    rw [same]
    exact Path.same_refl _

/-- **A planned batch has an entry for each script, and no path twice.** -/
theorem planScripts_planned : ∀ {paths : List Path} {planned es : List Entry},
    planScripts q t active planned paths = .ok es → ∃ more, es = planned ++ more ∧
      more.map (fun e => some e.original) = paths.map Path.normalize? ∧
      (∀ e ∈ more, Planned q t active e) ∧
      (planned.Pairwise Entry.Unlike → es.Pairwise Entry.Unlike)
  | [], planned, es, h => by
    obtain rfl := Except.ok.inj h
    exact ⟨[], by simp, rfl, by simp, id⟩
  | p :: paths, planned, es, h => by
    unfold planScripts at h
    split at h
    · simp at h
    next e he =>
    obtain ⟨normal, first, unlike⟩ := planScript_planned he
    obtain ⟨more, rfl, normals, all, pairs⟩ := planScripts_planned h
    refine ⟨e :: more, by simp, by simp [normal, normals], ?_, fun before => pairs ?_⟩
    · intro a ha
      rcases List.mem_cons.1 ha with rfl | ha
      · exact first
      · exact all a ha
    · rw [List.pairwise_append]
      refine ⟨before, List.pairwise_singleton _ _, fun a ha b hb => ?_⟩
      rw [List.mem_singleton.1 hb]
      exact unlike a ha

end Archive
end Attic
