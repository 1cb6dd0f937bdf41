import Attic.Inspection
import Attic.Proofs.Archive.Batches
import Attic.Proofs.Path.Joined
import Attic.Proofs.Scan.Walk
import Attic.Proofs.Tree.Climbing
import Mathlib

/-!
# Archived copies in a scan

A scan of a whole repository leaves out the folder of the archived copies, and
what it leaves out it takes for a name anywhere or for one place. The copies of a
script go to that folder beside it. So a folder of one name keeps all copies
from a scan, and a folder of several names keeps those alone whose way from the
root starts with them.

Key definitions: `Tree.Named`, `Scan.NamesFolder`, `Scan.Excludes.Passes`, `Scan.Hides`.
Key theorems: `Scan.leavesOut_iff`, `Scan.leavesOut_ofNames`, `Scan.Scanner.mem_files_whole`,
`Archive.place_of_copy`, `Inspection.copy_scanned_iff`.
-/

namespace Attic

/-- Whether the objects of a tree have names that paths can say. -/
def Tree.Named (t : Tree) : Prop := ∀ e ∈ t.objects, ∀ n ∈ e.1, Path.IsName n

instance (t : Tree) : Decidable t.Named :=
  inferInstanceAs (Decidable (∀ e ∈ t.objects, ∀ n ∈ e.1, Path.IsName n))

namespace Scan

variable {t : Tree} {root start d p : Path} {e : Excludes} {base : Location}
variable {cs : List Path.Component}
variable {ns names : List String} {dirs : List Path} {globs : List Glob.Pattern}

/-! ### What is left out by names -/

theorem between_iff_append :
    Between ns names ↔ ∃ rest, ns ≠ [] ∧ rest ≠ [] ∧ names = ns ++ rest := by
  constructor
  · rintro ⟨begun, ⟨rest, rfl⟩, before⟩
    exact ⟨rest, begun, fun e => before (by simp [e]), rfl⟩
  · rintro ⟨rest, begun, more, rfl⟩
    exact ⟨begun, List.prefix_append _ _, by simpa using more⟩

/-- The folders on a way are named by the names before the last. -/
theorem mem_dropLast_iff {n : String} :
    n ∈ names.dropLast ↔ ∃ ns, Between ns names ∧ ns.getLast? = some n := by
  constructor
  · intro hn
    obtain ⟨before, after, split⟩ := List.append_of_mem hn
    have some : names ≠ [] := by
      rintro rfl
      simp at hn
    refine ⟨before ++ [n],
      between_iff_append.2 ⟨after ++ [names.getLast some], by simp, by simp, ?_⟩, by simp⟩
    conv_lhs => rw [← List.dropLast_append_getLast some, split]
    simp
  · rintro ⟨ns, b, last⟩
    obtain ⟨rest, -, more, rfl⟩ := between_iff_append.1 b
    rw [List.dropLast_append_of_ne_nil more]
    exact List.mem_append_left _ (List.mem_of_getLast? last)

/-- Whether an exclusion names the folder to which names lead below a root that says `cs`:
one of a single component its name, a longer one its place. -/
def NamesFolder (d : Path) (cs : List Path.Component) (ns : List String) : Prop :=
  ∃ ds, d.names? = some ds ∧
    ((∃ n, ds = [n] ∧ ns.getLast? = some n) ∨
      1 < ds.length ∧ cs ++ ns.map .name = ds.map .name)

/-- What an exclusion with a normal form says: one name is that of a folder, and more
are the place of one. -/
theorem leavesOut_of_names? {m : String} {ds : List String} (found : d.names? = some ds)
    (last : p.fileName? = some m) (isName : Path.IsName m) :
    leavesOut d p = true ↔ if ds.length = 1 then ds = [m] else p.components = ds.map .name := by
  have isName' := Path.isName_of_names? found
  have normal : d.normalize?.getD d = .ofNames ds := by simp [Path.normalize?, found]
  unfold leavesOut
  simp only [normal, Path.components_ofNames isName', List.length_map, last, Option.any_some,
    ← Path.ofNames_single]
  split
  · exact Path.ofNames_same_iff isName' (by simpa using isName)
  · rw [Path.same_iff, Path.components_ofNames isName', eq_comm]

/-- An exclusion without a normal form leaves out nothing that has one. -/
theorem leavesOut_of_no_names {m : String} {ks : List String} (none : d.names? = none)
    (last : p.fileName? = some m) (isName : Path.IsName m) (normal : p.names? = some ks) :
    leavesOut d p = false := by
  have raw : d.normalize?.getD d = d := by simp [Path.normalize?, none]
  have unlike {q : Path} (named : q.names? ≠ .none) : d.same q = false := by
    refine Bool.eq_false_iff.2 fun same => named ?_
    rw [Path.names?, ← Path.same_iff.1 same]
    exact none
  unfold leavesOut
  simp only [raw, last, Option.any_some]
  split
  · refine unlike ?_
    rw [← Path.ofNames_single, Path.names?_ofNames (by simpa using isName)]
    simp
  · exact unlike (by simp [normal])

/-- A folder is left out by the exclusion that names it. -/
theorem leavesOut_iff (said : p.components = cs ++ ns.map .name) (hne : ns ≠ [])
    (isName : ∀ n ∈ ns, Path.IsName n) (level : .up ∉ cs) (relative : .root ∉ cs) :
    leavesOut d p = true ↔ NamesFolder d cs ns := by
  obtain ⟨ms, m, rfl⟩ : ∃ ms m, ns = ms ++ [m] := by
    obtain rfl | ⟨ms, m, e⟩ := List.eq_nil_or_concat ns
    · exact absurd rfl hne
    · exact ⟨ms, m, by rw [e, List.concat_eq_append]⟩
  have hm : Path.IsName m := isName m (by simp)
  have last : p.fileName? = some m := by
    have tail : p.components = (cs ++ ms.map .name) ++ [.name m] := by simp [said]
    rw [Path.fileName?, Path.fileChars?_of_components tail, Option.map_some,
      String.ofList_toList]
  unfold NamesFolder
  cases found : d.names? with
  | none =>
    obtain ⟨ks, normal⟩ : ∃ ks, p.names? = some ks :=
      Path.exists_names? (by simp [said, level]) (by simp [said, relative])
    simp [leavesOut_of_no_names found last hm normal]
  | some ds =>
    rw [leavesOut_of_names? found last hm]
    simp only [Option.some.injEq, exists_eq_left', List.getLast?_concat]
    split
    · next one =>
      constructor
      · rintro rfl
        exact .inl ⟨m, rfl, rfl⟩
      · rintro (⟨n, rfl, rfl⟩ | ⟨more, -⟩)
        · rfl
        · omega
    · next more =>
      rw [said]
      constructor
      · intro place
        have length := congrArg List.length place
        simp only [List.length_map, List.length_append, List.length_singleton] at length
        exact .inr ⟨by omega, place⟩
      · rintro (⟨n, rfl, -⟩ | ⟨-, place⟩)
        · simp at more
        · exact place

/-- A folder of names is left out if it has the place that an exclusion says, or the
one name that it says. -/
theorem leavesOut_ofNames (isName : ∀ n ∈ ns, Path.IsName n) (hne : ns ≠ []) :
    leavesOut d (.ofNames ns) = true ↔
      ∃ ds, d.names? = some ds ∧ (ds = ns ∨ ∃ n, ds = [n] ∧ ns.getLast? = some n) := by
  have said : (Path.ofNames ns).components = [] ++ ns.map .name := Path.components_ofNames isName
  rw [leavesOut_iff said hne isName (by simp) (by simp)]
  refine exists_congr fun ds => and_congr_right fun _ => ?_
  rw [List.nil_append, List.map_inj_right fun _ _ same => Path.Component.name_injective same]
  constructor
  · rintro (one | ⟨-, same⟩)
    · exact .inr one
    · exact .inl same.symm
  · rintro (rfl | one)
    · rcases ds with _ | ⟨n, _ | ⟨m, ms⟩⟩
      · exact absurd rfl hne
      · exact .inl ⟨n, rfl, rfl⟩
      · exact .inr ⟨by simp, rfl⟩
    · exact .inl one

/-- Whether an exclusion leaves out one of the folders that names lead through: it
says the place of one, or the name of one. -/
def Hides (d : Path) (names : List String) : Prop :=
  ∃ ds, d.names? = some ds ∧ (Between ds names ∨ ∃ n ∈ names.dropLast, ds = [n])

/-- Whether exclusions hold of nothing that names lead through. -/
structure Excludes.Passes (e : Excludes) (names : List String) : Prop where
  folders : ∀ ns, Between ns names → e.holds (.ofNames ns) true = false
  file : e.holds (.ofNames names) false = false

section

variable (isName : ∀ n ∈ names, Path.IsName n) (whole : start.components = root.components)
variable (written : root.components ≠ [])

include isName whole written

/-- From the whole repository names are seen as they are. -/
theorem seenFrom_down (hne : names ≠ []) : seenFrom root (start.down names) = .ofNames names := by
  rw [seenFrom, Path.below?_down whole written isName hne, Option.getD_some]

theorem seenFrom_between (b : Between ns names) : seenFrom root (start.down ns) = .ofNames ns :=
  seenFrom_down (fun n hn => isName n (b.along.subset hn)) whole written b.begun

theorem Excludes.lets_iff_passes (hne : names ≠ []) : e.Lets root start names ↔ e.Passes names := by
  have seen := seenFrom_down isName whole written hne
  have between {ns : List String} (b : Between ns names) :=
    seenFrom_between isName whole written b
  constructor
  · rintro ⟨folders, file⟩
    exact ⟨fun ns b => between b ▸ folders ns b, seen ▸ file hne⟩
  · rintro ⟨folders, file⟩
    exact ⟨fun ns b => (between b).symm ▸ folders ns b, fun _ => seen.symm ▸ file⟩

theorem avoids_iff_not_hides : Avoids d root start names ↔ ¬ Hides d names := by
  have between {ns : List String} (b : Between ns names) :=
    seenFrom_between isName whole written b
  have out {ns : List String} (b : Between ns names) : leavesOut d (.ofNames ns) = true ↔
      ∃ ds, d.names? = some ds ∧ (ds = ns ∨ ∃ n, ds = [n] ∧ ns.getLast? = some n) :=
    leavesOut_ofNames (fun n hn => isName n (b.along.subset hn)) b.begun
  constructor
  · rintro avoids ⟨ds, hds, b | ⟨n, hn, rfl⟩⟩
    · have kept := avoids ds b
      rw [between b, (out b).2 ⟨ds, hds, .inl rfl⟩] at kept
      simp at kept
    · obtain ⟨ns, b, last⟩ := mem_dropLast_iff.1 hn
      have kept := avoids ns b
      rw [between b, (out b).2 ⟨_, hds, .inr ⟨n, rfl, last⟩⟩] at kept
      simp at kept
  · intro shown ns b
    rw [between b, Bool.eq_false_iff]
    intro left
    obtain ⟨ds, hds, rfl | ⟨n, rfl, last⟩⟩ := (out b).1 left
    · exact shown ⟨ds, hds, .inl b⟩
    · exact shown ⟨_, hds, .inr ⟨n, mem_dropLast_iff.2 ⟨ns, b, last⟩, rfl⟩⟩

end

theorem spot_of_folderOf? (walked : folderOf? t start = some base) : ∃ into,
    t.spot into (Tree.endsWithSlash start.text) start = .ok (.found base .folder) := by
  have led {s : Except Tree.Fault Tree.Spot} {l : Location}
      (h : Tree.found s = .ok (l, .folder)) : s = .ok (.found l .folder) := by
    rcases s with f | (⟨l', o⟩ | ⟨l', n⟩) <;> simp_all [Tree.found]
  unfold folderOf? at walked
  split at walked
  · next there =>
    obtain rfl := Option.some.inj walked
    exact ⟨false, led there⟩
  · split at walked
    · next there =>
      obtain rfl := Option.some.inj walked
      exact ⟨true, led there⟩
    · simp at walked
  · simp at walked

/-- **A scan of a whole repository reads the files that its exclusions pass.** -/
theorem Scanner.mem_files_whole {s : Scanner} {top : Path} {mode : Nat} {bytes : ByteArray}
    (whole : (Settings.resolve s.root top).components = s.root.components)
    (written : s.root.components ≠ []) (grounded : t.Grounded) (named : t.Named)
    (walked : folderOf? t (Settings.resolve s.root top) = some base)
    (file : t.get? (base ++ names) = some (.file mode bytes)) (dir : Path) :
    (∃ f ∈ (s.files t [top] (dirs ++ [dir])).1, f.same (.ofNames names) = true) ↔
      (Excludes.of dirs s.globs).Passes names ∧ ¬ Hides dir names := by
  obtain ⟨into, there⟩ := spot_of_folderOf? walked
  have folder : t.get? base = some .folder := grounded.spot_holds there
  have hne : names ≠ [] := by
    rintro rfl
    simp [folder] at file
  have isName : ∀ n ∈ names, Path.IsName n := fun n hn =>
    named _ (Tree.mem_objects (by simp [hne]) file) n (List.mem_append_right _ hn)
  rw [Scanner.mem_files_concat]
  constructor
  · rintro ⟨_, inside, names', ⟨stands, lets, seen⟩, avoids⟩
    obtain rfl := List.mem_singleton.1 inside
    cases stands with
    | itself alone => simp [folderOf?, alone] at walked
    | @below base' _ mode' bytes' folder' begun inside' folders =>
      obtain rfl := Option.some.inj (folder'.symm.trans walked)
      have isName' : ∀ n ∈ names', Path.IsName n := fun n hn =>
        named _ inside' n (List.mem_append_right _ hn)
      rw [seenFrom_down isName' whole written begun] at seen
      obtain rfl := (Path.ofNames_same_iff isName' isName).1 seen
      exact ⟨(Excludes.lets_iff_passes isName whole written hne).1 lets,
        (avoids_iff_not_hides isName whole written).1 avoids⟩
  · rintro ⟨passes, shown⟩
    refine ⟨top, List.mem_singleton_self _, names, ⟨?_, ?_, ?_⟩, ?_⟩
    · refine .below walked hne (Tree.mem_objects (by simp [hne]) file) fun ns b => ?_
      obtain ⟨rest, -, more, rfl⟩ := between_iff_append.1 b
      exact grounded.above more (by rw [List.append_assoc, file]; simp)
    · exact (Excludes.lets_iff_passes isName whole written hne).2 passes
    · rw [seenFrom_down isName whole written hne]
      exact Path.same_refl _
    · exact (avoids_iff_not_hides isName whole written).2 shown

end Scan

namespace Archive

open Ledger (Entry Store)

variable {q : Request} {t : Tree} {base l : Location} {active planned es : List Entry} {e : Entry}
variable {paths : List Path} {out : Outcome} {r r' : Repository} {s : Store}

/-- Whether the copy of an entry is one of the candidates for its script. -/
def Beside (q : Request) (e : Entry) : Prop :=
  ∃ ns n k, (∀ m ∈ ns, Path.IsName m) ∧ Path.IsName n ∧ e.original = .ofNames (ns ++ [n]) ∧
    e.archive = candidate q.dirName e.original q.now.date k

theorem planScript_beside {p : Path} (h : planScript q t active planned p = .ok e) :
    Beside q e := by
  obtain ⟨script, normal, written, -, -, rfl⟩ := planScript_ok h
  obtain ⟨ns, n, rfl, hns, hn⟩ := (Path.isNormal_of_normalize? normal).exists_concat written
  obtain ⟨k, chosen⟩ := freePath_candidate t q.root q.dirName (.ofNames (ns ++ [n])) q.now.date
    (planned.map Entry.archive)
  exact ⟨ns, n, k, hns, hn, rfl, chosen⟩

theorem archive_beside (run : archive q s paths false r = (.ok out, r')) :
    ∀ e ∈ out.entries, Beside q e := by
  obtain ⟨active, -, planned, -⟩ := archive_done run
  intro e he
  rcases (planScripts_each planned).2.1 e he with none | ⟨p, -, before, made⟩
  · exact absurd none List.not_mem_nil
  · exact planScript_beside made

/-- **A copy lies in the folder for copies, beside its script.** -/
theorem place_of_copy {ds : List String} {must : Bool} {o : Object} (plain : t.Plain)
    (rooted : t.reach [] (Tree.steps q.root.text) = some base) (beside : Beside q e)
    (dir : (⟨q.dirName⟩ : Path).names? = some ds)
    (copy : t.spot false must (q.root.join e.archive) = .ok (.found l o)) :
    ∃ ns n a, e.original = .ofNames (ns ++ [n]) ∧ l = base ++ (ns ++ ds ++ [a]) := by
  obtain ⟨ns, n, k, hns, hn, original, archive⟩ := beside
  have isName := candidateName_isName hns hn q.now.date k
  refine ⟨ns, n, candidateName (.ofNames (ns ++ [n])) q.now.date k, original, ?_⟩
  rw [original, candidate, Path.parent_ofNames hns hn] at archive
  generalize candidateName (.ofNames (ns ++ [n])) q.now.date k = a at isName archive
  have alone : (⟨a⟩ : Path) = .ofNames [a] := (Path.ofNames_single a).symm
  have isName' : ∀ m ∈ [a], Path.IsName m := by simpa using isName
  have relative := Path.isAbsolute_of_names? dir
  have beside := Path.isAbsolute_join (Path.isAbsolute_ofNames hns) relative
  have inside : e.archive.isAbsolute = false := by
    rw [archive, alone]
    exact Path.isAbsolute_join beside (Path.isAbsolute_ofNames isName')
  have steps : Tree.steps (q.root.join e.archive).text =
      Tree.steps q.root.text ++ (ns ++ Tree.steps q.dirName ++ [a]) := by
    rw [Path.steps_join _ inside, archive, alone,
      Path.steps_join _ (Path.isAbsolute_ofNames isName'), Path.steps_join _ relative,
      Path.steps_ofNames hns, Path.steps_ofNames isName']
  have climbs : Path.climb [] ((ns ++ Tree.steps q.dirName).map Path.stepComponent) =
      some (ds.reverse ++ ns.reverse) := by
    rw [Path.names?_eq_steps relative] at dir
    obtain ⟨st, hst, rfl⟩ := Option.map_eq_some_iff.1 dir
    rw [List.map_append, Path.climb_append, Path.map_stepComponent hns, Path.climb_names,
      Option.bind_some, List.append_nil, List.reverse_reverse]
    exact Path.climb_above ns.reverse hst
  rw [Tree.spot_plain plain (Tree.spot_eq_ok copy).1, steps, Tree.way_append _ _ _ rooted] at copy
  obtain ⟨folder, reached⟩ := Tree.reach_of_way plain (by simp) _ _ copy
  rw [Tree.way_append _ _ _ reached] at copy
  have place : l = folder ++ [a] := (Tree.way_place plain folder isName' copy).2
  have climbed : folder = base ++ (ds.reverse ++ ns.reverse).reverse :=
    Tree.reach_climb (by simpa using reached) climbs
  rw [place, climbed]
  simp

end Archive

namespace Inspection

open Archive (Outcome Request archive)
open Ledger (Entry Store)
open Scan (Excludes Hides folderOf?)

/-- Whether a scan reads the file to which names lead from the root. -/
def Scans (i : Inspection) (t : Tree) (names : List String) : Prop :=
  ∃ f ∈ (i.scanner.files t i.searchRoots i.excludeDirs).1, f.same (.ofNames names) = true

/-- In the folder for copies `ds`, beside a script, what the exclusion of this folder
hides. -/
theorem hides_copy {d : Path} {ns ds : List String} {a : String} (dir : d.names? = some ds) :
    Hides d (ns ++ ds ++ [a]) ↔ ds.length = 1 ∨ ds ≠ [] ∧ ds <+: ns ++ ds := by
  unfold Hides
  simp only [dir, Option.some.injEq, exists_eq_left', List.dropLast_concat]
  constructor
  · rintro (b | ⟨n, -, rfl⟩)
    · refine .inr ⟨b.begun, List.prefix_of_prefix_length_le b.along (List.prefix_append _ _) ?_⟩
      simp
    · exact .inl rfl
  · rintro (one | ⟨begun, along⟩)
    · obtain ⟨n, rfl⟩ := List.length_eq_one_iff.1 one
      exact .inr ⟨n, by simp, rfl⟩
    · refine .inl ⟨begun, along.trans (List.prefix_append _ _), fun same => ?_⟩
      have length := congrArg List.length same
      simp only [List.length_append, List.length_singleton] at length
      omega

theorem ofSettings_eq_ok {root : Path} {settings : Settings} {store : Store}
    {catalog : Tree → Except Catalog.Fault (List Catalog.Command)} {checker : Catalog.Checker}
    {i : Inspection} (made : ofSettings root settings store catalog checker = .ok i) :
    i.scanner.root = root ∧ i.searchRoots = settings.searchRoots ∧
      i.excludeDirs = settings.excludeDirs ++ [⟨settings.archiveDir⟩] := by
  unfold ofSettings Scan.Scanner.ofSettings at made
  cases patterns : settings.patterns with
  | error f => simp [patterns, Except.map] at made
  | ok globs =>
    rw [patterns] at made
    obtain rfl := Except.ok.inj made
    exact ⟨rfl, rfl, rfl⟩

/-- **An archived copy is scanned** if and only if nothing on its way is left out, by
the exclusions of the settings or by the folder for copies, which is taken for a
name or for one place. Without links this folder hides every copy if it is of one
name; if it is of several, those alone whose way starts with them. -/
theorem copy_scanned_iff {q : Request} {store store' : Store} {paths : List Path} {out : Outcome}
    {r r' : Repository} {e : Entry} {settings : Settings} {i : Inspection}
    {catalog : Tree → Except Catalog.Fault (List Catalog.Command)} {checker : Catalog.Checker}
    {top : Path} {t : Tree} {base : Location} {names : List String} {mode : Nat}
    {bytes : ByteArray} (run : archive q store paths false r = (.ok out, r'))
    (he : e ∈ out.entries) (dir : q.dirName = settings.archiveDir)
    (made : ofSettings q.root settings store' catalog checker = .ok i)
    (roots : settings.searchRoots = [top])
    (whole : (Settings.resolve q.root top).components = q.root.components)
    (written : q.root.components ≠ []) (grounded : t.Grounded) (named : t.Named)
    (walked : folderOf? t (Settings.resolve q.root top) = some base)
    (copy : t.spot false false (q.root.join e.archive) =
      .ok (.found (base ++ names) (.file mode bytes))) :
    (i.Scans t names ↔ (Excludes.of settings.excludeDirs i.scanner.globs).Passes names ∧
      ¬ Hides ⟨settings.archiveDir⟩ names) ∧
    (t.Plain → ∀ ds, (⟨settings.archiveDir⟩ : Path).names? = some ds →
      ∃ ns n a, e.original = .ofNames (ns ++ [n]) ∧ names = ns ++ ds ++ [a] ∧
        (i.Scans t names ↔ (Excludes.of settings.excludeDirs i.scanner.globs).Passes names ∧
          ds.length ≠ 1 ∧ (ds = [] ∨ ¬ ds <+: ns ++ ds))) := by
  obtain ⟨root, searchRoots, excludeDirs⟩ := ofSettings_eq_ok made
  have scans : i.Scans t names ↔
      (Excludes.of settings.excludeDirs i.scanner.globs).Passes names ∧
        ¬ Hides ⟨settings.archiveDir⟩ names := by
    rw [Scans, searchRoots, excludeDirs, roots]
    rw [← root] at whole written walked
    exact Scan.Scanner.mem_files_whole whole written grounded named walked
      (grounded.spot_holds copy) ⟨settings.archiveDir⟩
  refine ⟨scans, fun plain ds hds => ?_⟩
  have rooted : t.reach [] (Tree.steps q.root.text) = some base := by
    obtain ⟨into, there⟩ := Scan.spot_of_folderOf? walked
    rw [Tree.spot_plain plain (Tree.spot_eq_ok there).1] at there
    rw [← Tree.reach_components whole]
    exact Tree.reach_of_found plain there
  obtain ⟨ns, n, a, original, place⟩ :=
    Archive.place_of_copy plain rooted (Archive.archive_beside run e he) (dir ▸ hds) copy
  obtain rfl := List.append_cancel_left place
  refine ⟨ns, n, a, original, rfl, scans.trans (and_congr_right fun _ => ?_)⟩
  simp only [hides_copy hds, not_or, not_and_or, ne_eq, not_not]

def oldRequest : Request := ⟨⟨"/r"⟩, "old/scripts", "", "b1", ⟨⟨2025, 6, 1⟩, 0, 0⟩⟩

def oldRepository : Repository where
  tree := ⟨[(["r"], .folder), (["r", "app"], .folder),
    (["r", "app", "a.sh"], .file 0o644 "echo a\n".toByteArray)]⟩
  entries := []

def oldEntry : Entry :=
  .fresh ⟨"app/a.sh"⟩ ⟨"app/old/scripts/a.2025-06-01.sh"⟩ "b1" ⟨⟨2025, 6, 1⟩, 0, 0⟩ ""

def oldTree : Tree := ⟨[(["r"], .folder), (["r", "app"], .folder),
  (["r", "app", "old", "scripts", "a.2025-06-01.sh"], .file 0o644 "echo a\n".toByteArray),
  (["r", "app", "old"], .folder), (["r", "app", "old", "scripts"], .folder)]⟩

def oldSettings : Settings := { Settings.standard with archiveDir := "old/scripts" }

def oldInspection : Inspection := ⟨⟨"/r"⟩, .memory, fun _ => .ok [], fun _ _ => .valid,
  .standard ⟨"/r"⟩, [⟨"."⟩], oldSettings.excludeDirs ++ [⟨"old/scripts"⟩]⟩

/-- A copy in a folder of two names is scanned. -/
theorem copy_scanned_iff_old :
    archive oldRequest .memory [⟨"app/a.sh"⟩] false oldRepository =
      (.ok ⟨"b1", false, [oldEntry]⟩, ⟨oldTree, [oldEntry]⟩) ∧
    oldInspection.Scans oldTree ["app", "old", "scripts", "a.2025-06-01.sh"] ∧
    ¬ Hides ⟨oldSettings.archiveDir⟩ ["app", "old", "scripts", "a.2025-06-01.sh"] := by
  have run : archive oldRequest .memory [⟨"app/a.sh"⟩] false oldRepository =
      (.ok ⟨"b1", false, [oldEntry]⟩, ⟨oldTree, [oldEntry]⟩) := by decide +kernel
  have made : ofSettings ⟨"/r"⟩ oldSettings .memory (fun _ => .ok []) (fun _ _ => .valid) =
      .ok oldInspection := rfl
  have grounded : oldTree.Grounded :=
    Tree.WellFormed.grounded ⟨by decide, by decide, by decide +kernel⟩
  have walked : folderOf? oldTree (Settings.resolve oldRequest.root ⟨"."⟩) = some ["r"] := by
    decide +kernel
  have copy : oldTree.spot false false (oldRequest.root.join oldEntry.archive) =
      .ok (.found (["r"] ++ ["app", "old", "scripts", "a.2025-06-01.sh"])
        (.file 0o644 "echo a\n".toByteArray)) := by decide +kernel
  have iff := copy_scanned_iff run (List.mem_singleton_self _) rfl made rfl (by decide +kernel)
    (by decide +kernel) grounded (by decide +kernel) walked copy
  have scans : oldInspection.Scans oldTree ["app", "old", "scripts", "a.2025-06-01.sh"] := by
    refine ⟨⟨"app/old/scripts/a.2025-06-01.sh"⟩, ?_, by decide +kernel⟩
    have files : oldInspection.scanner.files oldTree oldInspection.searchRoots
        oldInspection.excludeDirs = ([⟨"app/old/scripts/a.2025-06-01.sh"⟩], []) :=
      Scan.Scanner.files_single (by decide +kernel) (by decide +kernel)
    simp [files]
  exact ⟨run, scans, (iff.1.1 scans).2⟩

end Inspection
end Attic
