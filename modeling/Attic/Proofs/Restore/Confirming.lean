import Attic.Proofs.Path.Saying
import Attic.Proofs.Restore.Planning
import Mathlib

/-!
# What a token confirms

The token of a plan is a digest of four things of each item: the components of its
two paths, roots apart, its batch, and what is to be done. As far as the digest
tells these apart, plans with one token agree on them, and on nothing else: the
token does not tell whether a path starts at the root, when and why a script was
archived, and whether the restored file is to be executable, which is taken from
the copy when the plan is made. Plans with one token that agree on the texts of
their paths and on what is executable do the same wherever they are carried out.

Key definitions: `Restore.Stamp`, `Restore.Item.stamp`, `Restore.Item.Same`,
`Restore.Item.Open`, `Restore.Item.deed`.
Key theorems: `Digest.hex_injective`, `Restore.Item.same_iff`,
`Restore.Restorer.apply_congr`, `Restore.Restorer.plan_token_iff`.
-/

namespace Attic

/-! ### Digests as texts -/

namespace Digest

/-- The number that a hexadecimal digit stands for. -/
def digitValue (c : Char) : Nat := if c.isDigit then c.toNat - 48 else c.toNat - 87

def digitsNumber (cs : List Char) : Nat := cs.foldl (fun n c => 16 * n + digitValue c) 0

theorem digitValue_digitChar : ∀ d < 16, digitValue (Nat.digitChar d) = d := by decide

theorem digitsNumber_toDigits (n : Nat) : digitsNumber (Nat.toDigits 16 n) = n := by
  induction n using Nat.strong_induction_on with
  | _ n ih =>
    by_cases small : n < 16
    · rw [Nat.toDigits_of_lt_base small]
      simp [digitsNumber, digitValue_digitChar n small]
    · have less : n / 16 < n := by omega
      rw [Nat.toDigits_of_base_le (by decide) (by omega), digitsNumber, List.foldl_append,
        ← digitsNumber, ih _ less, List.foldl_cons, List.foldl_nil,
        digitValue_digitChar _ (Nat.mod_lt n (by decide))]
      omega

theorem digitsNumber_padded (k : Nat) (cs : List Char) :
    digitsNumber (List.replicate k '0' ++ cs) = digitsNumber cs := by
  induction k with
  | zero => rfl
  | succ k ih =>
    rw [List.replicate_succ, List.cons_append, digitsNumber, List.foldl_cons]
    exact ih

theorem hex_injective : Function.Injective hex := by
  intro x y h
  have digits := congrArg (fun s : String => digitsNumber s.toList) h
  simp only [hex, String.toList_ofList, digitsNumber_padded, digitsNumber_toDigits] at digits
  exact UInt64.toNat_inj.1 digits

end Digest

namespace Restore

open Plan (digestPieces)

variable {s s' : Restorer} {r r' : Repository} {c c' : Criteria} {p q : Plan} {i j : Item}
variable {a b : Path} {t : Tree} {root : Path}

/-! ### Stamps -/

/-- What a token takes of an item. -/
structure Stamp where
  target : List String
  archive : List String
  batch : String
  action : Action
  deriving DecidableEq

def Item.stamp (i : Item) : Stamp :=
  ⟨digestPieces i.target, digestPieces i.entry.archive, i.entry.batch, i.action⟩

def Plan.stamps (p : Plan) : List Stamp := p.items.map Item.stamp

/-- What the components of a path are to its digest. -/
def piecesBytes (pieces : List String) : List UInt8 :=
  pieces.flatMap (fun s => s.toByteArray.toList) ++
    Plan.wordBytes (pieces.foldl (fun n s => Plan.turn (n + s.utf8ByteSize)) 0)

/-- What a stamp is to the digest. -/
def Stamp.bytes (x : Stamp) : List UInt8 :=
  piecesBytes x.target ++ piecesBytes x.archive ++ x.batch.toByteArray.toList ++ [0xff] ++
    Plan.wordBytes x.action.rank

/-- The digest of some stamps. -/
def digestOf (xs : List Stamp) : UInt64 := Digest.sip (xs.flatMap Stamp.bytes)

theorem token_eq (p : Plan) : p.token = Digest.hex (digestOf p.stamps) := by
  rw [digestOf, Plan.stamps, List.flatMap_map]
  rfl

/-- Two plans have one token if the digest of their stamps is one. -/
theorem token_eq_token : p.token = q.token ↔ digestOf p.stamps = digestOf q.stamps := by
  rw [token_eq, token_eq, Digest.hex_injective.eq_iff]

/-! ### What the token leaves open -/

/-- What the digest takes of a component. -/
def piece? : Path.Component → Option String
  | .root => none
  | c => some c.text

theorem digestPieces_eq (a : Path) : digestPieces a = a.components.filterMap piece? := rfl

theorem piece?_eq {c : Path.Component} (h : c ∈ a.components) (hc : c ≠ .root) :
    ∃ x, piece? c = some x ∧ Path.stepComponent x = c := by
  cases c with
  | root => exact absurd rfl hc
  | here => exact ⟨_, rfl, rfl⟩
  | up => exact ⟨_, rfl, rfl⟩
  | name piece => exact ⟨_, rfl, (Path.isName_of_component h).stepComponent⟩

/-- Components other than the root are known from what the digest takes of them. -/
theorem map_pieces : ∀ {cs : List Path.Component}, (∀ c ∈ cs, c ∈ a.components ∧ c ≠ .root) →
    (cs.filterMap piece?).map Path.stepComponent = cs
  | [], _ => rfl
  | c :: cs, h => by
    obtain ⟨⟨inside, hc⟩, h⟩ := List.forall_mem_cons.1 h
    obtain ⟨x, hx, back⟩ := piece?_eq inside hc
    rw [List.filterMap_cons_some hx, List.map_cons, back, map_pieces h]

theorem ne_root_of_body {c : Path.Component} (h : c ∈ a.body.filterMap Path.pieceComponent?) :
    c ≠ .root := by
  obtain ⟨piece, -, hp⟩ := List.mem_filterMap.1 h
  unfold Path.pieceComponent? at hp
  rintro rfl
  split at hp
  · simp at hp
  · split at hp <;> simp at hp

theorem components_parts (a : Path) :
    a.components = Path.leadComponents a.lead ++ a.body.filterMap Path.pieceComponent? := rfl

/-- A path is what its digest takes of it, and whether it starts at the root. -/
theorem components_eq_pieces (a : Path) : a.components =
    (if a.isAbsolute then [.root] else []) ++ (digestPieces a).map Path.stepComponent := by
  rw [digestPieces_eq]
  cases absolute : a.isAbsolute with
  | true =>
    have below : ∀ c ∈ a.body.filterMap Path.pieceComponent?, c ∈ a.components ∧ c ≠ .root :=
      fun c hc => ⟨List.mem_append_right _ hc, ne_root_of_body hc⟩
    rw [components_parts, Path.lead_of_isAbsolute absolute, if_pos rfl, List.filterMap_append,
      List.map_append, map_pieces below]
    rfl
  | false =>
    refine (map_pieces fun c hc => ⟨hc, ?_⟩).symm
    rintro rfl
    simp [Path.root_mem_components.1 hc] at absolute

theorem same_iff_pieces :
    a.same b = true ↔ digestPieces a = digestPieces b ∧ a.isAbsolute = b.isAbsolute := by
  rw [Path.same_iff]
  constructor
  · intro h
    refine ⟨by rw [digestPieces_eq, digestPieces_eq, h], Bool.eq_iff_iff.2 ?_⟩
    rw [← Path.root_mem_components, ← Path.root_mem_components, h]
  · rintro ⟨pieces, absolute⟩
    rw [components_eq_pieces a, components_eq_pieces b, pieces, absolute]

/-- Whether two items say the same. Paths are compared by their components. -/
structure Item.Same (i j : Item) : Prop where
  original : i.target.same j.target = true
  archive : i.entry.archive.same j.entry.archive = true
  batch : i.entry.batch = j.entry.batch
  archivedAt : i.entry.archivedAt = j.entry.archivedAt
  reason : i.entry.reason = j.entry.reason
  status : i.entry.status = j.entry.status
  restoredAt : i.entry.restoredAt = j.entry.restoredAt
  action : i.action = j.action
  executable : i.executable = j.executable

/-- A file is to be executable as its copy is when the plan is made. -/
theorem planItem_executable (t : Tree) (root : Path) (e : Ledger.Entry) :
    (planItem t root e).executable =
      ((planItem t root e).action = .restore && isExecutable t (root.join e.archive)) := by
  unfold planItem
  cases t.lookPlain (root.join e.original) <;>
  · dsimp only
    split <;> rfl

/-- Whether two items that were planned in two states agree on what their stamps do
not say. -/
structure Item.Open (root : Path) (t : Tree) (root' : Path) (t' : Tree) (i j : Item) : Prop where
  original : i.target.isAbsolute = j.target.isAbsolute
  archive : i.entry.archive.isAbsolute = j.entry.archive.isAbsolute
  archivedAt : i.entry.archivedAt = j.entry.archivedAt
  reason : i.entry.reason = j.entry.reason
  status : i.entry.status = j.entry.status
  restoredAt : i.entry.restoredAt = j.entry.restoredAt
  executable : i.action = .restore → isExecutable t (root.join i.entry.archive) =
    isExecutable t' (root'.join j.entry.archive)

variable {root' : Path} {t' : Tree}

/-- Planned items say the same if they have one stamp and agree on the rest. -/
theorem Item.same_iff (hi : i = planItem t root i.entry) (hj : j = planItem t' root' j.entry) :
    i.Same j ↔ i.stamp = j.stamp ∧ i.Open root t root' t' j := by
  have flag (act : i.action = j.action) : i.executable = j.executable ↔
      (i.action = .restore → isExecutable t (root.join i.entry.archive) =
        isExecutable t' (root'.join j.entry.archive)) := by
    have flagI := planItem_executable t root i.entry
    have flagJ := planItem_executable t' root' j.entry
    rw [← hi] at flagI
    rw [← hj, ← act] at flagJ
    rw [flagI, flagJ]
    by_cases restore : i.action = .restore <;> simp [restore]
  simp only [Item.stamp, Stamp.mk.injEq]
  constructor
  · intro h
    obtain ⟨target, rootT⟩ := same_iff_pieces.1 h.original
    obtain ⟨archive, rootA⟩ := same_iff_pieces.1 h.archive
    exact ⟨⟨target, archive, h.batch, h.action⟩, rootT, rootA, h.archivedAt, h.reason, h.status,
      h.restoredAt, (flag h.action).1 h.executable⟩
  · rintro ⟨⟨target, archive, batch, action⟩, h⟩
    exact ⟨same_iff_pieces.2 ⟨target, h.original⟩, same_iff_pieces.2 ⟨archive, h.archive⟩, batch,
      h.archivedAt, h.reason, h.status, h.restoredAt, action, (flag action).2 h.executable⟩

/-- Where planned items have one stamp, they say the same if they agree on the
rest. -/
theorem same_iff_open : ∀ {is js : List Item}, (∀ i ∈ is, i = planItem t root i.entry) →
    (∀ j ∈ js, j = planItem t' root' j.entry) → is.map Item.stamp = js.map Item.stamp →
    (List.Forall₂ Item.Same is js ↔ List.Forall₂ (Item.Open root t root' t') is js)
  | [], [], _, _, _ => by simp
  | i :: is, j :: js, his, hjs, h => by
    obtain ⟨first, rest⟩ := List.cons.inj h
    obtain ⟨hi, his⟩ := List.forall_mem_cons.1 his
    obtain ⟨hj, hjs⟩ := List.forall_mem_cons.1 hjs
    rw [List.forall₂_cons, List.forall₂_cons, same_iff_open his hjs rest, Item.same_iff hi hj]
    simp only [first, true_and]

theorem mem_plan (made : s.plan c r = .ok p) (hi : i ∈ p.items) :
    i = planItem r.tree s.root i.entry := by
  unfold Restorer.plan at made
  split at made
  · simp at made
  · obtain rfl := Except.ok.inj made
    obtain ⟨e, -, rfl⟩ := List.mem_map.1 hi
    rw [planItem_entry]

/-! ### What a run reads of an item -/

/-- What carrying out a plan takes of an item. -/
def Item.deed (i : Item) : Path × Path × Action × Bool :=
  (i.target, i.entry.archive, i.action, i.executable)

theorem deed_eq : i.deed = j.deed ↔ i.target = j.target ∧ i.entry.archive = j.entry.archive ∧
    i.action = j.action ∧ i.executable = j.executable := by
  simp [Item.deed]

theorem runItem_congr (h : i.deed = j.deed) (now : Timestamp) (late : Bool) (r : Repository) :
    runItem s now late i r = runItem s now late j r := by
  obtain ⟨target, archive, -, executable⟩ := deed_eq.1 h
  unfold runItem settle
  rw [target, archive, executable]

theorem runItems_congr (reading : Reading) : ∀ {is js : List Item} (r : Repository),
    is.map Item.deed = js.map Item.deed →
      runItems s (fun _ => reading) is r = runItems s (fun _ => reading) js r
  | [], [], _, _ => rfl
  | i :: is, j :: js, r, h => by
    obtain ⟨first, rest⟩ := List.cons.inj h
    simp only [runItems, runItem_congr first, (deed_eq.1 first).1, runItems_congr reading _ rest]

theorem groups_deeds (p : Plan) : (groups p).flatten.map Item.deed =
    ((p.items.map Item.deed).filter fun d => d.2.2.1 = .restore).mergeSort
      fun d e => !e.1.before d.1 := by
  rw [groups, foldr_addToGroups_flatten, List.filter_map]
  exact List.map_mergeSort fun _ _ _ _ => rfl

theorem plannedSkips_deeds (p : Plan) : plannedSkips p =
    (p.items.map Item.deed).filterMap fun d => match d.2.2.1 with
      | .restore => none
      | .skipPresent => some ⟨d.1, .conflict⟩
      | .skipMissing => some ⟨d.1, .missing⟩ := by
  rw [plannedSkips, List.filterMap_map]
  rfl

theorem groups_isEmpty (p : Plan) : (groups p).isEmpty = (groups p).flatten.isEmpty := by
  rw [groups, foldr_addToGroups_flatten]
  cases Order.sortBy targetBefore (p.items.filter fun i => i.action = .restore) with
  | nil => rfl
  | cons i is =>
    have more := addToGroups_flatten i (is.foldr addToGroups [])
    rw [List.foldr_cons]
    cases h : addToGroups i (is.foldr addToGroups []) with
    | nil => simp [h] at more
    | cons g gs => rfl

/-- **Plans that say alike what to carry out do the same** wherever they are carried
out, if they have one token. -/
theorem Restorer.apply_congr (deeds : p.items.map Item.deed = q.items.map Item.deed)
    (items : p.items ≠ []) (token : p.token = q.token) (s : Restorer) (now : Timestamp)
    (o : Options) (r : Repository) : s.apply now p o r = s.apply now q o r := by
  have run : (groups p).flatten.map Item.deed = (groups q).flatten.map Item.deed := by
    rw [groups_deeds, groups_deeds, deeds]
  have skips : plannedSkips p = plannedSkips q := by
    rw [plannedSkips_deeds, plannedSkips_deeds, deeds]
  have dry : Report.dry p = Report.dry q := by
    have targets := congrArg (List.map Prod.fst) run
    rw [List.map_map, List.map_map] at targets
    rw [Report.dry, Report.dry, skips]
    exact congrArg (fun ts => Report.mk true [] ts _ [] []) targets
  have report (done : List (Path × Done)) : Report.of p done = Report.of q done := by
    rw [Report.of, Report.of, skips]
  have idle : (groups p).isEmpty = (groups q).isEmpty := by
    rw [groups_isEmpty, groups_isEmpty, ← List.isEmpty_map (f := Item.deed), run, List.isEmpty_map]
  have full : p.isEmpty = false := List.isEmpty_eq_false_iff.2 items
  have full' : q.isEmpty = false :=
    List.isEmpty_eq_false_iff.2 fun none => items (by simpa [none] using deeds)
  simp only [Restorer.apply, Restorer.applyIn, dry, full, full', idle, token, report,
    runItems_congr _ r run, Bool.false_eq_true, if_false]

/-- **What a token confirms.** Let two plans be made, in any two states, that the
digest can tell apart if their stamps differ. They have one token if and only if
their items have, one by one, the same stamps: the components of their paths, roots
apart, their batches and their actions. Plans of one token hold the same items if
and only if these agree on what the stamps leave open; and where they agree on the
texts of their paths and on what is to be executable, they do the same wherever
they are carried out. -/
theorem Restorer.plan_token_iff (made : s.plan c r = .ok p) (made' : s'.plan c' r' = .ok q)
    (told : digestOf p.stamps = digestOf q.stamps → p.stamps = q.stamps) :
    (p.token = q.token ↔ p.stamps = q.stamps) ∧
    (p.token = q.token →
      (List.Forall₂ Item.Same p.items q.items ↔
        List.Forall₂ (Item.Open s.root r.tree s'.root r'.tree) p.items q.items) ∧
      (p.items.map Item.deed = q.items.map Item.deed → p.items ≠ [] →
        ∀ (any : Restorer) (now : Timestamp) (o : Options) (state : Repository),
          any.apply now p o state = any.apply now q o state)) := by
  have stamps : p.token = q.token ↔ p.stamps = q.stamps :=
    token_eq_token.trans ⟨told, fun same => by rw [same]⟩
  refine ⟨stamps, fun token => ⟨?_, fun deeds items any now o state => ?_⟩⟩
  · exact same_iff_open (fun i hi => mem_plan made hi) (fun j hj => mem_plan made' hj)
      (stamps.1 token)
  · exact apply_congr deeds items token any now o state

def toolEntry : Ledger.Entry :=
  .fresh ⟨"t"⟩ ⟨"z/t.2025-06-01"⟩ "b1" ⟨⟨2025, 6, 1⟩, 0, 0⟩ ""

/-- A repository with the archived copy of a script. -/
def toolRepository (script : String) : Repository where
  tree := ⟨[(["r"], .folder), (["r", "z"], .folder),
    (["r", "z", "t.2025-06-01"], .file 0o644 script.toByteArray)]⟩
  entries := [toolEntry]

def toolRestorer : Restorer := ⟨⟨"/r"⟩, [], .memory⟩

def toolPlan (script : String) : Plan :=
  ⟨.batch "b1", [planItem (toolRepository script).tree ⟨"/r"⟩ toolEntry]⟩

/-- What carrying out a plan comes to after the copy has been changed. -/
def toolRun (script : String) : List (Path × Done) × Repository :=
  runItems toolRestorer (fun _ => ⟨⟨⟨2025, 6, 2⟩, 0, 0⟩, false⟩) (toolPlan script).items
    (toolRepository "#!")

/-- Between two plans the copy of a script gets a first line that names an
interpreter. The token of the first plan confirms the second, which makes the
script executable where the first does not. -/
theorem plan_token_iff_tool : ∃ report report' r r',
    toolRestorer.plan (.batch "b1") (toolRepository "x") = .ok (toolPlan "x") ∧
    toolRestorer.plan (.batch "b1") (toolRepository "#!") = .ok (toolPlan "#!") ∧
    (toolPlan "x").token = (toolPlan "#!").token ∧
    ¬ List.Forall₂ Item.Same (toolPlan "x").items (toolPlan "#!").items ∧
    toolRestorer.apply ⟨⟨2025, 6, 2⟩, 0, 0⟩ (toolPlan "x")
      ⟨false, false, some (toolPlan "x").token, false⟩ (toolRepository "#!") = (.ok report, r) ∧
    toolRestorer.apply ⟨⟨2025, 6, 2⟩, 0, 0⟩ (toolPlan "#!")
      ⟨false, false, some (toolPlan "x").token, false⟩ (toolRepository "#!") = (.ok report', r') ∧
    r.tree.readFile ⟨"/r/t"⟩ = .ok (0o644, "#!".toByteArray) ∧
    r'.tree.readFile ⟨"/r/t"⟩ = .ok (0o755, "#!".toByteArray) := by
  have planned (script : String) :
      toolRestorer.plan (.batch "b1") (toolRepository script) = .ok (toolPlan script) := by
    have sorted : Order.sortBy entryBefore [toolEntry] = [toolEntry] :=
      Order.sortBy_of_sorted (by simp)
    have selected : toolRestorer.select (.batch "b1") (toolRepository script) =
        .ok [toolEntry] := rfl
    rw [Restorer.plan, selected]
    simp only [sorted]
    rfl
  have stamps : (toolPlan "x").stamps = (toolPlan "#!").stamps := by decide +kernel
  obtain ⟨token, same⟩ := Restorer.plan_token_iff (planned "x") (planned "#!") fun _ => stamps
  have one := token.2 stamps
  have applied (script : String) (restores : (toolPlan script).restoring = (toolPlan script).items)
      (confirmed : (toolPlan "x").token = (toolPlan script).token) :
      toolRestorer.apply ⟨⟨2025, 6, 2⟩, 0, 0⟩ (toolPlan script)
          ⟨false, false, some (toolPlan "x").token, false⟩ (toolRepository "#!") =
        (.ok (.of (toolPlan script) (toolRun script).1), (toolRun script).2) := by
    have sorted : Order.sortBy targetBefore (toolPlan script).items = (toolPlan script).items :=
      Order.sortBy_of_sorted (by simp [toolPlan])
    have grouped : groups (toolPlan script) = [(toolPlan script).items] := by
      rw [groups, ← Plan.restoring, restores, sorted]
      rfl
    rw [Restorer.apply, Restorer.applyIn, grouped, confirmed]
    simp [Plan.isEmpty, toolPlan, toolRun]
  have differ : ¬ List.Forall₂ Item.Same (toolPlan "x").items (toolPlan "#!").items := by
    rw [(same one).1]
    intro h
    have flag := (List.forall₂_cons.1 h).1.executable (by decide +kernel)
    revert flag
    decide +kernel
  exact ⟨_, _, _, _, planned "x", planned "#!", one, differ, applied "x" (by decide +kernel) rfl,
    applied "#!" (by decide +kernel) one, by decide +kernel, by decide +kernel⟩

end Restore
end Attic
