import Attic.Proofs.Archive.Journaled
import Attic.Proofs.Restore.Agreement
import Mathlib

/-!
# Copies that last

Where the ledger is in memory and holds nothing but what has been archived, the copy
of an entry tells its script, so that two active entries never have one copy. A run
of items puts scripts where nothing is and takes away only the copies of entries that
it marks. A batch moves scripts to where nothing is; the one way in which it takes
the copy of an active entry is to archive that copy.

Key definitions: `Ledger.Entry.Dated`, `Session.Orderly`, `Session.Restorable`,
`Session.Passes`.
Key theorems: `Ledger.Entry.Dated.original_eq`, `Archive.archive_halted`,
`Session.runItem_passes`, `Session.archive_orderly`, `Session.archive_restorable_iff`.
-/

namespace Attic

namespace Ledger

variable {e e' : Entry}

/-- An entry whose copy lies in a folder beside its script and is named after it and
a day. -/
def Entry.Dated (e : Entry) : Prop :=
  ∃ ns n d day k, (∀ m ∈ ns, Path.IsName m) ∧ Path.IsName n ∧ Path.IsName d ∧
    e.original = .ofNames (ns ++ [n]) ∧ e.archive = Archive.candidate d e.original day k

namespace Entry.Dated

theorem normal (h : e.Dated) : e.Normal := by
  obtain ⟨ns, n, d, day, k, hns, hn, hd, original, archive⟩ := h
  rw [original, Archive.candidate_ofNames hns hn hd] at archive
  refine ⟨?_, ?_⟩
  · rw [original]
    exact Path.ofNames_isNormal (Path.isName_concat hns hn)
  · rw [archive]
    exact Path.ofNames_isNormal
      (Path.isName_pair hns hd (Archive.candidateName_isName hns hn day k))

theorem differ (h : e.Dated) : e.original ≠ e.archive := by
  obtain ⟨ns, n, d, day, k, hns, hn, hd, original, archive⟩ := h
  rw [original, Archive.candidate_ofNames hns hn hd] at archive
  intro same
  have names := congrArg Path.names? (original.symm.trans (same.trans archive))
  rw [Path.names?_ofNames (Path.isName_concat hns hn), Path.names?_ofNames
    (Path.isName_pair hns hd (Archive.candidateName_isName hns hn day k))] at names
  simp at names

/-- **A copy tells its script.** -/
theorem original_eq (h : e.Dated) (h' : e'.Dated) (same : e.archive = e'.archive) :
    e.original = e'.original := by
  obtain ⟨ns, n, d, day, k, hns, hn, hd, original, archive⟩ := h
  obtain ⟨ms, m, d', day', k', hms, hm, hd', original', archive'⟩ := h'
  rw [original, Archive.candidate_ofNames hns hn hd] at archive
  rw [original', Archive.candidate_ofNames hms hm hd'] at archive'
  have names := congrArg Path.names? (archive.symm.trans (same.trans archive'))
  rw [Path.names?_ofNames
      (Path.isName_pair hns hd (Archive.candidateName_isName hns hn day k)),
    Path.names?_ofNames
      (Path.isName_pair hms hd' (Archive.candidateName_isName hms hm day' k'))] at names
  obtain ⟨rfl, last⟩ := List.append_inj' (Option.some.inj names) rfl
  simp only [List.cons.injEq, and_true] at last
  rw [original, original', Archive.candidateName_script hns hn hms hm last.2]

end Entry.Dated
end Ledger

namespace Archive

open Ledger (Entry Store)

variable {q : Request} {root : Path} {r : Repository}

/-- **A request in a tree without links** changes nothing, or archives the first scripts
of a batch. -/
theorem archive_halted (plain : r.tree.Plain) (hd : Path.IsName q.dirName) (paths : List Path)
    (dryRun : Bool) :
    (archive q .memory paths dryRun r).2 = r ∧ recorded q .memory paths dryRun r = [] ∨
      ∃ base tried, Halted q base (recorded q .memory paths dryRun r) tried r
        (archive q .memory paths dryRun r).2 := by
  rcases archive_ready plain hd .memory paths dryRun with
    ⟨same, none, -⟩ | ⟨active, planned, base, asked, ready, after, new, -⟩
  · exact .inl ⟨same, none⟩
  obtain rfl : r.entries.filter Entry.isActive = active := Except.ok.inj asked
  have entries := stepEach_entries q.root planned r
  rw [after, new]
  refine .inr ⟨base, ?_⟩
  cases done : stepEach (commitEntry q.root .memory) planned r with
  | mk result r' =>
  rw [done] at entries
  cases result with
  | ok =>
    have halted := ready.halted plain Store.memory_reluctant done
    rw [halted.entries] at entries
    exact ⟨planned, List.append_cancel_left entries ▸ halted⟩
  | error f =>
    obtain ⟨k, e, -, -, halted⟩ := commit_error ready plain Store.memory_reluctant done
    rw [halted.entries] at entries
    exact ⟨_, List.append_cancel_left entries ▸ halted⟩

end Archive

namespace Session

open Archive (Request archive recorded)
open Ledger (Entry Keeper Single Store)
open Restore (Follows Item Reading Restorer runItem runItems)

variable {root : Path} {base l : Location} {r r' r'' : Repository} {e a : Entry} {i : Item}
variable {es es' : List Entry} {files : List (Except Tree.Fault (Nat × ByteArray))}
variable {categories : Order.Table String} {now : Timestamp} {q : Request} {mode : Nat}
variable {bytes : ByteArray}

/-- A repository without links in which the ledger holds what has been archived. -/
structure Orderly (root : Path) (base : Location) (r : Repository) : Prop where
  plain : r.tree.Plain
  rooted : r.entries ≠ [] → r.tree.reach [] (Tree.steps root.text) = some base
  dated : ∀ e ∈ r.entries, e.Dated
  single : Single r.entries

/-- Whether the copy of each active entry is a file with the permissions and bytes that
the script had; `files` says for each entry what these were. -/
def Restorable (root : Path) (files : List (Except Tree.Fault (Nat × ByteArray)))
    (r : Repository) : Prop :=
  ∀ (n : Nat) (e : Entry), r.entries[n]? = some e → e.isActive = true →
    ∃ mode bytes, files[n]? = some (.ok (mode, bytes)) ∧
      r.tree.readFile (root.join e.archive) = .ok (mode, bytes)

/-- Whether a ledger has or had an entry that an item restores. -/
def Listed (es : List Entry) (i : Item) : Prop :=
  ∃ e ∈ es, e.original = i.entry.original ∧ e.archive = i.entry.archive

/-- Active entries of an orderly repository do not share a copy. -/
theorem Orderly.apart (h : Orderly root base r) {n m : Nat} {d : Entry}
    (there : r.entries[n]? = some d) (there' : r.entries[m]? = some e) (active : d.isActive = true)
    (active' : e.isActive = true) (same : d.archive = e.archive) : n = m := by
  have original := (h.dated d (List.mem_of_getElem? there)).original_eq
    (h.dated e (List.mem_of_getElem? there')) same
  refine h.single n m d e d.original there there' (Ledger.isActiveOf_original active) ?_
  rw [original]
  exact Ledger.isActiveOf_original active'

/-- The root of an orderly repository may be looked up again. -/
theorem Orderly.at_base (h : Orderly root base r)
    (rooted : r.tree.reach [] (Tree.steps root.text) = some l) : Orderly root l r :=
  ⟨h.plain, fun _ => rooted, h.dated, h.single⟩

/-- The place of the copy of an active entry holds a file that has its own place in the
tree. -/
theorem Orderly.readFile_iff (h : Orderly root base r) (he : e ∈ r.entries) :
    r.tree.readFile (root.join e.archive) = .ok (mode, bytes) ↔
      Tree.Nameable root e.archive ∧
        r.tree.get? (Tree.placeBelow base e.archive) = some (.file mode bytes) :=
  Tree.readFile_normal h.plain (h.rooted (List.ne_nil_of_mem he)) (h.dated e he).normal.archive

/-- A copy stays what it is where its place keeps what it holds. -/
theorem Orderly.copy_kept (h : Orderly root base r) (h' : Orderly root base r')
    (he : e ∈ r.entries) (he' : e ∈ r'.entries)
    (copy : r.tree.readFile (root.join e.archive) = .ok (mode, bytes))
    (grows : Tree.Nameable root e.archive →
      r.tree.get? (Tree.placeBelow base e.archive) = some (.file mode bytes) →
        r.tree.GrowsAt r'.tree (Tree.placeBelow base e.archive)) :
    r'.tree.readFile (root.join e.archive) = .ok (mode, bytes) := by
  obtain ⟨nameable, held⟩ := (h.readFile_iff he).1 copy
  exact (h'.readFile_iff he').2 ⟨nameable, (grows nameable held).keeps held⟩

/-! ### Items -/

/-- What carrying out items does to a repository whose ledger is in memory. -/
structure Passes (root : Path) (base : Location) (r r' : Repository) : Prop where
  orderly : Orderly root base r'
  length : r'.entries.length = r.entries.length
  listed : ∀ i, Listed r.entries i → Listed r'.entries i
  restorable : ∀ files, Restorable root files r → Restorable root files r'

theorem Passes.refl (h : Orderly root base r) : Passes root base r r :=
  ⟨h, rfl, fun _ => id, fun _ => id⟩

theorem Passes.trans (h : Passes root base r r') (h' : Passes root base r' r'') :
    Passes root base r r'' where
  orderly := h'.orderly
  length := h'.length.trans h.length
  listed i hi := h'.listed i (h.listed i hi)
  restorable files all := h'.restorable files (h.restorable files all)

/-- The item of an entry that is or was in the ledger has its own places. -/
theorem Listed.fit (h : Orderly root base r) (listed : Listed r.entries i) :
    i.Fit (Keeper.own Keeper.memory) base := by
  obtain ⟨e, he, original, archive⟩ := listed
  have dated := h.dated e he
  refine ⟨?_, ?_, ?_, id, id⟩
  · rw [Item.target, ← original]
    exact dated.normal.original
  · rw [← archive]
    exact dated.normal.archive
  · rw [Item.target, ← original, ← archive]
    exact dated.differ

/-- A mark changes no path of the ledger. -/
theorem markFirst?_paths {moment : Timestamp} {p : Path}
    (h : Ledger.markFirst? p moment es = some es') : es'.length = es.length ∧
      (∀ e ∈ es', ∃ d ∈ es, d.original = e.original ∧ d.archive = e.archive) ∧
      ∀ d ∈ es, ∃ e ∈ es', d.original = e.original ∧ d.archive = e.archive := by
  obtain ⟨j, d, there, -, rfl⟩ := Ledger.markFirst?_eq_some h
  refine ⟨List.length_set, fun e he => ?_, fun e he => ?_⟩
  · rcases List.mem_or_eq_of_mem_set he with he | rfl
    · exact ⟨e, he, rfl, rfl⟩
    · exact ⟨d, List.mem_of_getElem? there, rfl, rfl⟩
  · obtain ⟨n, hn, rfl⟩ := List.mem_iff_getElem.1 he
    by_cases same : j = n
    · subst same
      obtain rfl := Option.some.inj ((List.getElem?_eq_getElem hn).symm.trans there)
      exact ⟨_, List.mem_iff_getElem.2 ⟨j, by simpa using hn, List.getElem_set_self _⟩, rfl, rfl⟩
    · exact ⟨_, List.mem_iff_getElem.2 ⟨n, by simpa using hn, List.getElem_set_ne same _⟩, rfl, rfl⟩

/-- What is active after a mark was so before, and is not the entry that has been marked. -/
theorem markFirst?_active {moment : Timestamp} {p : Path}
    (h : Ledger.markFirst? p moment es = some es') :
    ∃ (j : Nat) (d : Entry), es[j]? = some d ∧ d.isActiveOf p = true ∧
      ∀ (n : Nat) (e : Entry), es'[n]? = some e → e.isActive = true →
        es[n]? = some e ∧ n ≠ j := by
  obtain ⟨j, d, marked, active, rfl⟩ := Ledger.markFirst?_eq_some h
  refine ⟨j, d, marked, active, fun n e there activeE => ?_⟩
  by_cases same : n = j
  · subst same
    have short : n < es.length := (List.getElem?_eq_some_iff.1 marked).1
    rw [List.getElem?_set_self short] at there
    rw [← Option.some.inj there] at activeE
    simp [Entry.restore, Entry.isActive] at activeE
  · rw [List.getElem?_set_ne (Ne.symm same)] at there
    exact ⟨there, same⟩

/-- Folders that come do no harm. -/
theorem Passes.of_grows (h : Orderly root base r) (plain : r'.tree.Plain)
    (rooted : r'.tree.reach [] (Tree.steps root.text) = some base) (keeps : r'.entries = r.entries)
    (grows : r.tree.Grows r'.tree) : Passes root base r r' := by
  have orderly : Orderly root base r' :=
    ⟨plain, fun _ => rooted, by rw [keeps]; exact h.dated, by rw [keeps]; exact h.single⟩
  refine ⟨orderly, by rw [keeps], by rw [keeps]; exact fun _ => id,
    fun files all n e there active => ?_⟩
  have he' := List.mem_of_getElem? there
  rw [keeps] at there
  obtain ⟨mode, bytes, was, copy⟩ := all n e there active
  exact ⟨mode, bytes, was,
    h.copy_kept orderly (List.mem_of_getElem? there) he' copy fun _ _ => grows _⟩

/-- A ledger in which an entry has been marked is as orderly as before. -/
theorem Orderly.mark (h : Orderly root base r) (plain : r'.tree.Plain)
    (rooted : r'.tree.reach [] (Tree.steps root.text) = some base) {p : Path}
    (marked : Ledger.markFirst? p now r.entries = some r'.entries) : Orderly root base r' := by
  refine ⟨plain, fun _ => rooted, fun e he => ?_, h.single.mark marked⟩
  obtain ⟨d, hd, original, archive⟩ := (markFirst?_paths marked).2.1 e he
  have dated := h.dated d hd
  rwa [Entry.Dated, original, archive] at dated

/-- An entry that is still active when that of an item has been marked has another copy. -/
theorem Orderly.archive_ne (h : Orderly root base r) (listed : Listed r.entries i)
    (marked : Ledger.markFirst? i.target now r.entries = some es') {n : Nat}
    (there : es'[n]? = some e) (active : e.isActive = true) :
    r.entries[n]? = some e ∧ e.archive ≠ i.entry.archive := by
  obtain ⟨j, d, thereD, activeD, others⟩ := markFirst?_active marked
  obtain ⟨before, differ⟩ := others n e there active
  refine ⟨before, fun same => differ ?_⟩
  -- an entry with the same copy has the path that has been marked
  obtain ⟨c, hc, original, archive⟩ := listed
  have script := (h.dated e (List.mem_of_getElem? before)).original_eq (h.dated c hc)
    (same.trans archive.symm)
  refine h.single n j e d i.target before thereD ?_ activeD
  rw [Item.target, ← original, ← script]
  exact Ledger.isActiveOf_original active

/-- **An item leaves every copy that an active entry needs.** -/
theorem runItem_passes (h : Orderly root base r) (listed : Listed r.entries i)
    (valid : now.isValid = true) (late : Bool) :
    Passes root base r (runItem ⟨root, categories, .memory⟩ now late i r).2 := by
  have rooted := h.rooted (by
    obtain ⟨e, he, -⟩ := listed
    exact List.ne_nil_of_mem he)
  have fit := listed.fit h
  have follows : Follows (s := ⟨root, categories, .memory⟩) Keeper.memory base r r.entries :=
    ⟨h.plain, rooted, rfl⟩
  rcases Restore.runItem_effect fit valid late follows with
    ⟨-, after, grows⟩ | ⟨es', outcome, after, restores⟩
  · exact .of_grows h after.plain after.rooted after.keeps grows
  obtain rfl : (runItem ⟨root, categories, .memory⟩ now late i r).2.entries = es' := after.keeps
  have marked := restores.marked
  obtain ⟨length, -, paths⟩ := markFirst?_paths marked
  have orderly := h.mark after.plain after.rooted marked
  refine ⟨orderly, length, fun j ⟨d, hd, original, archive⟩ => ?_,
    fun files all n e there active => ?_⟩
  · obtain ⟨e, he, original', archive'⟩ := paths d hd
    exact ⟨e, he, original'.symm.trans original, archive'.symm.trans archive⟩
  · obtain ⟨before, differ⟩ := h.archive_ne listed marked there active
    obtain ⟨mode, bytes, was, copy⟩ := all n e before active
    have he := List.mem_of_getElem? before
    refine ⟨mode, bytes, was, h.copy_kept orderly he (List.mem_of_getElem? there) copy
      fun _ held => restores.elsewhere _ ?_ ?_ id⟩
    · intro same
      rw [same, Restore.runItem_vacant fit late follows outcome] at held
      simp at held
    · exact Tree.placeBelow_ne (h.dated e he).normal.archive fit.archive differ

theorem runItems_passes {clock : Item → Reading} (times : ∀ i, (clock i).now.isValid = true) :
    ∀ {is : List Item} {r : Repository}, Orderly root base r → (∀ i ∈ is, Listed r.entries i) →
      Passes root base r (runItems ⟨root, categories, .memory⟩ clock is r).2
  | [], _, h, _ => .refl h
  | i :: is, r, h, listed => by
    have first : Passes root base r
        (runItem ⟨root, categories, .memory⟩ (clock i).now (clock i).late i r).2 :=
      runItem_passes h (listed i List.mem_cons_self) (times i) (clock i).late
    exact first.trans (runItems_passes times first.orderly fun j hj =>
      first.listed j (listed j (List.mem_cons_of_mem _ hj)))

/-! ### Batches -/

/-- The entry of a script that has been planned tells its script. -/
theorem dated_of_planned {t : Tree} {active : List Entry} (hd : Path.IsName q.dirName)
    (h : Archive.Planned q t active e) : e.Dated := by
  obtain ⟨ns, n, k, hns, hn, original, archive⟩ := h.names
  exact ⟨ns, n, q.dirName, q.now.date, k, hns, hn, hd, original, archive⟩

section

variable {tried : List Entry} (h : Orderly q.root base r) (h' : Orderly q.root base r')
variable (halted : Archive.Halted q base es tried r r')

include h h' halted

/-- A copy that has been archived is gone. -/
theorem halted_spares (kept : Restorable q.root files r') :
    ∀ e ∈ es, ∀ a ∈ r.entries, a.isActive = true → a.archive.same e.original = false := by
  intro e he a ha active
  by_contra same
  have normal := (halted.sited e he).nameable.normal
  have script : a.archive = e.original :=
    (h.dated a ha).normal.archive.eq_of_same normal (by simpa using same)
  obtain ⟨n, short, rfl⟩ := List.mem_iff_getElem.1 ha
  have there' : r'.entries[n]? = some r.entries[n] := by
    rw [halted.entries, List.getElem?_append_left short, List.getElem?_eq_getElem short]
  obtain ⟨mode, bytes, -, copy⟩ := kept n _ there' active
  have held := ((h'.readFile_iff (List.mem_of_getElem? there')).1 copy).2
  rw [script, halted.committed.gone e he] at held
  simp at held

/-- Where no copy is archived, those of the old entries stay and those of the new ones
have come. -/
theorem halted_restorable (length : files.length = r.entries.length)
    (all : Restorable q.root files r)
    (spares : ∀ e ∈ es, ∀ a ∈ r.entries, a.isActive = true → a.archive.same e.original = false) :
    Restorable q.root
      (files ++ es.map fun e => r.tree.readFile (q.root.join e.original)) r' := by
  intro n e there active
  have inside := List.mem_of_getElem? there
  rw [halted.entries] at there
  by_cases short : n < r.entries.length
  · rw [List.getElem?_append_left short] at there
    have he := List.mem_of_getElem? there
    obtain ⟨mode, bytes, was, copy⟩ := all n e there active
    refine ⟨mode, bytes, by rw [List.getElem?_append_left (length ▸ short), was],
      h.copy_kept h' he inside copy fun nameable held =>
        halted.committed.grows _ fun j hj => ⟨?_, ?_⟩⟩
    · refine Tree.placeBelow_ne nameable.normal (halted.sited j hj).nameable.normal fun same => ?_
      have other := spares j hj e he active
      rw [same, Path.same_refl] at other
      exact Bool.noConfusion other
    · intro same
      rw [same, halted.free hj] at held
      simp at held
  · rw [List.getElem?_append_right (by omega)] at there
    obtain ⟨mode, bytes, script, copy⟩ := halted.exists_file (List.mem_of_getElem? there)
    refine ⟨mode, bytes, ?_, copy⟩
    rw [List.getElem?_append_right (by omega), length, List.getElem?_map, there, Option.map_some,
      script]

end

section

variable (h : Orderly q.root base r) (hd : Path.IsName q.dirName)
variable (paths : List Path) (dryRun : Bool)

include h hd

/-- A request leaves a repository orderly, and its entries come behind the others. -/
theorem archive_orderly (timed : q.now.isValid = true) :
    (∃ base', Orderly q.root base' (archive q .memory paths dryRun r).2) ∧
      (archive q .memory paths dryRun r).2.entries =
        r.entries ++ recorded q .memory paths dryRun r := by
  have single := ((Archive.archive_course timed paths dryRun r).keeps
    Ledger.Store.memory_preserves (fun _ _ _ => id) h.single).1
  rcases Archive.archive_halted h.plain hd paths dryRun with ⟨same, none⟩ | ⟨base', tried, halted⟩
  · rw [same, none, List.append_nil]
    exact ⟨⟨base, h⟩, rfl⟩
  refine ⟨⟨base', halted.plain₁, fun _ => halted.rooted₁, fun e he => ?_, single⟩, halted.entries⟩
  rw [halted.entries] at he
  rcases List.mem_append.1 he with he | he
  · exact h.dated e he
  · exact dated_of_planned hd (halted.planned e he)

/-- **A request keeps the copies that active entries need exactly if it archives none of
them.** The scripts that it archives are among the copies from then on. -/
theorem archive_restorable_iff (timed : q.now.isValid = true)
    (length : files.length = r.entries.length) (all : Restorable q.root files r) :
    Restorable q.root
        (files ++ (recorded q .memory paths dryRun r).map fun e =>
          r.tree.readFile (q.root.join e.original))
        (archive q .memory paths dryRun r).2 ↔
      ∀ e ∈ recorded q .memory paths dryRun r, ∀ a ∈ r.entries, a.isActive = true →
        a.archive.same e.original = false := by
  obtain ⟨⟨base', after⟩, -⟩ := archive_orderly h hd paths dryRun timed
  rcases Archive.archive_halted h.plain hd paths dryRun with ⟨same, none⟩ | ⟨k, tried, halted⟩
  · rw [same, none]
    simpa using all
  · have here := h.at_base halted.rooted
    have there := after.at_base halted.rooted₁
    exact ⟨fun kept => halted_spares here there halted kept,
      fun spares => halted_restorable here there halted length all spares⟩

end

end Session
end Attic
