import Attic.Catalog.Document
import Attic.Proofs.Json.Tidy
import Attic.Proofs.Path.Names
import Mathlib

/-!
# What a catalog document declares

The shape of a document is stated here as a relation between values and what they
declare: an implementation is a text or `null`; a pipeline is an object of a shell entry
and, maybe, of commands, or a list of the two. A document is flattened just if it has
this shape and all its paths lead to places in the repository. There is then one command
for each that is declared, in order, with its paths in normal form.

Key definitions: `Catalog.IsPipeline`, `Catalog.Declares`, `Path.PlacedAt`,
`Catalog.declared`, `Catalog.Placed`.
Key theorems: `Catalog.readPipelines_iff`, `Catalog.flatten_iff`,
`Catalog.ascends_declared`, `Catalog.pipelineCount_declared`, `Catalog.flatten_exact`.
-/

namespace Attic

open Attic.Order (Ascends Table)

/-! ### Lists of results -/

section

variable {α β ε : Type}

theorem mapM_eq_ok {f : α → Except ε β} : ∀ {l : List α} {bs : List β},
    l.mapM f = .ok bs ↔ List.Forall₂ (fun a b => f a = .ok b) l bs
  | [], bs => by
    rw [List.mapM_nil, List.forall₂_nil_left_iff]
    simp [pure, Except.pure, eq_comm]
  | a :: l, bs => by
    have steps : (a :: l).mapM f = .ok bs ↔
        ∃ b cs, f a = .ok b ∧ l.mapM f = .ok cs ∧ bs = b :: cs := by
      rw [List.mapM_cons]
      cases f a with
      | error e => simp [bind, Except.bind]
      | ok b => cases l.mapM f <;> simp [bind, Except.bind, pure, Except.pure, eq_comm]
    simp only [steps, mapM_eq_ok (l := l), List.forall₂_cons_left_iff]

theorem forall₂_append_left_iff {r : α → β → Prop} : ∀ {l l' : List α} {bs : List β},
    List.Forall₂ r (l ++ l') bs ↔
      ∃ cs ds, List.Forall₂ r l cs ∧ List.Forall₂ r l' ds ∧ cs ++ ds = bs
  | [], l', bs => by simp
  | a :: l, l', bs => by
    simp only [List.cons_append, List.forall₂_cons_left_iff, forall₂_append_left_iff (l := l)]
    constructor
    · rintro ⟨b, -, hb, ⟨cs, ds, hl, hl', rfl⟩, rfl⟩
      exact ⟨b :: cs, ds, ⟨b, cs, hb, hl, rfl⟩, hl', rfl⟩
    · rintro ⟨-, ds, ⟨b, cs, hb, hl, rfl⟩, hl', rfl⟩
      exact ⟨b, cs ++ ds, hb, ⟨cs, ds, hl, hl', rfl⟩, rfl⟩

/-- A list is related to another just if each of its elements is related to one. -/
theorem exists_forall₂_iff {r : α → β → Prop} : ∀ {l : List α},
    (∃ bs, List.Forall₂ r l bs) ↔ ∀ a ∈ l, ∃ b, r a b
  | [] => by simp
  | a :: l => by
    rw [List.forall_mem_cons, ← exists_forall₂_iff (l := l)]
    simp only [List.forall₂_cons_left_iff]
    constructor
    · rintro ⟨-, b, bs, hb, hl, rfl⟩
      exact ⟨⟨b, hb⟩, bs, hl⟩
    · rintro ⟨⟨b, hb⟩, bs, hl⟩
      exact ⟨b :: bs, b, bs, hb, hl, rfl⟩

end

namespace Catalog

variable {α : Type} {v : Json.Value} {ms : Table Json.Value}
variable {commands : Table (Option Path)} {ds : Table Pipeline} {d : Pipeline}
variable {cs l l' : List Command} {c : Command} {p q : Path} {n owner : String}

/-! ### The declared shape -/

/-- The path of an implementation, or `null` where there is none. -/
inductive IsImplementation : Json.Value → Option Path → Prop where
  | null : IsImplementation .null none
  | text (s : String) : IsImplementation (.text s) (some ⟨s⟩)

/-- Members and what they declare, each under its name. -/
def IsMembers (Is : Json.Value → α → Prop) (ms : Table Json.Value) (as : Table α) : Prop :=
  List.Forall₂ (fun m a => m.1 = a.1 ∧ Is m.2 a.2) ms as

/-- The commands of a pipeline, which may be left out. -/
inductive IsCommands : Option Json.Value → Table (Option Path) → Prop where
  | absent : IsCommands none []
  | object {ms : Table Json.Value} {commands : Table (Option Path)}
      (members : IsMembers IsImplementation ms commands) :
      IsCommands (some (.object ms)) commands

/-- A pipeline, by the names of its fields or in their order. -/
inductive IsPipeline : Json.Value → Pipeline → Prop where
  | object {ms : Table Json.Value} {shell : String} {commands : Table (Option Path)}
      (known : ∀ m ∈ ms, m.1 = "shell" ∨ m.1 = "commands")
      (entry : ms.lookup "shell" = some (.text shell))
      (listed : IsCommands (ms.lookup "commands") commands) :
      IsPipeline (.object ms) ⟨⟨shell⟩, commands⟩
  | list {shell : String} {rest : List Json.Value} {commands : Table (Option Path)}
      (short : rest.length ≤ 1) (listed : IsCommands rest.head? commands) :
      IsPipeline (.list (.text shell :: rest)) ⟨⟨shell⟩, commands⟩

/-- A document and the pipelines that it declares. -/
inductive Declares : Json.Value → Table Pipeline → Prop where
  | object {ms : Table Json.Value} {ds : Table Pipeline} (members : IsMembers IsPipeline ms ds) :
      Declares (.object ms) ds

theorem readPath_iff : readPath v = .ok p ↔ v = .text p.text := by
  cases v with
  | text s =>
    simp only [readPath, Except.ok.injEq, Json.Value.text.injEq]
    exact ⟨fun h => h ▸ rfl, fun h => h ▸ rfl⟩
  | _ => simp [readPath]

theorem readPath?_iff {implementation : Option Path} :
    readPath? v = .ok implementation ↔ IsImplementation v implementation := by
  constructor
  · intro h
    cases v with
    | null =>
      obtain rfl := Except.ok.inj h
      exact .null
    | text s =>
      obtain rfl := Except.ok.inj h
      exact .text s
    | _ => simp [readPath?, readPath, Except.map] at h
  · rintro (_ | _) <;> rfl

theorem readMembers_iff {read : Json.Value → Except ShapeFault α} {Is : Json.Value → α → Prop} :
    ∀ {ms : Table Json.Value} {as : Table α},
      (∀ m ∈ ms, ∀ a, read m.2 = .ok a ↔ Is m.2 a) →
      (readMembers read ms = .ok as ↔ IsMembers Is ms as)
  | [], as, _ => by simp [readMembers, IsMembers, eq_comm]
  | (name, v) :: ms, as, h => by
    obtain ⟨first, others⟩ := List.forall_mem_cons.1 h
    have rest {bs : Table α} : readMembers read ms = .ok bs ↔ IsMembers Is ms bs :=
      readMembers_iff others
    rw [readMembers, IsMembers, List.forall₂_cons_left_iff]
    constructor
    · intro done
      split at done
      · simp at done
      · next a ok =>
        obtain ⟨bs, hbs, rfl⟩ := map_eq_ok.1 done
        exact ⟨(name, a), bs, ⟨rfl, (first a).1 ok⟩, rest.1 hbs, rfl⟩
    · rintro ⟨⟨-, a⟩, bs, ⟨rfl, is⟩, hbs, rfl⟩
      rw [(first a).2 is]
      exact map_eq_ok.2 ⟨bs, rest.2 hbs, rfl⟩

theorem readCommands_iff : readCommands v = .ok commands ↔ IsCommands (some v) commands := by
  have members {ms : Table Json.Value} : readMembers readPath? ms = .ok commands ↔
      IsMembers IsImplementation ms commands := readMembers_iff fun _ _ _ => readPath?_iff
  constructor
  · intro h
    cases v with
    | object ms => exact .object (members.1 h)
    | _ => simp [readCommands] at h
  · intro h
    cases h with
    | object h => exact members.2 h

/-- What the members of a pipeline come to where no name is given twice: each field is
what its member says, or what it was. -/
theorem readPipelineMembers_iff : ∀ {ms : Table Json.Value} {shell : Option Path}
    {listed : Table (Option Path)}, Ascends Prod.fst ms →
    (readPipelineMembers (shell, listed) ms = .ok d ↔
      (∀ m ∈ ms, m.1 = "shell" ∨ m.1 = "commands") ∧
      (ms.lookup "shell").elim (shell = some d.shell) (fun v => readPath v = .ok d.shell) ∧
      (ms.lookup "commands").elim (listed = d.commands) fun v => readCommands v = .ok d.commands)
  | [], shell, listed, _ => by
    cases shell with
    | none => simp [readPipelineMembers]
    | some p =>
      simp only [readPipelineMembers, Except.ok.injEq]
      constructor
      · rintro rfl
        simp
      · rintro ⟨-, shell, commands⟩
        obtain rfl := Option.some.inj shell
        obtain rfl : listed = d.commands := commands
        rfl
  | (name, v) :: ms, shell, listed, up => by
    obtain ⟨low, up'⟩ := List.pairwise_cons.1 up
    have again : ms.lookup name = none :=
      List.lookup_eq_none_iff.2 fun m hm => by simpa using (low m hm).ne
    rw [readPipelineMembers, List.forall_mem_cons]
    split_ifs with first second
    · subst first
      split
      · next f broken => simp [broken, List.lookup]
      · next p read =>
        rw [readPipelineMembers_iff up', again]
        simp [read, List.lookup]
    · subst second
      split
      · next f broken => simp [broken, List.lookup]
      · next t read =>
        rw [readPipelineMembers_iff up', again]
        simp [read, List.lookup]
    · simp [first, second]

theorem entry_iff {w : Option Json.Value} :
    (w.elim (none = some p) fun v => readPath v = .ok p) ↔ w = some (.text p.text) := by
  cases w with
  | none => simp
  | some v => exact readPath_iff.trans (Option.some.injEq _ _).symm.to_iff

theorem listed_iff {w : Option Json.Value} :
    (w.elim ([] = commands) fun v => readCommands v = .ok commands) ↔ IsCommands w commands := by
  cases w with
  | none =>
    constructor
    · rintro rfl
      exact .absent
    · rintro ⟨⟩
      rfl
  | some v => exact readCommands_iff

theorem readPipeline_object_iff (up : Ascends Prod.fst ms) :
    readPipeline (.object ms) = .ok d ↔ IsPipeline (.object ms) d := by
  rw [readPipeline, readPipelineMembers_iff up, entry_iff, listed_iff]
  constructor
  · rintro ⟨known, entry, listed⟩
    exact .object known entry listed
  · rintro ⟨known, entry, listed⟩
    exact ⟨known, entry, listed⟩

theorem readPipeline_list_iff {items : List Json.Value} :
    readPipeline (.list items) = .ok d ↔ IsPipeline (.list items) d := by
  constructor
  · intro h
    match items with
    | [] => simp [readPipeline] at h
    | [shell] =>
      obtain ⟨p, entry, rfl⟩ := map_eq_ok.1 h
      rw [readPath_iff.1 entry]
      exact .list (Nat.zero_le _) .absent
    | shell :: commands :: rest =>
      rw [readPipeline] at h
      split at h
      · simp at h
      · simp at h
      · next p t entry listed =>
        split_ifs at h with last
        obtain rfl := Except.ok.inj h
        rw [readPath_iff.1 entry, List.isEmpty_iff.1 last]
        exact .list le_rfl (readCommands_iff.1 listed)
  · intro h
    cases h with
    | @list shell rest commands short listed =>
      match rest with
      | [] =>
        cases listed
        rfl
      | [w] =>
        have read := readCommands_iff.2 listed
        simp only [readPipeline, readPath, read]
        rfl

/-- **A pipeline is read just if it has the declared shape.** -/
theorem readPipeline_iff (tidy : v.Tidy) : readPipeline v = .ok d ↔ IsPipeline v d := by
  cases tidy with
  | object up _ => exact readPipeline_object_iff up
  | list _ => exact readPipeline_list_iff
  | _ =>
    simp only [readPipeline, reduceCtorEq, false_iff]
    rintro ⟨⟩

/-- **A document is read just if it has the declared shape.** -/
theorem readPipelines_iff (tidy : v.Tidy) : readPipelines v = .ok ds ↔ Declares v ds := by
  constructor
  · intro h
    cases tidy with
    | object sorted each =>
      exact .object ((readMembers_iff fun m hm _ => readPipeline_iff (each m hm)).1 h)
    | _ => simp [readPipelines] at h
  · rintro ⟨members⟩
    cases tidy with
    | object sorted each =>
      exact (readMembers_iff fun m hm _ => readPipeline_iff (each m hm)).2 members

theorem Declares.unique (tidy : v.Tidy) {ds' : Table Pipeline} (h : Declares v ds)
    (h' : Declares v ds') : ds = ds' :=
  Except.ok.inj (((readPipelines_iff tidy).2 h).symm.trans ((readPipelines_iff tidy).2 h'))

/-! ### Places in the repository -/

end Catalog

/-- Whether a path leads, by its text, to a place below the root of the repository. -/
def Path.PlacedAt (p q : Path) : Prop := p.normalize? = some q ∧ q.isEmpty = false

theorem Path.PlacedAt.isNormal {p q : Path} (h : p.PlacedAt q) : q.IsNormal :=
  isNormal_of_normalize? h.1

theorem Path.PlacedAt.unique {p q r : Path} (h : p.PlacedAt q) (h' : p.PlacedAt r) : q = r :=
  Option.some.inj (h.1.symm.trans h'.1)

namespace Catalog

theorem repositoryPath_iff : repositoryPath owner p = .ok q ↔ p.PlacedAt q := by
  rw [repositoryPath, Path.PlacedAt]
  constructor
  · intro h
    split at h
    · next r normal =>
      split_ifs at h with empty
      obtain rfl := Except.ok.inj h
      exact ⟨normal, Bool.eq_false_iff.2 empty⟩
    · simp at h
  · rintro ⟨normal, empty⟩
    simp [normal, empty]

/-- The commands that a pipeline declares, with their paths as they are written. -/
def declaredBy (n : String) (d : Pipeline) : List Command :=
  d.commands.map fun e => ⟨n, e.1, d.shell, e.2, none⟩

/-- The commands that pipelines declare, with their paths as they are written. -/
def declared (ds : Table Pipeline) : List Command := ds.flatMap fun d => declaredBy d.1 d.2

/-- A command with the places of its declared paths. -/
structure Placed (declared c : Command) : Prop where
  pipeline : c.pipeline = declared.pipeline
  name : c.name = declared.name
  shell : declared.shell.PlacedAt c.shell
  implementation : Option.Rel Path.PlacedAt declared.implementation c.implementation
  unchecked : c.result = none

theorem flattenCommand_iff {shell : Path} {name : String} {implementation : Option Path}
    (placed : p.PlacedAt shell) :
    flattenCommand n shell name implementation = .ok c ↔
      Placed ⟨n, name, p, implementation, none⟩ c := by
  constructor
  · intro h
    cases implementation with
    | none =>
      obtain rfl := Except.ok.inj h
      exact ⟨rfl, rfl, placed, .none, rfl⟩
    | some i =>
      obtain ⟨q, place, rfl⟩ := map_eq_ok.1 h
      exact ⟨rfl, rfl, placed, .some (repositoryPath_iff.1 place), rfl⟩
  · rintro ⟨rfl, rfl, placed', place, unchecked⟩
    obtain ⟨_, _, _, i, _⟩ := c
    obtain rfl := placed.unique placed'
    obtain rfl : _ = none := unchecked
    cases place with
    | none => rfl
    | some place => exact map_eq_ok.2 ⟨_, repositoryPath_iff.2 place, rfl⟩

theorem flattenPipeline_iff : flattenPipeline n d = .ok cs ↔
    (∃ q, d.shell.PlacedAt q) ∧ List.Forall₂ Placed (declaredBy n d) cs := by
  rw [flattenPipeline, declaredBy, List.forall₂_map_left_iff]
  constructor
  · intro h
    split at h
    · simp at h
    · next shell place =>
      have placed := repositoryPath_iff.1 place
      refine ⟨⟨shell, placed⟩, (mapM_eq_ok.1 h).imp fun e c hc => ?_⟩
      exact (flattenCommand_iff placed).1 hc
  · rintro ⟨⟨shell, placed⟩, each⟩
    rw [repositoryPath_iff.2 placed]
    exact mapM_eq_ok.2 (each.imp fun e c hc => (flattenCommand_iff placed).2 hc)

theorem flattenAll_iff : ∀ {ds : Table Pipeline} {cs : List Command},
    (ds.mapM fun (name, d) => flattenPipeline name d).map List.flatten = .ok cs ↔
      (∀ d ∈ ds, ∃ q, d.2.shell.PlacedAt q) ∧ List.Forall₂ Placed (declared ds) cs
  | [], cs => by simp [declared, Except.map, pure, Except.pure, eq_comm]
  | (n, d) :: ds, cs => by
    have rest {cs : List Command} :
        (ds.mapM fun (name, d) => flattenPipeline name d).map List.flatten = .ok cs ↔
          (∀ d ∈ ds, ∃ q, d.2.shell.PlacedAt q) ∧ List.Forall₂ Placed (declared ds) cs :=
      flattenAll_iff
    simp only [map_eq_ok, mapM_eq_ok, flattenPipeline_iff] at rest
    simp only [map_eq_ok, mapM_eq_ok, List.forall₂_cons_left_iff, List.forall_mem_cons, declared,
      List.flatMap_cons, forall₂_append_left_iff, flattenPipeline_iff]
    constructor
    · rintro ⟨-, ⟨block, blocks, ⟨shell, own⟩, others, rfl⟩, rfl⟩
      obtain ⟨shells, placed⟩ := rest.1 ⟨blocks, others, rfl⟩
      exact ⟨⟨shell, shells⟩, block, blocks.flatten, own, placed, rfl⟩
    · rintro ⟨⟨shell, shells⟩, block, others, own, placed, rfl⟩
      obtain ⟨blocks, each, rfl⟩ := rest.2 ⟨shells, placed⟩
      exact ⟨block :: blocks, ⟨block, blocks, ⟨shell, own⟩, each, rfl⟩, rfl⟩

/-- **A document is flattened into the commands that it declares, at their places.** -/
theorem flatten_iff (tidy : v.Tidy) : flatten v = .ok cs ↔
    ∃ ds, Declares v ds ∧ (∀ d ∈ ds, ∃ q, d.2.shell.PlacedAt q) ∧
      List.Forall₂ Placed (declared ds) cs := by
  rw [flatten]
  cases read : readPipelines v with
  | error f =>
    simp only [reduceCtorEq, false_iff]
    rintro ⟨ds, declares, -⟩
    rw [(readPipelines_iff tidy).2 declares] at read
    simp at read
  | ok ds =>
    have declares := (readPipelines_iff tidy).1 read
    constructor
    · exact fun h => ⟨ds, declares, flattenAll_iff.1 h⟩
    · rintro ⟨ds', declares', h⟩
      obtain rfl := declares.unique tidy declares'
      exact flattenAll_iff.2 h

theorem exists_rel_iff {implementation : Option Path} :
    (∃ place, Option.Rel Path.PlacedAt implementation place) ↔
      ∀ p, implementation = some p → ∃ q, p.PlacedAt q := by
  cases implementation with
  | none => exact iff_of_true ⟨none, .none⟩ nofun
  | some p =>
    constructor
    · rintro ⟨_, place⟩ p given
      obtain rfl := Option.some.inj given
      cases place with
      | some place => exact ⟨_, place⟩
    · intro h
      obtain ⟨q, place⟩ := h p rfl
      exact ⟨some q, .some place⟩

/-- Declared commands have places just if each path that is written has one. -/
theorem exists_placed_iff : (∃ cs, List.Forall₂ Placed l cs) ↔
    ∀ c ∈ l, (∃ q, c.shell.PlacedAt q) ∧ ∀ p, c.implementation = some p → ∃ q, p.PlacedAt q := by
  refine exists_forall₂_iff.trans (forall₂_congr fun c _ => ?_)
  rw [← exists_rel_iff]
  constructor
  · rintro ⟨d, placed⟩
    exact ⟨⟨_, placed.shell⟩, _, placed.implementation⟩
  · rintro ⟨⟨shell, placed⟩, place, places⟩
    exact ⟨⟨c.pipeline, c.name, shell, place, none⟩, rfl, rfl, placed, places, rfl⟩

/-! ### Order and number -/

/-- What commands are listed by. -/
def Command.key (c : Command) : String ×ₗ String := toLex (c.pipeline, c.name)

theorem keys_of_placed (h : List.Forall₂ Placed l cs) : l.map Command.key = cs.map Command.key := by
  rw [← List.forall₂_eq_eq_eq, List.forall₂_map_left_iff, List.forall₂_map_right_iff]
  exact h.imp fun _ _ placed => by rw [Command.key, Command.key, placed.pipeline, placed.name]

/-- What members declare has their order. -/
theorem IsMembers.ascends {Is : Json.Value → α → Prop} {as : Table α} (h : IsMembers Is ms as)
    (up : Ascends Prod.fst ms) : Ascends Prod.fst as := by
  refine up.of_map_eq ?_
  rw [← List.forall₂_eq_eq_eq, List.forall₂_map_left_iff, List.forall₂_map_right_iff]
  exact h.imp fun _ _ both => both.1

theorem IsMembers.exists_mem {Is : Json.Value → α → Prop} {as : Table α} {a : String × α}
    (h : IsMembers Is ms as) (ha : a ∈ as) : ∃ m ∈ ms, Is m.2 a.2 := by
  induction h with
  | nil => simp at ha
  | @cons m b ms as both _ ih =>
    rcases List.mem_cons.1 ha with rfl | ha
    · exact ⟨m, List.mem_cons_self, both.2⟩
    · obtain ⟨m, hm, is⟩ := ih ha
      exact ⟨m, List.mem_cons_of_mem _ hm, is⟩

theorem IsCommands.ascends {given : Option Json.Value} (h : IsCommands given commands)
    (tidy : ∀ w, given = some w → w.Tidy) : Ascends Prod.fst commands := by
  cases h with
  | absent => exact .nil
  | object members =>
    cases tidy _ rfl with
    | object up _ => exact members.ascends up

theorem IsPipeline.ascends (h : IsPipeline v d) (tidy : v.Tidy) : Ascends Prod.fst d.commands := by
  cases h with
  | object _ _ listed =>
    cases tidy with
    | object _ each =>
      refine listed.ascends fun w there => ?_
      obtain ⟨before, after, rfl, -⟩ := List.lookup_eq_some_iff.1 there
      exact each ("commands", w) (List.mem_append_right _ List.mem_cons_self)
  | list _ listed =>
    cases tidy with
    | list each =>
      exact listed.ascends fun w there =>
        each w (List.mem_cons_of_mem _ (List.mem_of_mem_head? there))

/-- The pipelines of a document are declared in order, and so are all commands. -/
theorem ascends_declared (tidy : v.Tidy) (h : Declares v ds) :
    Ascends Prod.fst ds ∧ Ascends Command.key (declared ds) := by
  obtain ⟨members⟩ := h
  cases tidy with
  | object up each =>
    have names := members.ascends up
    refine ⟨names, List.pairwise_flatMap.2 ⟨fun d hd => ?_, ?_⟩⟩
    · obtain ⟨m, hm, is⟩ := members.exists_mem hd
      refine List.pairwise_map.2 ((is.ascends (each m hm)).imp fun lt => ?_)
      exact Prod.Lex.toLex_lt_toLex.2 (.inr ⟨rfl, lt⟩)
    · refine names.imp fun lt c hc e he => ?_
      obtain ⟨_, -, rfl⟩ := List.mem_map.1 hc
      obtain ⟨_, -, rfl⟩ := List.mem_map.1 he
      exact Prod.Lex.toLex_lt_toLex.2 (.inl lt)

theorem pipelineCount_append : ∀ {l l' : List Command},
    (∀ c ∈ l, ∀ d ∈ l', c.pipeline ≠ d.pipeline) →
    pipelineCount (l ++ l') = pipelineCount l + pipelineCount l'
  | [], l', _ => by simp [pipelineCount]
  | [c], [], _ => rfl
  | [c], d :: l', apart => by
    have other : c.pipeline ≠ d.pipeline := apart c List.mem_cons_self d List.mem_cons_self
    rw [List.singleton_append, pipelineCount, pipelineCount, if_neg other]
  | c :: d :: l, l', apart => by
    have ih := pipelineCount_append (l := d :: l) fun c hc => apart c (List.mem_cons_of_mem _ hc)
    rw [List.cons_append, List.cons_append, pipelineCount, pipelineCount, ← List.cons_append, ih,
      Nat.add_assoc]

theorem pipelineCount_same : ∀ {l : List Command}, (∀ c ∈ l, c.pipeline = n) →
    pipelineCount l = if l = [] then 0 else 1
  | [], _ => rfl
  | [c], _ => rfl
  | c :: d :: l, same => by
    obtain ⟨first, others⟩ := List.forall_mem_cons.1 same
    have ih := pipelineCount_same others
    rw [pipelineCount, ih, if_pos (first.trans (others d List.mem_cons_self).symm)]
    simp

theorem pipelineCount_placed : ∀ {l cs : List Command}, List.Forall₂ Placed l cs →
    pipelineCount cs = pipelineCount l
  | _, _, .nil => rfl
  | _, _, .cons _ .nil => rfl
  | _, _, .cons first (.cons second others) => by
    have ih := pipelineCount_placed (.cons second others)
    rw [pipelineCount, pipelineCount, ih, first.pipeline, second.pipeline]

/-- **Of pipelines with different names those with a command are counted.** -/
theorem pipelineCount_declared : ∀ {ds : Table Pipeline}, Ascends Prod.fst ds →
    pipelineCount (declared ds) = ds.countP fun d => d.2.commands ≠ []
  | [], _ => rfl
  | (n, d) :: ds, up => by
    obtain ⟨low, up'⟩ := List.pairwise_cons.1 up
    have own : ∀ c ∈ declaredBy n d, c.pipeline = n := by
      intro c hc
      obtain ⟨e, -, rfl⟩ := List.mem_map.1 hc
      rfl
    have apart : ∀ c ∈ declaredBy n d, ∀ e ∈ declared ds, c.pipeline ≠ e.pipeline := by
      intro c hc e he
      obtain ⟨d', hd', he'⟩ := List.mem_flatMap.1 he
      obtain ⟨e', -, rfl⟩ := List.mem_map.1 he'
      rw [own c hc]
      exact (low d' hd').ne
    have ih := pipelineCount_declared up'
    have split : declared ((n, d) :: ds) = declaredBy n d ++ declared ds := List.flatMap_cons
    rw [split, pipelineCount_append apart, pipelineCount_same own, List.countP_cons, ih, add_comm]
    simp [declaredBy]

/-! ### Catalogs -/

/-- A command with all its paths in normal form. -/
def Command.IsNormal (c : Command) : Prop :=
  c.shell.IsNormal ∧ ∀ p, c.implementation = some p → p.IsNormal

theorem Placed.isNormal {declared c : Command} (h : Placed declared c) : c.IsNormal := by
  refine ⟨h.shell.isNormal, fun p given => ?_⟩
  have place := h.implementation
  rw [given] at place
  generalize declared.implementation = written at place
  cases place with
  | some place => exact place.isNormal

theorem isNormal_of_placed (h : List.Forall₂ Placed l cs) : ∀ c ∈ cs, c.IsNormal := by
  induction h with
  | nil => simp
  | cons placed _ ih => exact List.forall_mem_cons.2 ⟨placed.isNormal, ih⟩

/-- Flattening succeeds just where all that is declared has a place. -/
theorem exists_flatten_iff (tidy : v.Tidy) : (∃ cs, flatten v = .ok cs) ↔
    ∃ ds, Declares v ds ∧ ∀ d ∈ ds, (∃ q, d.2.shell.PlacedAt q) ∧
      ∀ e ∈ d.2.commands, ∀ p, e.2 = some p → ∃ q, p.PlacedAt q := by
  simp only [flatten_iff tidy]
  rw [exists_comm]
  refine exists_congr fun ds => ?_
  rw [exists_and_left, exists_and_left, exists_placed_iff]
  refine and_congr_right fun _ => ?_
  constructor
  · rintro ⟨shells, places⟩ d hd
    refine ⟨shells d hd, fun e he p given => ?_⟩
    have mem : ⟨d.1, e.1, d.2.shell, e.2, none⟩ ∈ declared ds :=
      List.mem_flatMap.2 ⟨d, hd, List.mem_map.2 ⟨e, he, rfl⟩⟩
    exact (places _ mem).2 p given
  · intro h
    refine ⟨fun d hd => (h d hd).1, fun c hc => ?_⟩
    obtain ⟨d, hd, hc⟩ := List.mem_flatMap.1 hc
    obtain ⟨e, he, rfl⟩ := List.mem_map.1 hc
    exact ⟨(h d hd).1, (h d hd).2 e he⟩

/-- What is loaded is in order and has normal paths. -/
theorem load_isNormal {t : Tree} (h : load t p = .ok cs) :
    Ascends Command.key cs ∧ ∀ c ∈ cs, c.IsNormal := by
  unfold load at h
  split at h
  · simp at h
  split at h
  · simp at h
  · next v read =>
    have tidy := Json.tidy_readValue read
    obtain ⟨ds, declares, -, placed⟩ := (flatten_iff tidy).1 h
    exact ⟨(ascends_declared tidy declares).2.of_map_eq (keys_of_placed placed),
      isNormal_of_placed placed⟩

/-- **Flattening is exact.** It succeeds just where a document has the declared shape and
the path of each shell entry and of each implementation leads to a place in the
repository. The commands are then the declared ones, one for each and in order, with
normal paths, and the pipelines that are counted are those with a command. -/
theorem flatten_exact (v : Json.Value) (tidy : v.Tidy) :
    ((∃ cs, flatten v = .ok cs) ↔ ∃ ds, Declares v ds ∧
      ∀ d ∈ ds, (∃ q, d.2.shell.PlacedAt q) ∧
        ∀ e ∈ d.2.commands, ∀ p, e.2 = some p → ∃ q, p.PlacedAt q) ∧
    ∀ cs ds, flatten v = .ok cs → Declares v ds →
      Ascends Command.key cs ∧ List.Forall₂ Placed (declared ds) cs ∧
      (∀ c ∈ cs, c.IsNormal) ∧
      pipelineCount cs = ds.countP fun d => d.2.commands ≠ [] := by
  refine ⟨exists_flatten_iff tidy, fun cs ds flat declares => ?_⟩
  obtain ⟨ds', declares', -, placed⟩ := (flatten_iff tidy).1 flat
  obtain rfl := declares.unique tidy declares'
  obtain ⟨names, up⟩ := ascends_declared tidy declares
  refine ⟨up.of_map_eq (keys_of_placed placed), placed, isNormal_of_placed placed, ?_⟩
  rw [pipelineCount_placed placed, pipelineCount_declared names]

/-- Two pipelines, one of them without commands, with paths that are not in normal form. -/
theorem flatten_exact_two :
    let v : Json.Value := .object [
      ("docs", .object [("commands", .object [("sync", .text "./d//sync.py"), ("wait", .null)]),
        ("shell", .text "./d.sh")]),
      ("media", .list [.text "m/../m.sh"])]
    v.Tidy ∧ ∃ cs, flatten v = .ok cs ∧ Ascends Command.key cs ∧
      cs = [⟨"docs", "sync", ⟨"d.sh"⟩, some ⟨"d/sync.py"⟩, none⟩,
        ⟨"docs", "wait", ⟨"d.sh"⟩, none, none⟩] ∧ pipelineCount cs = 1 := by
  intro v
  have tidy : v.Tidy := by
    simp only [v, Json.Value.tidy_object_iff, Json.Value.tidy_list_iff, List.forall_mem_cons,
      List.not_mem_nil, false_imp_iff, implies_true, and_true, Json.Value.Tidy.text, Json.Value.Tidy.null]
    decide
  have flat : flatten v = .ok [⟨"docs", "sync", ⟨"d.sh"⟩, some ⟨"d/sync.py"⟩, none⟩,
      ⟨"docs", "wait", ⟨"d.sh"⟩, none, none⟩] := by
    rfl
  obtain ⟨ds, declares, -⟩ := (flatten_exact v tidy).1.1 ⟨_, flat⟩
  obtain ⟨up, -, -, -⟩ := (flatten_exact v tidy).2 _ ds flat declares
  exact ⟨tidy, _, flat, up, rfl, rfl⟩

end Catalog
end Attic
