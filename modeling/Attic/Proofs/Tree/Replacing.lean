import Attic.Proofs.Tree.Places
import Attic.Proofs.Tree.Undoing
import Mathlib

/-!
# What a move leaves where it is

A move takes what is at one place, with all that lies below it, to another. In a
tree with links, or where the folder for it is made only then, it need not be seen
before which places these are. What has been in a tree stays as long as both hold
nothing of it, a file, or a link that leads to no folder: everything else is where
it was, and each path leads where it led.

Key definitions: `Tree.carried`, `Tree.arrival?`, `Tree.Lasts`, `Tree.Yields`.
Key theorems: `Tree.dead_of_not_has`, `Tree.get?_relocate_eq`, `Tree.rename_cases`,
`Tree.Lasts.moveFile`.
-/

namespace Attic
namespace Tree

variable {t t₀ t' : Tree} {p q : Path} {l m k here : Location} {target : String}
variable {path : List String} {links links' : Nat} {into must : Bool} {s : Spot} {o : Object}

/-! ### Links that lead nowhere -/

/-- Through fewer links a way goes where it goes, or there are too many. -/
theorem Leads.fewer (h : Leads t into links here path must s) : ∀ links',
    walk t into links' here path must = .ok s ∨
      walk t into links' here path must = .error .tooManyLinks := by
  induction h with
  | nil => exact fun _ => .inl walk_nil
  | here _ ih =>
    intro n
    rw [walk_here]
    exact ih n
  | up _ ih =>
    intro n
    rw [walk_up]
    exact ih n
  | folder step there _ ih =>
    intro n
    rw [walk_step step, there]
    exact ih n
  | vacant step free => exact fun _ => .inl (walk_of_leads (.vacant step free))
  | file step there => exact fun _ => .inl (walk_of_leads (.file step there))
  | link step there still => exact fun _ => .inl (walk_of_leads (.link step there still))
  | follow step there more _ ih =>
    intro n
    rw [walk_step step, there]
    simp only [more]
    cases n with
    | zero => exact .inr rfl
    | succ n => exact ih n

/-- A way to a link goes on where the link leads. -/
theorem Leads.through (h : Leads t false links here path must s) (hs : s = .found k (.link target))
    (on : Leads t true links' (if startsWithSlash target then [] else k.dropLast) (steps target)
      false (.found m .folder)) : ∃ n, Leads t true n here path must (.found m .folder) := by
  induction h with
  | nil | vacant | file => simp at hs
  | here _ ih =>
    obtain ⟨n, way⟩ := ih hs
    exact ⟨n, .here way⟩
  | up _ ih =>
    obtain ⟨n, way⟩ := ih hs
    exact ⟨n, .up way⟩
  | folder step there _ ih =>
    obtain ⟨n, way⟩ := ih hs
    exact ⟨n, .folder step there way⟩
  | link step there =>
    obtain ⟨rfl, e⟩ := Spot.found.inj hs
    obtain rfl := Object.link.inj e
    rw [List.dropLast_concat] at on
    exact ⟨links' + 1, .follow step there (by simp) (by simpa using on.folder_into _)⟩
  | follow step there _ _ ih =>
    obtain ⟨n, way⟩ := ih hs
    exact ⟨n + 1, .follow step there (by simp) way⟩

/-- **What is at a path that names nothing is a link that leads to no folder**, unless
there are too many links to tell. -/
theorem dead_of_not_has (grounded : t.Grounded) (slash : endsWithSlash p.text = false)
    (none : t.has p = false) (few : t.look p ≠ .error .tooManyLinks)
    (place : t.placeOf? false p = some l) (there : t.get? l = some o) :
    ∃ target, o = .link target ∧ t.Dead l target := by
  have spot := spot_of_placeOf? grounded place there
  obtain ⟨fault, way⟩ := spot_eq_ok spot
  have lost {s : Spot} {m : Location} {o : Object} (hs : s = .found m o) :
      t.spot true false p ≠ .ok s := by
    rintro into
    rw [has, look, slash, into, hs] at none
    exact Bool.noConfusion none
  have direct (solid : ∀ target, o ≠ .link target) : False :=
    lost rfl (spot_of_walk fault (walk_into solid way))
  cases o with
  | file mode bytes => exact (direct (by simp)).elim
  | folder => exact (direct (by simp)).elim
  | link target =>
    refine ⟨target, rfl, fun links m on => ?_⟩
    obtain ⟨n, through⟩ := (walk_eq_ok.1 way).through rfl on
    rcases through.fewer maxLinks with arrives | many
    · exact lost rfl (spot_of_walk fault arrives)
    · refine few ?_
      rw [look, slash, Tree.spot, fault]
      simp only [many]
      rfl

/-! ### Giving anything another name -/

section

variable {f : Location → Location} {objects : List (Location × Object)}

/-- What stands under a key that comes from one key alone. -/
theorem lookup_map_key : ∀ {objects : List (Location × Object)},
    (∀ e ∈ objects, f e.1 = k ↔ e.1 = l) →
      (objects.map fun e => (f e.1, e.2)).lookup k = objects.lookup l
  | [], _ => rfl
  | (k', o) :: rest, only => by
    have ih := lookup_map_key fun e he => only e (List.mem_cons_of_mem _ he)
    have first : f k' = k ↔ k' = l := only _ List.mem_cons_self
    rw [List.map_cons, List.lookup_cons, List.lookup_cons, ih]
    by_cases hk : k' = l
    · obtain rfl := hk
      simp [first.2 rfl]
    · have other : (k == f k') = false := by simpa using fun same => hk (first.1 same.symm)
      have other' : (l == k') = false := by simpa using Ne.symm hk
      rw [other, other']

/-- Nothing stands under a key that comes from none. -/
theorem lookup_map_none (never : ∀ e ∈ objects, f e.1 ≠ k) :
    (objects.map fun e => (f e.1, e.2)).lookup k = none := by
  rw [List.lookup_eq_none_iff]
  intro e he
  obtain ⟨old, hold, rfl⟩ := List.mem_map.1 he
  simpa using Ne.symm (never old hold)

end

/-- Where a place comes to be when everything at and below one is taken to another. -/
def carried (l m k : Location) : Location :=
  if l.isPrefixOf k then m ++ k.drop l.length else k

theorem carried_append (l m rest : Location) : carried l m (l ++ rest) = m ++ rest := by
  simp [carried]

theorem carried_of_not (outside : ¬ l <+: k) : carried l m k = k :=
  if_neg (by rwa [List.isPrefixOf_iff_prefix])

/-- What is below the new place comes from below the old one. -/
theorem carried_eq_below (away : ¬ m <+: k) (rest : Location) :
    carried l m k = m ++ rest ↔ k = l ++ rest := by
  constructor
  · intro same
    by_cases below : l <+: k
    · obtain ⟨rest', rfl⟩ := below
      rw [carried_append] at same
      rw [List.append_cancel_left same]
    · rw [carried_of_not below] at same
      exact absurd ⟨rest, same.symm⟩ away
  · rintro rfl
    exact carried_append l m rest

/-- What is elsewhere is where it was. -/
theorem carried_eq_outside {k' : Location} (inside : ¬ m <+: k) :
    carried l m k' = k ↔ k' = k ∧ ¬ l <+: k := by
  constructor
  · intro same
    by_cases below : l <+: k'
    · obtain ⟨rest, rfl⟩ := below
      rw [carried_append] at same
      exact absurd ⟨rest, same⟩ inside
    · rw [carried_of_not below] at same
      exact ⟨same, same ▸ below⟩
  · rintro ⟨rfl, outside⟩
    exact carried_of_not outside

/-- **Everything at and below a place is taken to another**, where there is nothing
below that other one, and neither lies below the other. -/
theorem get?_relocate_eq (apart : ¬ l <+: m) (apart' : ¬ m <+: l)
    (clear : ∀ k, m <+: k → k ≠ m → t.get? k = none) (k : Location) :
    (t.relocate l m).get? k =
      if m <+: k then t.get? (l ++ k.drop m.length) else if l <+: k then none else t.get? k := by
  have hl : l ≠ [] := fun e => apart (e ▸ List.nil_prefix)
  have hm : m ≠ [] := fun e => apart' (e ▸ List.nil_prefix)
  by_cases hk : k = []
  · subst hk
    rw [if_neg (by simpa using hm), if_neg (by simpa using hl), get?_root, get?_root]
  have away : ∀ e ∈ (t.erase m).objects, ¬ m <+: e.1 := by
    intro e he below
    obtain ⟨old, other⟩ := List.mem_filter.1 he
    have vacant := clear e.1 below (by simpa using other)
    have written : e.1 ≠ [] := fun top => hm (List.prefix_nil.1 (top ▸ below))
    rw [get?, if_neg written, List.lookup_eq_none_iff] at vacant
    simpa using vacant e old
  have erased {k : Location} (hk : k ≠ []) (other : k ≠ m) :
      (t.erase m).objects.lookup k = t.get? k := by
    rw [← get?_erase_other other, get?, if_neg hk]
  have relocated : (t.relocate l m).get? k =
      ((t.erase m).objects.map fun e => (carried l m e.1, e.2)).lookup k := by
    rw [get?, if_neg hk]
    rfl
  rw [relocated]
  by_cases inside : m <+: k
  · obtain ⟨rest, rfl⟩ := inside
    rw [if_pos (List.prefix_append _ _), List.drop_left]
    rw [lookup_map_key fun e he => carried_eq_below (away e he) rest, erased (by simp [hl])]
    exact fun same => apart (same ▸ List.prefix_append l rest)
  rw [if_neg inside]
  by_cases below : l <+: k
  · rw [if_pos below]
    exact lookup_map_none fun e _ same => ((carried_eq_outside inside).1 same).2 below
  · rw [if_neg below, lookup_map_key fun e _ => (carried_eq_outside inside).trans
      (and_iff_left below)]
    exact erased hk fun same => inside (same ▸ List.prefix_rfl)

theorem hasBelow_eq_false : t.hasBelow m = false ↔ ∀ e ∈ t.objects, m <+: e.1 → e.1 = m := by
  simp [hasBelow, List.isPrefixOf_iff_prefix]

/-- Where no object lies below a place nothing does. -/
theorem get?_below (h : t.hasBelow m = false) (below : m <+: k) (other : k ≠ m) :
    t.get? k = none := by
  by_contra there
  obtain ⟨o, there⟩ := Option.ne_none_iff_exists'.1 there
  have written : k ≠ [] := fun top => other (top ▸ (List.prefix_nil.1 (top ▸ below)).symm)
  exact other (hasBelow_eq_false.1 h _ (mem_objects written there) below)

namespace Grounded

/-- What is given another name is somewhere else, or goes to a place with nothing
below it. -/
theorem rename_cases (grounded : t.Grounded) (done : t.rename p q = (.ok (), t')) :
    t' = t ∨ ∃ l m, t.placeOf? false p = some l ∧ t.placeOf? false q = some m ∧
      ¬ l <+: m ∧ ¬ m <+: l ∧ (∀ k, m <+: k → k ≠ m → t.get? k = none) ∧
      t.get? m.dropLast = some .folder ∧ t' = t.relocate l m := by
  unfold rename at done
  cases hp : t.spot false false p with
  | error f => simp [hp] at done
  | ok s₁ =>
  cases hq : t.spot false false q with
  | error f => cases s₁ <;> simp [hp, hq] at done
  | ok s =>
  cases s₁ with
  | vacant l name => simp [hp, hq] at done
  | found l o =>
  simp only [hp, hq] at done
  split at done
  · exact .inl (Prod.mk.inj done).2.symm
  split at done
  · simp at done
  next apart =>
  split at done
  · simp at done
  next apart' =>
  rw [List.isPrefixOf_iff_prefix] at apart apart'
  have held := grounded.spot_holds hq
  suffices moved : t.hasBelow s.place.1 = false ∧ t.get? s.place.1.dropLast = some .folder ∧
      t' = t.relocate l s.place.1 by
    exact .inr ⟨l, s.place.1, placeOf?_eq_some.2 ⟨_, hp, rfl⟩, placeOf?_eq_some.2 ⟨_, hq, rfl⟩,
      apart, apart', fun _ => get?_below moved.1, moved.2⟩
  cases s with
  | vacant here name =>
    obtain ⟨folder, free⟩ := held
    refine ⟨hasBelow_eq_false.2 (grounded.below (by simp [Spot.place, free])), ?_, ?_⟩
    · simpa [Spot.place] using folder
    · cases o <;> exact (Prod.mk.inj done).2.symm
  | found m taken =>
    have there : t.get? m = some taken := held
    have folder : t.get? m.dropLast = some .folder :=
      grounded m (fun top => apart' (top ▸ List.nil_prefix)) (by simp [there])
    by_cases solid : taken = .folder
    · subst solid
      cases o with
      | file | link => simp [Spot.place] at done
      | folder =>
        cases vacant : t.hasBelow m with
        | true => simp [Spot.place, vacant] at done
        | false => exact ⟨vacant, folder, by simpa [Spot.place, vacant] using done.symm⟩
    · refine ⟨hasBelow_eq_false.2 (grounded.below ?_), folder, ?_⟩
      · simpa [Spot.place, there] using solid
      · cases o <;> cases taken <;> simp_all [Spot.place]

/-- Objects that are taken elsewhere lie in folders. -/
theorem relocate (grounded : t.Grounded) (apart : ¬ l <+: m) (apart' : ¬ m <+: l)
    (clear : ∀ k, m <+: k → k ≠ m → t.get? k = none) (folder : t.get? m.dropLast = some .folder) :
    (t.relocate l m).Grounded := by
  have after := get?_relocate_eq apart apart' clear
  have hm : m ≠ [] := fun e => apart' (e ▸ List.nil_prefix)
  intro k hk there
  rw [after] at there ⊢
  by_cases inside : m <+: k
  · obtain ⟨rest, rfl⟩ := inside
    rw [if_pos (List.prefix_append _ _), List.drop_left] at there
    obtain rfl | ⟨xs, x, rfl⟩ := List.eq_nil_or_concat rest
    · -- what is above the place is not what moves
      rw [List.append_nil, if_neg, if_neg, folder]
      · exact fun below => apart (below.trans (List.dropLast_prefix m))
      · intro below
        have short := below.length_le
        rw [List.length_dropLast] at short
        have := List.length_pos_iff.2 hm
        omega
    · rw [List.concat_eq_append, ← List.append_assoc] at there ⊢
      rw [List.dropLast_concat, if_pos (List.prefix_append _ _), List.drop_left]
      have above := grounded _ (by simp) there
      rwa [List.dropLast_concat] at above
  · rw [if_neg inside] at there
    split at there
    · simp at there
    next outside =>
    have up := List.dropLast_prefix k
    rw [if_neg fun below => inside (below.trans up), if_neg fun below => outside (below.trans up)]
    exact grounded k hk there

end Grounded

/-! ### What lasts -/

/-- Where a path leads once the folders for it have been made. -/
def arrival? (t : Tree) (p : Path) : Option Location := (t.makeParent p).2.placeOf? false p

/-- A path that leads somewhere arrives there. -/
theorem arrival?_of_placeOf? (place : t.placeOf? false p = some l) : t.arrival? p = some l := by
  obtain ⟨s, spot, -⟩ := placeOf?_eq_some.1 place
  rwa [arrival?, makeParent_of_spot spot]

/-- Whether folders last, and links but for those that lead to none. -/
structure Lasts (t t' : Tree) : Prop where
  grounded : t'.Grounded
  linkless : (∀ l target, t.get? l ≠ some (.link target)) →
    ∀ l target, t'.get? l ≠ some (.link target)
  folder : ∀ {l}, t.get? l = some .folder → t'.get? l = some .folder
  link : ∀ {l target}, t.get? l = some (.link target) →
    t'.get? l = some (.link target) ∨ t.Dead l target

/-- Whether a place holds nothing that a way goes on through. -/
def Yields (t : Tree) (l : Location) : Prop :=
  ∀ o, t.get? l = some o → o ≠ .folder ∧ ∀ target, o = .link target → t.Dead l target

theorem yields_of_none (h : t.get? l = none) : t.Yields l := fun o there => by
  simp [h] at there

/-- What is at the path of a file is no folder, nor a link to one. -/
theorem yields_of_readFile (grounded : t.Grounded) {mode : Nat} {bytes : ByteArray}
    (h : t.readFile p = .ok (mode, bytes)) (place : t.placeOf? false p = some l) : t.Yields l := by
  intro o there
  have spot := spot_of_placeOf? grounded place there
  refine ⟨?_, ?_⟩
  · rintro rfl
    have folder := isFolder_of_spot spot
    rw [isFolder, readFile_eq_ok.1 h] at folder
    simp at folder
  · rintro target rfl
    exact dead_of_readFile h spot

/-- Nothing lies below a place that holds nothing to go on through. -/
theorem Yields.alone (yields : t.Yields l) (grounded : t.Grounded) (below : l <+: k)
    (there : t.get? k ≠ none) : k = l := by
  obtain ⟨rest, rfl⟩ := below
  by_contra other
  have more : rest ≠ [] := by
    rintro rfl
    simp at other
  exact (yields _ (grounded.above more there)).1 rfl

namespace Lasts

variable (lasts : t₀.Lasts t)

theorem refl (grounded : t.Grounded) : t.Lasts t := ⟨grounded, id, id, .inl⟩

include lasts

theorem steady : t₀.Steady t :=
  .of_kept (fun _ => lasts.folder) fun _ _ => lasts.link

theorem stays {sources : List Location} (stays : Stays sources [] t t') (grounded : t'.Grounded) :
    t₀.Lasts t' where
  grounded := grounded
  linkless none l target link := lasts.linkless none l target (stays.linked link)
  folder there := stays.folder (lasts.folder there)
  link there := (lasts.link there).imp_left (stays.link (by simp))

theorem grows (grows : t.Grows t') (grounded : t'.Grounded) : t₀.Lasts t' :=
  lasts.stays (.of_grows grows) grounded

theorem plain (plain : t₀.Plain) : t.Plain := ⟨lasts.linkless plain.linkless, lasts.grounded⟩

/-- A path that led somewhere arrives there. -/
theorem arrives (place : t₀.placeOf? false p = some l) : t.arrival? p = some l :=
  arrival?_of_placeOf? (lasts.steady p l place)

variable (grounded : t₀.Grounded)

include grounded

/-- What is given another name leaves the rest where it is. -/
theorem rename (source : ∀ l, t.placeOf? false p = some l → t₀.Yields l)
    (target : ∀ m, t.placeOf? false q = some m → t₀.Yields m) (done : t.rename p q = (.ok (), t')) :
    t₀.Lasts t' ∧ ∀ k o, t₀.get? k = some o → t.placeOf? false p ≠ some k →
      t.placeOf? false q ≠ some k → t'.get? k = t.get? k := by
  obtain rfl | ⟨l, m, hl, hm, apart, apart', clear, folder, rfl⟩ := lasts.grounded.rename_cases done
  · exact ⟨lasts, fun _ _ _ _ _ => rfl⟩
  have after := get?_relocate_eq apart apart' clear
  have free := source l hl
  have free' := target m hm
  have same {k : Location} (there : t₀.get? k ≠ none) (hk : k ≠ l) (hk' : k ≠ m) :
      (t.relocate l m).get? k = t.get? k := by
    rw [after, if_neg fun below => hk' (free'.alone grounded below there),
      if_neg fun below => hk (free.alone grounded below there)]
  refine ⟨⟨lasts.grounded.relocate apart apart' clear folder, fun none k target link => ?_,
    fun {k} there => ?_, fun {k target} there => ?_⟩, fun k o there other other' => ?_⟩
  · rw [after] at link
    split at link
    · exact lasts.linkless none _ _ link
    split at link
    · simp at link
    · exact lasts.linkless none _ _ link
  · rw [same (by simp [there]), lasts.folder there]
    · rintro rfl
      exact (free _ there).1 rfl
    · rintro rfl
      exact (free' _ there).1 rfl
  · by_cases hk : k = l
    · subst hk
      exact .inr ((free _ there).2 target rfl)
    by_cases hk' : k = m
    · subst hk'
      exact .inr ((free' _ there).2 target rfl)
    · rw [same (by simp [there]) hk hk']
      exact lasts.link there
  · refine same (by simp [there]) ?_ ?_
    · rintro rfl
      exact other hl
    · rintro rfl
      exact other' hm

/-- **A move leaves everything else where it is**, if what has been at both of its
places is nothing that a way goes on through. -/
theorem moveFile (source : ∀ l, (t.makeParent q).2.placeOf? false p = some l → t₀.Yields l)
    (target : ∀ m, t.arrival? q = some m → t₀.Yields m) :
    t₀.Lasts (t.moveFile p q).2 ∧ ∀ k o, t₀.get? k = some o →
      (t.makeParent q).2.placeOf? false p ≠ some k → t.arrival? q ≠ some k →
      t.get? k = some o → (t.moveFile p q).2.get? k = some o := by
  obtain ⟨grounded₁, grows⟩ := lasts.grounded.makeParent_grows q
  have lasts₁ := lasts.grows grows grounded₁
  unfold Tree.moveFile
  unfold arrival? at target ⊢
  cases opens : t.makeParent q with
  | mk result t₁ =>
  rw [opens] at source target lasts₁ grows
  cases result with
  | error f => exact ⟨lasts₁, fun k o _ _ _ there => (grows k).keeps there⟩
  | ok =>
    dsimp only
    cases renamed : t₁.rename p q with
    | mk result t₂ =>
    cases result with
    | error f =>
      obtain rfl := rename_error renamed
      exact ⟨lasts₁, fun k o _ _ _ there => (grows k).keeps there⟩
    | ok =>
      obtain ⟨lasts₂, elsewhere⟩ := lasts₁.rename grounded source target renamed
      exact ⟨lasts₂, fun k o was other other' there =>
        (elsewhere k o was other other').trans ((grows k).keeps there)⟩

end Lasts

end Tree
end Attic
