import Attic.Proofs.Tree.Staying
import Mathlib

/-!
# Making folders in two trees

Two trees of which the second has the folders and links of the first: a path
that leads somewhere in the first leads there in the second. Making folders goes
from the top down, each folder in the one above it. If it succeeds in the first
tree it succeeds in the second if and only if what is new in the first is a
folder or nothing in the second, and then the same folders come.

Key definitions: `Tree.Joined`, `Tree.Free`.
Key theorems: `Tree.makeFoldersFrom_iff`, `Tree.makeParent_joined`,
`Tree.free_of_makeParent`.
-/

namespace Attic
namespace Tree

variable {t t' u t₁ t₁' : Tree} {sources targets : List Location} {l m k : Location}
variable {o : Object} {p q : Path} {s s' : Spot} {into must must' : Bool} {f : Fault}

/-! ### Ways in the second tree -/

theorem spot_reads (stays : Stays sources [] t t') (h : t.spot into must p = .ok s)
    (reads : s.Reads t' s') : t'.spot into must p = .ok s' := by
  obtain ⟨fault, way⟩ := spot_eq_ok h
  exact spot_of_walk fault
    (walk_reads (fun _ => stays.folder) (fun _ _ => stays.link (by simp)) reads way)

theorem Stays.isFolder (stays : Stays sources [] t t') (grounded : t.Grounded)
    (h : t.isFolder p = true) : t'.isFolder p = true :=
  grounded.isFolder_kept (fun _ => stays.folder) (fun _ _ => stays.link (by simp)) h

/-! ### Folders at the end -/

/-- A way that ends at a folder ends there also if it has to. -/
theorem Leads.folder_into {links : Nat} {here : Location} {path : List String}
    (h : Leads t into links here path must (.found l .folder)) :
    ∀ must', Leads t true links here path must' (.found l .folder) := by
  generalize e : Spot.found l .folder = s at h
  induction h with
  | nil =>
    obtain ⟨rfl, -⟩ := Spot.found.inj e
    exact fun _ => .nil
  | here _ ih => exact fun must' => .here (ih e must')
  | up _ ih => exact fun must' => .up (ih e must')
  | folder step there _ ih => exact fun must' => .folder step there (ih e must')
  | vacant | file | link => simp at e
  | follow step there _ _ ih => exact fun must' => .follow step there (by simp) (ih e _)

theorem isFolder_of_spot (h : t.spot into must p = .ok (.found l .folder)) :
    t.isFolder p = true := by
  obtain ⟨fault, way⟩ := spot_eq_ok h
  rw [isFolder, look, spot_of_walk fault (walk_of_leads ((walk_eq_ok.1 way).folder_into _))]
  rfl

/-- A path leads to one thing, so that it leads to no folder where it leads to
something else. -/
theorem eq_folder_of_isFolder (found : t.spot false false p = .ok (.found l o))
    (noLink : ∀ target, o ≠ .link target) (h : t.isFolder p = true) : o = .folder := by
  unfold isFolder at h
  split at h
  · next look =>
    obtain ⟨m, spot⟩ := look_eq_ok look
    have into := walk_into noLink (spot_eq_ok found).2
    rw [walk_of_leads ((walk_eq_ok.1 (spot_eq_ok spot).2).folder_into false)] at into
    exact (Spot.found.inj (Except.ok.inj into)).2.symm
  · simp at h

/-! ### Faults that stay -/

/-- A fault other than that something is missing stays where a tree only grows. -/
theorem walk_fault (grows : t.Grows t') (hf : f ≠ .notFound) : ∀ {links : Nat} {here : Location}
    {path : List String} {must : Bool}, walk t into links here path must = .error f →
      walk t' into links here path must = .error f
  | links, here, [], must, h => by simp [walk_nil] at h
  | links, here, name :: path, must, h => by
    rcases isStep_cases name with rfl | rfl | long | step
    · rw [walk_here] at h ⊢
      exact walk_fault grows hf h
    · rw [walk_up] at h ⊢
      exact walk_fault grows hf h
    · rw [walk_long long] at h ⊢
      exact h
    · rw [walk_step step] at h ⊢
      cases there : t.get? (here ++ [name]) with
      | none =>
        simp only [there] at h
        split at h
        · simp at h
        · exact absurd (Except.error.inj h).symm hf
      | some o =>
        rw [(grows _).keeps there]
        cases o with
        | file mode bytes => simpa only [there] using h
        | folder =>
          simp only [there] at h
          exact walk_fault grows hf h
        | link target =>
          simp only [there] at h ⊢
          split at h
          · simp at h
          · next more =>
            rw [if_neg more]
            cases links with
            | zero => exact h
            | succ links => exact walk_fault grows hf h
termination_by links _ path => (links, path.length)

theorem spot_fault (grows : t.Grows t') (hf : f ≠ .notFound)
    (h : t.spot into must p = .error f) : t'.spot into must p = .error f := by
  unfold spot at h ⊢
  split at h
  · exact h
  · exact walk_fault grows hf h

/-! ### From the top down -/

theorem not_isFolder_of_error (h : t.spot false false p = .error f) : t.isFolder p = false := by
  refine Bool.eq_false_iff.2 fun folder => ?_
  obtain ⟨l, o, spot⟩ := spot_of_isFolder folder
  simp [h] at spot

/-- A folder that was made had a place. -/
theorem not_error_of_makeLast (h : t.makeLast p = (.ok (), t')) : t.spot false false p ≠ .error f := by
  intro fault
  cases makesLast_iff.2 h with
  | made spot => simp [fault] at spot
  | there folder => simp [not_isFolder_of_error fault] at folder

theorem Grounded.of_makeLast (grounded : t.Grounded) (h : t.makeLast p = (.ok (), t')) :
    t'.Grounded ∧ t.Grows t' := by
  have made := grounded.makeLast_grows p
  rwa [h] at made

theorem Grounded.of_makeFoldersFrom {n : Nat} (grounded : t.Grounded)
    (h : makeFoldersFrom n t p = (.ok (), t')) : t'.Grounded ∧ t.Grows t' := by
  have made := makeFoldersFrom_grows n grounded p
  rwa [h] at made

/-- **Folders are made from the top down.** -/
theorem makeFoldersFrom_iff (grounded : t.Grounded) {n : Nat} (hn : n ≠ 0)
    (written : p.isEmpty = false) (hq : p.parent? = some q) :
    makeFoldersFrom (n + 1) t p = (.ok (), t') ↔
      ∃ u, makeFoldersFrom n t q = (.ok (), u) ∧ u.makeLast p = (.ok (), t') := by
  obtain ⟨n, rfl⟩ := Nat.exists_eq_succ_of_ne_zero hn
  by_cases missing : t.spot false false p = .error .notFound
  · constructor
    · intro made
      cases makes_iff.2 made with
      | nowhere empty => simp [written] at empty
      | last _ present => exact absurd missing present
      | after _ _ parent above last =>
        obtain rfl := Option.some.inj (hq.symm.trans parent)
        exact ⟨_, makes_iff.1 above, makesLast_iff.1 last⟩
    · rintro ⟨u, above, last⟩
      exact makes_iff.1
        (.after written missing hq (makes_iff.2 above) (makesLast_iff.2 last))
  rw [makeFoldersFrom_present written missing]
  cases spot : t.spot false false p with
  | ok s =>
    -- the path leads somewhere, so there is nothing to be made above it
    have above : makeFoldersFrom (n + 1) t q = (.ok (), t) := by
      cases empty : q.isEmpty with
      | true => exact makeFoldersFrom_empty empty
      | false => exact makeFoldersFrom_of_isFolder (isFolder_of_parent spot hq empty)
    rw [above]
    constructor
    · exact fun last => ⟨t, rfl, last⟩
    · rintro ⟨u, made, last⟩
      obtain rfl := (Prod.mk.inj made).2
      exact last
  | error f =>
    -- the fault stays when folders come
    refine iff_of_false (fun last => not_error_of_makeLast last spot) ?_
    rintro ⟨u, made, last⟩
    obtain ⟨-, grows⟩ := grounded.of_makeFoldersFrom made
    exact not_error_of_makeLast last (spot_fault grows (fun e => missing (e ▸ spot)) spot)

/-- The first folder lies in one that is there. -/
theorem makeFoldersFrom_first {n : Nat} (first : n = 0 ∨ p.parent? = none)
    (written : p.isEmpty = false) :
    makeFoldersFrom (n + 1) t p = (.ok (), t') ↔ t.makeLast p = (.ok (), t') := by
  by_cases missing : t.spot false false p = .error .notFound
  · refine iff_of_false (fun made => ?_) fun last => not_error_of_makeLast last missing
    cases makes_iff.2 made with
    | nowhere empty => simp [written] at empty
    | last _ present => exact present missing
    | after _ _ parent above =>
      rcases first with rfl | none
      · cases above
      · simp [none] at parent
  · rw [makeFoldersFrom_present written missing]

/-! ### Making folders in both trees -/

/-- What comes to the first tree comes to the second, and nothing else. -/
def Joined (t t₁ t' t₁' : Tree) : Prop :=
  ∀ k, t₁'.get? k =
    if t.get? k = none ∧ t₁.get? k = some .folder then some .folder else t'.get? k

/-- Whether what comes to the first tree is a folder or nothing in the second. -/
def Free (t t₁ t' : Tree) : Prop :=
  ∀ k, t.get? k = none → t₁.get? k = some .folder → t'.get? k = none ∨ t'.get? k = some .folder

theorem Joined.stays (stays : Stays sources [] t t') (grows : t.Grows t₁)
    (joined : Joined t t₁ t' t₁') : Stays sources [] t₁ t₁' where
  folder {k} folder := by
    rw [joined]
    split
    · rfl
    · next old =>
      rcases grows k with same | ⟨none, -⟩
      · exact stays.folder (same ▸ folder)
      · exact absurd ⟨none, folder⟩ old
  linked {k target} link := by
    rw [joined] at link
    split at link
    · simp at link
    · exact (grows k).keeps (stays.linked link)
  link {k target} _ link := by
    have before : t.get? k = some (.link target) := by
      rcases grows k with same | ⟨-, folder⟩
      · rw [← same, link]
      · simp [folder] at link
    rw [joined, if_neg (by simp [link])]
    exact stays.link (by simp) before
  solid {k o} kept there noFolder := by
    have before : t.get? k = some o := by
      rcases grows k with same | ⟨-, folder⟩
      · rw [← same, there]
      · exact absurd (Option.some.inj (there.symm.trans folder)) noFolder
    rw [joined, if_neg (by simp [before])]
    exact stays.solid kept before noFolder

theorem Joined.refl (t t' : Tree) : Joined t t t' t' := fun k => by
  rw [if_neg]
  rintro ⟨none, folder⟩
  simp [none] at folder

/-- What comes in two steps. -/
theorem Joined.trans {u u' : Tree} (grows : t.Grows u) (grows' : u.Grows t₁)
    (first : Joined t u t' u') (last : Joined u t₁ u' t₁') : Joined t t₁ t' t₁' := by
  intro k
  rw [last, first]
  rcases grows k with same | ⟨none, folder⟩
  · rw [same]
    by_cases new : t.get? k = none ∧ t₁.get? k = some .folder
    · rw [if_pos new, if_pos new]
    · rw [if_neg new, if_neg new, if_neg]
      rintro ⟨none, folder⟩
      simp [none] at folder
  · have after := (grows' k).keeps folder
    simp [none, folder, after]

/-- A folder in one is made in both. -/
theorem makeLast_joined (stays : Stays sources [] t t') (grounded : t.Grounded)
    (done : t.makeLast p = (.ok (), t₁)) (free : Free t t₁ t') :
    ∃ t₁', t'.makeLast p = (.ok (), t₁') ∧ Joined t t₁ t' t₁' := by
  cases makesLast_iff.2 done with
  | @made l name spot =>
    have holds := grounded.spot_holds spot
    have new {k : Location} : t.get? k = none ∧
        (t.set (l ++ [name]) .folder).get? k = some .folder ↔ k = l ++ [name] := by
      constructor
      · rintro ⟨none, folder⟩
        by_contra other
        rw [get?_set_other other, none] at folder
        simp at folder
      · rintro rfl
        exact ⟨holds.2, get?_set_same (by simp)⟩
    obtain ⟨none, made⟩ := new.2 rfl
    rcases free _ none made with vacant | folder
    · refine ⟨_, makesLast_iff.1 (.made (spot_reads stays spot (.vacant vacant))), fun k => ?_⟩
      by_cases hk : k = l ++ [name]
      · rw [if_pos (new.2 hk), hk, get?_set_same (by simp)]
      · rw [if_neg (hk ∘ new.1), get?_set_other hk]
    · have found := spot_reads stays spot (.filled folder (by simp))
      refine ⟨t', makesLast_iff.1 (.there (isFolder_of_spot found)), fun k => ?_⟩
      by_cases hk : k = l ++ [name]
      · rw [if_pos (new.2 hk), hk, folder]
      · rw [if_neg (hk ∘ new.1)]
  | there folder =>
    exact ⟨t', makesLast_iff.1 (.there (stays.isFolder grounded folder)), .refl _ _⟩

/-- A folder that is made in both comes where none but a folder is. -/
theorem free_of_makeLast (stays : Stays sources [] t t')
    (done : t.makeLast p = (.ok (), t₁)) (done' : t'.makeLast p = (.ok (), t₁')) :
    Free t t₁ t' := by
  cases makesLast_iff.2 done with
  | @made l name spot =>
    intro k none folder
    by_contra taken
    rw [not_or] at taken
    obtain ⟨o, there⟩ := Option.ne_none_iff_exists'.1 taken.1
    obtain rfl : k = l ++ [name] := by
      by_contra other
      rw [get?_set_other other, none] at folder
      simp at folder
    have noLink : ∀ target, o ≠ .link target := by
      rintro target rfl
      simp [stays.linked there] at none
    have found := spot_reads stays spot (.filled there noLink)
    cases makesLast_iff.2 done' with
    | made spot' => simp [found] at spot'
    | there folder' =>
      rw [eq_folder_of_isFolder found noLink folder'] at there
      exact taken.2 there
  | there =>
    intro k none folder
    simp [none] at folder

/-- What is free in two steps is free in each. -/
theorem Free.split {u : Tree} (grows : t.Grows u) (grows' : u.Grows t₁) (free : Free t t₁ t') :
    Free t u t' ∧ ∀ {u'}, Joined t u t' u' → Free u t₁ u' := by
  refine ⟨fun k vacant folder => free k vacant ((grows' k).keeps folder),
    fun joined k vacant folder => ?_⟩
  have before : t.get? k = none := by
    rcases grows k with same | ⟨before, -⟩
    · rw [← same, vacant]
    · exact before
  rw [joined, if_neg (by simp [vacant])]
  exact free k before folder

theorem Free.trans {u u' : Tree} (grows : t.Grows u) (joined : Joined t u t' u')
    (first : Free t u t') (last : Free u t₁ u') : Free t t₁ t' := by
  intro k vacant folder
  rcases grows k with same | ⟨-, new⟩
  · have still : u.get? k = none := same.trans vacant
    have free := last k still folder
    rwa [joined, if_neg (by simp [still])] at free
  · exact first k vacant new

section

variable (stays : Stays sources [] t t') (grounded : t.Grounded) (grounded' : t'.Grounded)

include stays grounded grounded'

/-- Folders that are made in the first tree are made in the second, where what
is new is free. -/
theorem makeFoldersFrom_joined : ∀ {n : Nat} {p : Path} {t₁ : Tree},
    makeFoldersFrom n t p = (.ok (), t₁) → Free t t₁ t' →
      ∃ t₁', makeFoldersFrom n t' p = (.ok (), t₁') ∧ Joined t t₁ t' t₁'
  | 0, p, t₁, h, _ => by simp [makeFoldersFrom] at h
  | n + 1, p, t₁, h, free => by
    cases written : p.isEmpty with
    | true =>
      rw [makeFoldersFrom_empty written] at h
      obtain rfl := (Prod.mk.inj h).2
      exact ⟨t', makeFoldersFrom_empty written, .refl _ _⟩
    | false =>
    by_cases first : n = 0 ∨ p.parent? = none
    · rw [makeFoldersFrom_first first written] at h
      obtain ⟨t₁', h', joined⟩ := makeLast_joined stays grounded h free
      exact ⟨t₁', (makeFoldersFrom_first first written).2 h', joined⟩
    rw [not_or] at first
    obtain ⟨q, hq⟩ := Option.ne_none_iff_exists'.1 first.2
    obtain ⟨u, above, last⟩ := (makeFoldersFrom_iff grounded first.1 written hq).1 h
    obtain ⟨groundedU, grows⟩ := grounded.of_makeFoldersFrom above
    obtain ⟨-, grows'⟩ := groundedU.of_makeLast last
    obtain ⟨free, free'⟩ := free.split grows grows'
    obtain ⟨u', above', joined⟩ := makeFoldersFrom_joined above free
    obtain ⟨t₁', last', joined'⟩ :=
      makeLast_joined (joined.stays stays grows) groundedU last (free' joined)
    exact ⟨t₁', (makeFoldersFrom_iff grounded' first.1 written hq).2 ⟨u', above', last'⟩,
      joined.trans grows grows' joined'⟩

/-- What is new in the first tree is free in the second, if the folders are made
there too. -/
theorem free_of_makeFoldersFrom : ∀ {n : Nat} {p : Path} {t₁ t₁' : Tree},
    makeFoldersFrom n t p = (.ok (), t₁) → makeFoldersFrom n t' p = (.ok (), t₁') → Free t t₁ t'
  | 0, p, t₁, t₁', h, _ => by simp [makeFoldersFrom] at h
  | n + 1, p, t₁, t₁', h, h' => by
    cases written : p.isEmpty with
    | true =>
      rw [makeFoldersFrom_empty written] at h
      obtain rfl := (Prod.mk.inj h).2
      exact fun k vacant folder => by simp [vacant] at folder
    | false =>
    by_cases first : n = 0 ∨ p.parent? = none
    · rw [makeFoldersFrom_first first written] at h h'
      exact free_of_makeLast stays h h'
    rw [not_or] at first
    obtain ⟨q, hq⟩ := Option.ne_none_iff_exists'.1 first.2
    obtain ⟨u, above, last⟩ := (makeFoldersFrom_iff grounded first.1 written hq).1 h
    obtain ⟨u', above', last'⟩ := (makeFoldersFrom_iff grounded' first.1 written hq).1 h'
    obtain ⟨groundedU, grows⟩ := grounded.of_makeFoldersFrom above
    have free := free_of_makeFoldersFrom above above'
    obtain ⟨v, above'', joined⟩ := makeFoldersFrom_joined stays grounded grounded' above free
    obtain rfl : v = u' := (Prod.mk.inj (above''.symm.trans above')).2
    exact free.trans grows joined
      (free_of_makeLast (joined.stays stays grows) last last')

/-- **The folders for a path that are made in the first tree are made in the
second**, where what is new is free. -/
theorem makeParent_joined (h : t.makeParent p = (.ok (), t₁)) (free : Free t t₁ t') :
    ∃ t₁', t'.makeParent p = (.ok (), t₁') ∧ Joined t t₁ t' t₁' := by
  unfold makeParent at h ⊢
  split at h
  · exact makeFoldersFrom_joined stays grounded grounded' h free
  · obtain rfl := (Prod.mk.inj h).2
    exact ⟨t', rfl, .refl _ _⟩

/-- If the folders are made in both, what is new is free. -/
theorem free_of_makeParent (h : t.makeParent p = (.ok (), t₁))
    (h' : t'.makeParent p = (.ok (), t₁')) : Free t t₁ t' := by
  unfold makeParent at h h'
  split at h
  · next hq =>
    rw [hq] at h'
    exact free_of_makeFoldersFrom stays grounded grounded' h h'
  · obtain rfl := (Prod.mk.inj h).2
    exact fun k vacant folder => by simp [vacant] at folder

end

end Tree
end Attic
