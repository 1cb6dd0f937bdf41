import Attic.Proofs.Path.Parts
import Mathlib

/-!
# Extensions of names

A name is cut at its last dot, unless the dot starts it. In a path of names the last
one gives the extension, and without the extension the path has the stem for its last
component; a stem of dots is no name and leads up.

Key definitions: `Path.stemComponent`, `Path.extended`.
Key theorems: `Path.splitDot_append`, `Path.splitDot_eq_none_iff`,
`Path.extension?_ofNames`, `Path.withExtension_ofNames`, `Path.components_withExtension`,
`Path.withExtension_eq_of_same`.
-/

namespace Attic
namespace Path

variable {p : Path} {ns : List String} {n : String} {cs : List Char}

/-! ### Cutting a name -/

theorem splitDot_append {before after : List Char} (hb : before ≠ []) (h : '.' ∉ after) :
    splitDot (before ++ '.' :: after) = (before, some after) := by
  have stays : ∀ c ∈ after.reverse, (decide (c ≠ '.')) = true := by
    intro c hc
    rw [decide_eq_true_eq]
    rintro rfl
    exact h (List.mem_reverse.1 hc)
  have turned : (before ++ '.' :: after).reverse = after.reverse ++ '.' :: before.reverse := by simp
  have taken : (after.reverse ++ '.' :: before.reverse).takeWhile (· ≠ '.') = after.reverse := by
    rw [List.takeWhile_append_of_pos stays, List.takeWhile_cons]
    simp
  have dropped : (after.reverse ++ '.' :: before.reverse).dropWhile (· ≠ '.') =
      '.' :: before.reverse := by
    rw [List.dropWhile_append_of_pos stays, List.dropWhile_cons]
    simp
  rw [splitDot, turned, taken, dropped, List.reverse_reverse]
  cases hr : before.reverse with
  | nil => exact absurd (List.reverse_eq_nil_iff.1 hr) hb
  | cons c cs =>
    have : before = (c :: cs).reverse := by rw [← hr, List.reverse_reverse]
    rw [this]

/-- A name either has no extension or ends with a dot and its extension. -/
theorem splitDot_cases (cs : List Char) : splitDot cs = (cs, none) ∨
    ∃ before after, cs = before ++ '.' :: after ∧ before ≠ [] ∧ '.' ∉ after ∧
      splitDot cs = (before, some after) := by
  have whole := List.takeWhile_append_dropWhile (p := (· ≠ '.')) (l := cs.reverse)
  have plain : ∀ c ∈ cs.reverse.takeWhile (· ≠ '.'), c ≠ '.' := fun c hc => by
    simpa using List.mem_takeWhile_imp hc
  unfold splitDot
  split
  · exact .inl rfl
  · exact .inl rfl
  · next c before more hd =>
    right
    have dot : c = '.' := by
      have := List.head?_dropWhile_not (· ≠ '.') cs.reverse
      rw [hd] at this
      simpa using this
    rw [hd, dot] at whole
    refine ⟨before.reverse, (cs.reverse.takeWhile (· ≠ '.')).reverse, ?_, ?_, ?_, rfl⟩
    · have := congrArg List.reverse whole
      simpa using this.symm
    · simpa using more
    · intro h
      exact plain _ (List.mem_reverse.1 h) rfl

/-- What stands before the extension is the stem. -/
theorem splitDot_of_snd {stem ext : List Char} (h : (splitDot (stem ++ '.' :: ext)).2 = some ext) :
    splitDot (stem ++ '.' :: ext) = (stem, some ext) := by
  rcases splitDot_cases (stem ++ '.' :: ext) with split | ⟨before, after, text, -, -, split⟩
  · rw [split] at h
    exact absurd h (by simp)
  · rw [split] at h ⊢
    obtain rfl := Option.some.inj h
    rw [List.append_cancel_right text]

/-- A name has no extension if no dot stands behind its first character. -/
theorem splitDot_eq_none_iff : (splitDot cs).2 = none ↔ '.' ∉ cs.tail := by
  rcases splitDot_cases cs with split | ⟨before, after, rfl, hne, hext, split⟩
  · rw [split]
    refine iff_of_true rfl fun dot => ?_
    obtain ⟨c, cs, rfl⟩ := List.exists_cons_of_ne_nil (l := cs) fun e => by simp [e] at dot
    -- cut at the last dot, which does not start the name
    obtain ⟨after, before, text, hext⟩ :=
      List.eq_append_cons_of_mem (List.mem_reverse.2 (show '.' ∈ cs from dot))
    have turned := congrArg List.reverse text
    simp only [List.reverse_reverse, List.reverse_append, List.reverse_cons,
      List.append_assoc, List.cons_append, List.nil_append] at turned
    have cut : splitDot (c :: before.reverse ++ '.' :: after.reverse) =
        (c :: before.reverse, some after.reverse) :=
      splitDot_append (List.cons_ne_nil _ _) (by simpa using hext)
    rw [List.cons_append, ← turned, split] at cut
    exact absurd (congrArg Prod.snd cut) (by simp)
  · rw [split]
    refine iff_of_false (by simp) (not_not_intro ?_)
    obtain ⟨c, cs, rfl⟩ := List.exists_cons_of_ne_nil hne
    simp

/-- The stem of a name with an extension is shorter. -/
theorem length_stem (h : (splitDot cs).2 ≠ none) : (splitDot cs).1.length < cs.length := by
  rcases splitDot_cases cs with split | ⟨before, after, rfl, -, -, split⟩
  · rw [split] at h
    exact absurd rfl h
  · rw [split]
    simp only [List.length_append, List.length_cons]
    omega

theorem IsName.stem_ne_nil (hn : IsName n) : (splitDot n.toList).1 ≠ [] := by
  rcases splitDot_cases n.toList with split | ⟨before, after, -, hne, -, split⟩
  · rw [split]
    exact hn.nonempty
  · rw [split]
    exact hne

theorem IsName.stem_no_slash (hn : IsName n) : '/' ∉ (splitDot n.toList).1 := by
  intro slash
  refine hn.no_slash ?_
  rcases splitDot_cases n.toList with split | ⟨before, after, text, -, -, split⟩
  · rwa [split] at slash
  · rw [split] at slash
    rw [text]
    exact List.mem_append_left _ slash

/-! ### Paths of names -/

/-- What a name says without its extension. -/
def stemComponent (n : String) : Component :=
  if (splitDot n.toList).1 = ['.'] ∨ (splitDot n.toList).1 = ['.', '.'] then .up
  else .name (String.ofList (splitDot n.toList).1)

theorem stemComponent_of_name {s : String} (hs : IsName s) (h : (splitDot n.toList).1 = s.toList) :
    stemComponent n = .name s := by
  have dot : s.toList ≠ ['.'] := fun e => hs.not_dot (String.toList_injective e)
  have up : s.toList ≠ ['.', '.'] := fun e => hs.not_up (String.toList_injective e)
  rw [stemComponent, h, if_neg (by simp [dot, up]), String.ofList_toList]

theorem stemComponent_eq_name {s : String} (h : stemComponent n = .name s) :
    (splitDot n.toList).1 = s.toList := by
  unfold stemComponent at h
  split at h
  · exact absurd h (by simp)
  · rw [← Component.name.inj h, String.toList_ofList]

theorem cutEach_concat {piece : String} (h : ∀ m ∈ ns, IsName m) (slash : '/' ∉ piece.toList) :
    Text.cutEach '/' (ofNames (ns ++ [piece])).chars = ns.map String.toList ++ [piece.toList] := by
  rw [ofNames, chars_ofChars, List.map_append, List.map_singleton, Text.cutEach_glue (by simp)]
  intro q hq
  rcases List.mem_append.1 hq with hq | hq
  · obtain ⟨m, hm, rfl⟩ := List.mem_map.1 hq
    exact (h m hm).no_slash
  · rwa [List.mem_singleton.1 hq]

/-- A path of names and one more piece, which may lead up. -/
theorem components_concat {piece : String} (h : ∀ m ∈ ns, IsName m) (hne : piece.toList ≠ [])
    (slash : '/' ∉ piece.toList) (dot : piece ≠ ".") :
    (ofNames (ns ++ [piece])).components = ns.map .name ++
      [if piece = ".." then .up else .name piece] := by
  have dotChars : piece.toList ≠ ['.'] := fun e => dot (String.toList_injective e)
  have bare : cut (ofNames (ns ++ [piece])).chars =
      (.bare, ns.map String.toList ++ [piece.toList]) := by
    unfold cut
    rw [cutEach_concat h slash]
    cases ns with
    | nil =>
      split
      · next e => exact absurd (List.cons.inj e).1 hne
      · next e => exact absurd (List.cons.inj e).1 dotChars
      · rfl
    | cons m ms =>
      have first := h m List.mem_cons_self
      split
      · next e => exact absurd (List.cons.inj e).1 first.nonempty
      · next e =>
        exact absurd (String.toList_injective (List.cons.inj e).1) first.not_dot
      · rfl
  have names : (ns.map String.toList).filterMap pieceComponent? = ns.map .name := by
    by_cases empty : ns = []
    · rw [empty]
      rfl
    · have whole := components_ofNames h
      rwa [components, lead, body, cut_ofNames h empty] at whole
  have last : pieceComponent? piece.toList =
      some (if piece = ".." then .up else .name piece) := by
    have telling : isIdle piece.toList = false := by simp [isIdle, hne, dotChars]
    have up : piece.toList = ['.', '.'] ↔ piece = ".." := @String.toList_inj _ ".."
    rw [pieceComponent?, telling, if_neg Bool.false_ne_true, String.ofList_toList]
    simp only [up]
    split <;> rfl
  rw [components, lead, body, bare, List.filterMap_append, names,
    List.filterMap_cons_some last, List.filterMap_nil]
  rfl

/-- A name with another extension, or with none when it is empty. Two dots without their
extension lead up. -/
def extended (n ext : String) : String :=
  if (splitDot n.toList).1 = ['.'] then ".."
  else String.ofList (if ext.isEmpty then (splitDot n.toList).1
    else (splitDot n.toList).1 ++ '.' :: ext.toList)

/-- The last name of a path has its extension. -/
theorem extension?_of_components {cs : List Component} (h : p.components = cs ++ [.name n]) :
    p.extension? = (splitDot n.toList).2.map String.ofList := by
  rw [extension?, fileChars?_of_components h, Option.bind_some]

/-- A name without its extension is something in a folder, or leads up. -/
theorem IsName.extended (hn : IsName n) : (extended n "").toList ≠ [] ∧
    '/' ∉ (extended n "").toList ∧ Path.extended n "" ≠ "." := by
  by_cases dot : (splitDot n.toList).1 = ['.']
  · rw [Path.extended, if_pos dot]
    decide
  · have stem : String.ofList (splitDot n.toList).1 ≠ "." := fun e =>
      dot (String.ofList_inj.1 (e.trans (String.ofList_toList (s := ".")).symm))
    rw [Path.extended, if_neg dot, if_pos (by rfl), String.toList_ofList]
    exact ⟨hn.stem_ne_nil, hn.stem_no_slash, stem⟩

section

variable (h : ∀ m ∈ ns, IsName m) (hn : IsName n)

include h hn

theorem extension?_ofNames :
    (ofNames (ns ++ [n])).extension? = (splitDot n.toList).2.map String.ofList := by
  rw [extension?, fileChars?_ofNames h hn, Option.bind_some]

theorem stem?_ofNames :
    (ofNames (ns ++ [n])).stem? = some (String.ofList (splitDot n.toList).1) := by
  rw [stem?, fileChars?_ofNames h hn, Option.map_some]

/-- The text of a path of names with another extension, or with none. -/
theorem withExtension_ofNames (ext : String) :
    (ofNames (ns ++ [n])).withExtension ext = ofNames (ns ++ [extended n ext]) := by
  have cut := cut_ofNames (isName_concat h hn) (by simp)
  have body : (ofNames (ns ++ [n])).body = ns.map String.toList ++ [n.toList] := by
    rw [Path.body, cut]
    simp
  have lead : (ofNames (ns ++ [n])).lead = .bare := by rw [Path.lead, cut]
  have up : n.toList ≠ ['.', '.'] := fun e => hn.not_up (String.toList_injective e)
  have built (piece : String) : build .bare (ns.map String.toList ++ [piece.toList]) =
      ofNames (ns ++ [piece]) := by
    rw [build, ofNames, List.map_append, List.map_singleton]
  rw [withExtension, splitLast?_of_body hn body]
  simp only [up, if_false, body, lead, List.getLast?_concat, decide_true, Bool.and_true]
  rw [← built, extended]
  by_cases dot : (splitDot n.toList).1 = ['.']
  · simp [dot]
  · simp [dot]

/-- **Without its extension a path of names ends with the stem of the last one.** -/
theorem components_withExtension :
    ((ofNames (ns ++ [n])).withExtension "").components = ns.map .name ++ [stemComponent n] := by
  obtain ⟨written, slash, notDot⟩ := hn.extended
  rw [withExtension_ofNames h hn, components_concat h written slash notDot, extended, stemComponent]
  by_cases dot : (splitDot n.toList).1 = ['.']
  · simp [dot]
  · have up : String.ofList (splitDot n.toList).1 = ".." ↔ (splitDot n.toList).1 = ['.', '.'] :=
      String.ofList_inj
    simp [dot, up]

/-- Leaving out the extension takes no component away. -/
theorem length_withExtension : ((ofNames (ns ++ [n])).withExtension "").components.length =
    (ofNames (ns ++ [n])).components.length := by
  rw [components_withExtension h hn, components_ofNames (isName_concat h hn)]
  simp

/-- Without its extension a path of names is a normal path where it says the same. -/
theorem withExtension_eq_of_same {q : Path} (normal : q.IsNormal)
    (same : ((ofNames (ns ++ [n])).withExtension "").same q = true) :
    (ofNames (ns ++ [n])).withExtension "" = q := by
  obtain ⟨names, rfl, isName⟩ := normal.exists_names
  rw [same_iff, components_withExtension h hn, components_ofNames isName] at same
  rcases List.eq_nil_or_concat names with rfl | ⟨ms, m, rfl⟩
  · simp at same
  rw [List.concat_eq_append] at isName same ⊢
  rw [List.map_append, List.map_singleton] at same
  obtain ⟨rfl, last⟩ := concat_names_inj.1 same
  have hm := isName m (by simp)
  have stem := stemComponent_eq_name last
  have dot : m.toList ≠ ['.'] := fun e => hm.not_dot (String.toList_injective e)
  rw [withExtension_ofNames h hn, extended, stem, if_neg dot, if_pos (by rfl),
    String.ofList_toList]

end

/-- A name that was given an extension is cut there, if the path says the same. -/
theorem splitDot_of_extension? {stem : List Char} {ext : String} (h : ∀ m ∈ ns, IsName m)
    (hn : IsName (String.ofList (stem ++ '.' :: ext.toList)))
    (hext : (ofNames (ns ++ [String.ofList (stem ++ '.' :: ext.toList)])).extension? = some ext) :
    splitDot (String.ofList (stem ++ '.' :: ext.toList)).toList = (stem, some ext.toList) := by
  rw [extension?_ofNames h hn, String.toList_ofList] at hext
  obtain ⟨after, split, same⟩ := Option.map_eq_some_iff.1 hext
  rw [← same, String.toList_ofList] at split ⊢
  rw [String.toList_ofList]
  exact splitDot_of_snd split

end Path
end Attic
