import Attic.Glob.Match
import Attic.Text.Lines
import Mathlib

/-!
# Patterns of texts with gaps

A text with gaps is written as a pattern: a star for each gap, and every other
character so that it stands for itself. The pattern can be read if and only if no two
gaps adjoin, other than two that are a whole component. What is read then matches
each text that comes of the gaps: a star stands for what fills its gap, and the two
that are a component stand for that component and its slash.

Key definitions: `Glob.symbol`, `Glob.Filled`, `Glob.IsReadable`, `Glob.Covers`.
Key theorems: `Glob.Filled.pieces`, `Glob.matchTokens_map_token`, `Glob.readFrom_symbols`,
`Glob.readFrom_parts`, `Glob.read_readable`, `Glob.read_apart`, `Glob.read_unreadable`.
-/

namespace Attic
namespace Glob

variable {gap c : Char} {t u v cs : List Char} {a b done more : List Token}
variable {fuel pos : ℕ} {last : Option Char} {ts vs : List (List Char)}

/-! ### Texts with gaps -/

/-- What a character is written as: a gap as a star, others to stand for themselves. -/
def symbol (gap c : Char) : List Char := if c = gap then ['*'] else escape [c]

/-- What a character of a text with gaps is read as. -/
def token (gap c : Char) : Token :=
  if c = gap then .run
  else if c = '?' || c = '*' || c = '[' || c = ']' then .within [.one c] else .char c

/-- Whether a text comes of another by filling its gaps without a slash. -/
inductive Filled (gap : Char) : List Char → List Char → Prop
  | nil : Filled gap [] []
  | char (c : Char) {t v : List Char} : Filled gap t v → Filled gap (c :: t) (c :: v)
  | fill {value : List Char} {t v : List Char} : '/' ∉ value → Filled gap t v →
    Filled gap (gap :: t) (value ++ v)

/-- Whether the gaps of a component can be written as stars: no two adjoin, or two are all
there is. -/
def IsReadable (gap : Char) (t : List Char) : Prop := ¬ [gap, gap] <:+: t ∨ t = [gap, gap]

theorem Filled.refl : ∀ cs : List Char, Filled gap cs cs
  | [] => .nil
  | c :: cs => .char c (Filled.refl cs)

/-- Without a gap nothing is filled. -/
theorem Filled.eq_of_not_mem (h : Filled gap t v) (none : gap ∉ t) : t = v := by
  induction h with
  | nil => rfl
  | char c _ ih =>
    rw [List.mem_cons, not_or] at none
    rw [ih none.2]
  | fill => exact absurd List.mem_cons_self none

/-- A gap is filled wherever it stands. -/
theorem Filled.around {value : List Char} (slash : '/' ∉ value) (v : List Char) :
    ∀ u : List Char, Filled gap (u ++ gap :: v) (u ++ value ++ v)
  | [] => .fill slash (.refl v)
  | c :: u => .char c (Filled.around slash v u)

/-- One gap adjoins no other. -/
theorem not_adjoining (hu : gap ∉ u) (hv : gap ∉ v) : ¬ [gap, gap] <:+: u ++ gap :: v := by
  intro adjoin
  have two := adjoin.sublist.count_le gap
  simp [List.count_eq_zero_of_not_mem hu, List.count_eq_zero_of_not_mem hv] at two

theorem cutEach_append_first (h : '/' ∉ v) {q : List Char} {qs : List (List Char)}
    (pieces : Text.cutEach '/' cs = q :: qs) : Text.cutEach '/' (v ++ cs) = (v ++ q) :: qs := by
  induction v with
  | nil => exact pieces
  | cons c v ih =>
    rw [List.mem_cons, not_or] at h
    rw [List.cons_append, Text.cutEach_cons, ih h.2, Text.cutStep, if_neg (Ne.symm h.1)]
    rfl

/-- Filled gaps leave the components of a text apart. -/
theorem Filled.pieces (hgap : gap ≠ '/') (h : Filled gap t v) :
    List.Forall₂ (Filled gap) (Text.cutEach '/' t) (Text.cutEach '/' v) := by
  induction h with
  | nil => exact .cons .nil .nil
  | @char c t v _ ih =>
    obtain ⟨q, qs, hq⟩ := List.exists_cons_of_ne_nil (Text.cutEach_ne_nil '/' t)
    obtain ⟨r, rs, hr⟩ := List.exists_cons_of_ne_nil (Text.cutEach_ne_nil '/' v)
    rw [Text.cutEach_cons, Text.cutEach_cons, hq, hr]
    rw [hq, hr] at ih
    by_cases sep : c = '/'
    · rw [Text.cutStep, Text.cutStep, if_pos sep, if_pos sep]
      exact .cons .nil ih
    · rw [Text.cutStep, Text.cutStep, if_neg sep, if_neg sep]
      cases ih with
      | cons first more => exact .cons (.char c first) more
  | @fill value t v slash _ ih =>
    obtain ⟨q, qs, hq⟩ := List.exists_cons_of_ne_nil (Text.cutEach_ne_nil '/' t)
    obtain ⟨r, rs, hr⟩ := List.exists_cons_of_ne_nil (Text.cutEach_ne_nil '/' v)
    have first : Text.cutEach '/' (gap :: t) = (gap :: q) :: qs :=
      cutEach_append_first (v := [gap]) (by simpa using hgap.symm) hq
    rw [first, cutEach_append_first slash hr]
    rw [hq, hr] at ih
    cases ih with
    | cons first more => exact .cons (.fill slash first) more

/-! ### What tokens cover -/

/-- Tokens that match a text in front of everything that is matched by more tokens. -/
def Covers (ts : List Token) (u : List Char) : Prop :=
  ∀ more cs, matchTokens true more cs = true → matchTokens true (ts ++ more) (u ++ cs) = true

theorem covers_nil : Covers [] [] := fun _ _ h => h

theorem Covers.append (ha : Covers a u) (hb : Covers b v) : Covers (a ++ b) (u ++ v) := by
  intro more cs h
  rw [List.append_assoc, List.append_assoc]
  exact ha _ _ (hb _ _ h)

theorem Covers.holds (h : Covers a u) : matchTokens true a u = true := by
  have all := h [] [] (by rfl)
  rwa [List.append_nil, List.append_nil] at all

theorem covers_run (h : '/' ∉ v) : Covers [.run] v := by
  intro more cs rest
  rw [List.singleton_append, matchTokens, afterRun_iff]
  exact ⟨v, cs, rfl, fun _ => h, rest⟩

theorem covers_token (h : c ≠ gap) : Covers [token gap c] [c] := by
  intro more cs rest
  rw [token, if_neg h]
  split
  · next special =>
    have slash : c ≠ '/' := by
      rintro rfl
      exact absurd special (by decide)
    simp [matchTokens, Token.holds, Choice.holds, slash, rest]
  · simp [matchTokens, Token.holds, rest]

theorem Filled.covers (hgap : gap ≠ '/') (h : Filled gap t v) : Covers (t.map (token gap)) v := by
  induction h with
  | nil => exact covers_nil
  | char c _ ih =>
    by_cases hole : c = gap
    · have run : Covers [token gap c] [c] := by
        rw [token, if_pos hole]
        exact covers_run (by simpa [hole] using hgap.symm)
      exact run.append ih
    · exact (covers_token hole).append ih
  | @fill value _ _ slash _ ih =>
    have run : Covers [token gap gap] value := by
      rw [token, if_pos rfl]
      exact covers_run slash
    exact run.append ih

/-- **Tokens of a text with gaps match what comes of the gaps, and nothing else.** -/
theorem matchTokens_map_token (hgap : gap ≠ '/') :
    matchTokens true (t.map (token gap)) v = true ↔ Filled gap t v := by
  constructor
  · intro h
    induction t generalizing v with
    | nil =>
      obtain rfl := List.isEmpty_iff.1 h
      exact .nil
    | cons c t ih =>
      rw [List.map_cons, token] at h
      split at h
      · next hole =>
        rw [matchTokens, afterRun_iff] at h
        obtain ⟨value, rest, rfl, slash, h⟩ := h
        rw [hole]
        exact .fill (slash rfl) (ih h)
      · have one {d : Char} {v : List Char} (same : d = c) (h : Filled gap t v) :
            Filled gap (c :: t) (d :: v) := same ▸ .char c h
        split at h
        · cases v with
          | nil => exact absurd h (by simp [matchTokens])
          | cons d v =>
            simp only [matchTokens, Token.holds, List.any_cons, List.any_nil, Choice.holds,
              Bool.and_eq_true, Bool.or_false, beq_iff_eq] at h
            exact one h.1.2 (ih h.2)
        · cases v with
          | nil => exact absurd h (by simp [matchTokens])
          | cons d v =>
            simp only [matchTokens, Token.holds, Bool.and_eq_true, beq_iff_eq] at h
            exact one h.1 (ih h.2)
  · exact fun h => (h.covers hgap).holds

/-! ### Two stars -/

theorem matchTokens_mono (h : ∀ cs, matchTokens true a cs = true → matchTokens true b cs = true) :
    ∀ (ts : List Token) (cs : List Char), matchTokens true (ts ++ a) cs = true →
      matchTokens true (ts ++ b) cs = true
  | [], cs, ha => h cs ha
  | t :: ts, cs, ha => by
    have ih := matchTokens_mono h ts
    rw [List.cons_append] at ha ⊢
    cases t with
    | run =>
      rw [matchTokens, afterRun_iff] at ha ⊢
      obtain ⟨u, v, e, slash, rest⟩ := ha
      exact ⟨u, v, e, slash, ih v rest⟩
    | deep =>
      rw [matchTokens, afterDeep_iff] at ha ⊢
      exact ha.imp (ih cs) (Or.imp (ih []) fun ⟨u, v, e, rest⟩ => ⟨u, v, e, ih v rest⟩)
    | char | any | within | except =>
      cases cs with
      | nil => simp [matchTokens] at ha
      | cons c cs =>
        simp only [matchTokens, Bool.and_eq_true] at ha ⊢
        exact ⟨ha.1, ih cs ha.2⟩

/-- Right after `**` another one says nothing new. -/
theorem matchTokens_deep_deep (h : matchTokens true (.deep :: .deep :: more) cs = true) :
    matchTokens true (.deep :: more) cs = true := by
  have nothing (h : matchTokens true (.deep :: more) [] = true) :
      matchTokens true more [] = true := by
    rw [matchTokens, afterDeep_iff] at h
    rcases h with h | h | ⟨u, v, e, -⟩
    · exact h
    · exact h
    · simp at e
  rw [matchTokens, afterDeep_iff] at h
  rcases h with h | h | ⟨u, v, rfl, h⟩
  · exact h
  · rw [matchTokens, afterDeep_iff]
    exact .inr (.inl (nothing h))
  · rw [matchTokens, afterDeep_iff] at h ⊢
    rcases h with h | h | ⟨w, x, rfl, h⟩
    · exact .inr (.inr ⟨u, v, rfl, h⟩)
    · exact .inr (.inl h)
    · exact .inr (.inr ⟨u ++ '/' :: w, x, by simp, h⟩)

/-- What is matched by `**` and more is matched by them behind tokens, also where the `**`
is left out. -/
theorem matchTokens_pushDeep (h : Covers done.reverse u)
    (rest : matchTokens true (.deep :: more) cs = true) :
    matchTokens true ((pushDeep done).reverse ++ more) (u ++ cs) = true := by
  have all := h _ _ rest
  unfold pushDeep
  split
  · next first before =>
    rw [List.reverse_cons, List.append_assoc] at all ⊢
    exact matchTokens_mono (fun _ => matchTokens_deep_deep) _ _ all
  · rwa [List.reverse_cons, List.append_assoc]

theorem covers_pushDeep (h : Covers done.reverse u) (v : List Char) :
    Covers (pushDeep done).reverse (u ++ (v ++ ['/'])) := by
  intro more cs rest
  rw [List.append_assoc, List.append_assoc]
  refine matchTokens_pushDeep h ?_
  rw [matchTokens, afterDeep_iff]
  exact .inr (.inr ⟨v, cs, rfl, rest⟩)

theorem holds_pushDeep (h : Covers done.reverse u) (v : List Char) :
    matchTokens true (pushDeep done).reverse (u ++ v) = true := by
  have rest : matchTokens true [.deep] v = true := by
    rw [matchTokens, afterDeep_iff]
    exact .inr (.inl (by rfl))
  have all := matchTokens_pushDeep h rest
  rwa [List.append_nil] at all

/-! ### Reading symbols -/

/-- A star is read as a run, unless another one follows. -/
theorem readFrom_star (h : cs.head? ≠ some '*') :
    readFrom (fuel + 1) pos last done ('*' :: cs) =
      readFrom fuel (pos + 1) (some '*') (.run :: done) cs := by
  have none : cs.takeWhile (· = '*') = [] ∧ cs.dropWhile (· = '*') = cs := by
    cases cs with
    | nil => simp
    | cons d cs =>
      have star : d ≠ '*' := by simpa using h
      simp [star]
  rw [readFrom, none.1, none.2]

/-- A character in brackets is read as itself. -/
theorem readFrom_bracket (h : c ≠ '!') :
    readFrom (fuel + 1) pos last done ('[' :: c :: ']' :: cs) =
      readFrom fuel (pos + 3) (some ']') (.within [.one c] :: done) cs := by
  have bracket : readBracket? (c :: ']' :: cs) = some ([c], cs) := by simp [readBracket?]
  have inside : readClass? (c :: ']' :: cs) = some (.within [.one c], cs) := by
    unfold readClass?
    split
    · next e => exact absurd (List.cons.inj e).1 h
    · rw [bracket]
      rfl
  have width : pos + 1 + ((c :: ']' :: cs).length - cs.length) = pos + 3 := by
    simp only [List.length_cons]
    omega
  rw [readFrom, inside]
  simp only [width]

/-- Any character but three is read as itself. -/
theorem readFrom_char (any : c ≠ '?') (star : c ≠ '*') (bracket : c ≠ '[') :
    readFrom (fuel + 1) pos last done (c :: cs) =
      readFrom fuel (pos + 1) (some c) (.char c :: done) cs := by
  rw [readFrom.eq_def]
  split <;> simp_all

/-- A symbol is read as its token. -/
theorem readFrom_symbol (fuel pos : ℕ) (last : Option Char) (done : List Token)
    (apart : c = gap → cs.head? ≠ some '*') :
    ∃ pos' last', 0 < pos' ∧ (c ≠ '/' → last' ≠ some '/') ∧
      readFrom (fuel + 1) pos last done (symbol gap c ++ cs) =
        readFrom fuel pos' last' (token gap c :: done) cs := by
  unfold symbol token
  by_cases hole : c = gap
  · rw [if_pos hole, if_pos hole]
    exact ⟨pos + 1, some '*', by omega, by simp, readFrom_star (apart hole)⟩
  rw [if_neg hole, if_neg hole]
  by_cases special : (c = '?' || c = '*' || c = '[' || c = ']') = true
  · have written : escape [c] = ['[', c, ']'] := by
      rw [escape, List.flatMap_singleton]
      exact if_pos special
    have bang : c ≠ '!' := by
      rintro rfl
      exact absurd special (by decide)
    rw [if_pos special, written]
    exact ⟨pos + 3, some ']', by omega, by simp, readFrom_bracket bang⟩
  · have written : escape [c] = [c] := by
      rw [escape, List.flatMap_singleton]
      exact if_neg special
    rw [if_neg special, written]
    simp only [Bool.or_eq_true, decide_eq_true_eq, not_or] at special
    obtain ⟨⟨⟨any, star⟩, opening⟩, -⟩ := special
    exact ⟨pos + 1, some c, by omega, by simp, readFrom_char any star opening⟩

/-- Symbols start with a star only for a gap, and never with a slash. -/
theorem head?_symbols (t : List Char) (h : t.head? ≠ some gap)
    (hcs : t = [] → cs.head? ≠ some '*') : (t.flatMap (symbol gap) ++ cs).head? ≠ some '*' := by
  cases t with
  | nil => exact hcs rfl
  | cons c t =>
    have other : c ≠ gap := by simpa using h
    rw [List.flatMap_cons, symbol, if_neg other, escape, List.flatMap_singleton]
    split
    · simp
    · next plain =>
      have star : c ≠ '*' := by
        rintro rfl
        exact plain (by decide)
      simpa using star

theorem head?_symbols_slash (gap : Char) (cs : List Char) (hne : t ≠ []) (slash : '/' ∉ t) :
    ∃ d ds, t.flatMap (symbol gap) ++ cs = d :: ds ∧ d ≠ '/' := by
  obtain ⟨c, t, rfl⟩ := List.exists_cons_of_ne_nil hne
  rw [List.mem_cons, not_or] at slash
  rw [List.flatMap_cons, symbol]
  split
  · exact ⟨_, _, rfl, by decide⟩
  · rw [escape, List.flatMap_singleton]
    split
    · exact ⟨_, _, rfl, by decide⟩
    · exact ⟨_, _, rfl, Ne.symm slash.1⟩

theorem symbols_gaps (t cs : List Char) : (gap :: gap :: t).flatMap (symbol gap) ++ cs =
    '*' :: '*' :: (t.flatMap (symbol gap) ++ cs) := by
  simp [symbol]

theorem length_symbol (gap c : Char) : 1 ≤ (symbol gap c).length := by
  unfold symbol escape
  split
  · simp
  · rw [List.flatMap_singleton]
    split <;> simp

/-- Symbols are read as their tokens if no gaps adjoin. -/
theorem readFrom_symbols : ∀ (t cs : List Char) (fuel pos : ℕ) (last : Option Char)
    (done : List Token), ¬ [gap, gap] <:+: t → cs.head? ≠ some '*' →
    (t.flatMap (symbol gap) ++ cs).length < fuel →
    ∃ fuel' pos' last', cs.length < fuel' ∧
      readFrom fuel pos last done (t.flatMap (symbol gap) ++ cs) =
        readFrom fuel' pos' last' ((t.map (token gap)).reverse ++ done) cs
  | [], cs, fuel, pos, last, done, _, _, enough => ⟨fuel, pos, last, enough, rfl⟩
  | c :: t, cs, 0, _, _, _, _, _, enough => absurd enough (Nat.not_lt_zero _)
  | c :: t, cs, fuel + 1, pos, last, done, apart, hcs, enough => by
    rw [List.infix_cons_iff, not_or] at apart
    have follows : c = gap → (t.flatMap (symbol gap) ++ cs).head? ≠ some '*' := by
      rintro rfl
      refine head?_symbols t (fun head => apart.1 ?_) fun _ => hcs
      obtain ⟨t', rfl⟩ := List.head?_eq_some_iff.1 head
      simp
    obtain ⟨pos', last', -, -, read⟩ := readFrom_symbol fuel pos last done follows
    rw [List.flatMap_cons, List.append_assoc] at enough ⊢
    rw [read, List.map_cons, List.reverse_cons, List.append_assoc]
    refine readFrom_symbols t cs fuel pos' last' _ apart.2 hcs ?_
    have one := length_symbol gap c
    rw [List.length_append] at enough
    omega

/-! ### Adjoining gaps -/

/-- Two stars that are a component are read as one token, with the slash behind them. -/
theorem readFrom_deep (start : pos = 0 ∨ last = some '/') :
    readFrom (fuel + 1) pos last done ('*' :: '*' :: '/' :: cs) =
      readFrom fuel (pos + 3) (some '/') (pushDeep done) cs := by
  simp [readFrom, start]

theorem readFrom_deep_last (start : pos = 0 ∨ last = some '/') :
    readFrom (fuel + 1) pos last done ['*', '*'] = .ok (pushDeep done).reverse := by
  simp [readFrom, start]

/-- Two stars cannot be read where something else stands in their component. -/
theorem readFrom_stars
    (more : ¬ (pos = 0 ∨ last = some '/') ∨ ∃ d ds, cs = d :: ds ∧ d ≠ '/') :
    ∃ flaw, readFrom (fuel + 1) pos last done ('*' :: '*' :: cs) = .error flaw := by
  by_cases three : cs.head? = some '*'
  · obtain ⟨ds, rfl⟩ := List.head?_eq_some_iff.1 three
    exact ⟨⟨pos + 2, .tooManyStars⟩, by simp [readFrom]⟩
  by_cases start : pos = 0 ∨ last = some '/'
  · obtain ⟨d, ds, rfl, slash⟩ := more.resolve_left (not_not_intro start)
    have star : d ≠ '*' := by simpa using three
    exact ⟨⟨pos + 2, .partialDeep⟩, by simp [readFrom, start, star, slash]⟩
  · cases cs with
    | nil => exact ⟨⟨pos - 1, .partialDeep⟩, by simp [readFrom, start]⟩
    | cons d ds =>
      have star : d ≠ '*' := by simpa using three
      exact ⟨⟨pos - 1, .partialDeep⟩, by simp [readFrom, start, star]⟩

/-- Gaps that adjoin in a text do so at its start or further on. -/
theorem adjoining_cons (h : [gap, gap] <:+: c :: t) :
    (c = gap ∧ ∃ t', t = gap :: t') ∨ (¬ (c = gap ∧ t.head? = some gap) ∧ [gap, gap] <:+: t) := by
  by_cases two : c = gap ∧ t.head? = some gap
  · obtain ⟨t', rfl⟩ := List.head?_eq_some_iff.1 two.2
    exact .inl ⟨two.1, t', rfl⟩
  · rcases List.infix_cons_iff.1 h with ⟨t', same⟩ | later
    · obtain ⟨rfl, rfl⟩ := List.cons.inj same
      exact absurd ⟨rfl, rfl⟩ two
    · exact .inr ⟨two, later⟩

/-- Before gaps that adjoin further on a symbol is read as its token. -/
theorem readFrom_before (pos : ℕ) (last : Option Char) (done : List Token) (slash : c ≠ '/')
    (two : ¬ (c = gap ∧ t.head? = some gap)) (later : [gap, gap] <:+: t)
    (enough : ((c :: t).flatMap (symbol gap) ++ cs).length < fuel + 1) :
    ∃ pos' last', 0 < pos' ∧ last' ≠ some '/' ∧
      (t.flatMap (symbol gap) ++ cs).length < fuel ∧
      readFrom (fuel + 1) pos last done ((c :: t).flatMap (symbol gap) ++ cs) =
        readFrom fuel pos' last' (token gap c :: done) (t.flatMap (symbol gap) ++ cs) := by
  have follows : c = gap → (t.flatMap (symbol gap) ++ cs).head? ≠ some '*' := by
    intro hole
    refine head?_symbols t (fun head => two ⟨hole, head⟩) fun empty => ?_
    rw [empty] at later
    simp at later
  obtain ⟨pos', last', hpos', hlast', read⟩ := readFrom_symbol fuel pos last done follows
  rw [List.flatMap_cons, List.append_assoc] at enough ⊢
  have one := length_symbol gap c
  rw [List.length_append] at enough
  exact ⟨pos', last', hpos', hlast' slash, by omega, read⟩

/-- Gaps that adjoin behind the start of a component cannot be read. -/
theorem readFrom_adjoining : ∀ {t cs : List Char} {fuel pos : ℕ} {last : Option Char}
    {done : List Token}, '/' ∉ t → [gap, gap] <:+: t → 0 < pos → last ≠ some '/' →
    (t.flatMap (symbol gap) ++ cs).length < fuel →
    ∃ flaw, readFrom fuel pos last done (t.flatMap (symbol gap) ++ cs) = .error flaw
  | [], _, _, _, _, _, _, adjoin, _, _, _ => absurd adjoin (by simp)
  | c :: t, cs, 0, _, _, _, _, _, _, _, enough => absurd enough (Nat.not_lt_zero _)
  | c :: t, cs, fuel + 1, pos, last, done, slash, adjoin, hpos, hlast, enough => by
    rw [List.mem_cons, not_or] at slash
    rcases adjoining_cons adjoin with ⟨rfl, t, rfl⟩ | ⟨two, later⟩
    · have within : ¬ (pos = 0 ∨ last = some '/') := by
        simpa [hlast] using Nat.ne_of_gt hpos
      rw [symbols_gaps]
      exact readFrom_stars (.inl within)
    · obtain ⟨pos', last', hpos', hlast', enough', read⟩ :=
        readFrom_before pos last done (Ne.symm slash.1) two later enough
      rw [read]
      exact readFrom_adjoining slash.2 later hpos' hlast' enough'

/-- A component that is not readable cannot be read. -/
theorem readFrom_unreadable (slash : '/' ∉ t) (h : ¬ IsReadable gap t)
    (enough : (t.flatMap (symbol gap) ++ cs).length < fuel) :
    ∃ flaw, readFrom fuel pos last done (t.flatMap (symbol gap) ++ cs) = .error flaw := by
  rw [IsReadable, not_or, not_not] at h
  obtain ⟨adjoin, more⟩ := h
  cases t with
  | nil => simp at adjoin
  | cons c t =>
    obtain ⟨fuel, rfl⟩ := Nat.exists_eq_succ_of_ne_zero (Nat.ne_of_gt (Nat.zero_lt_of_lt enough))
    rcases adjoining_cons adjoin with ⟨rfl, t, rfl⟩ | ⟨two, later⟩
    · have some : t ≠ [] := fun e => more (by rw [e])
      have whole : '/' ∉ t := fun m => slash (by simp [m])
      rw [symbols_gaps]
      exact readFrom_stars (.inr (head?_symbols_slash c cs some whole))
    · rw [List.mem_cons, not_or] at slash
      obtain ⟨pos', last', hpos', hlast', enough', read⟩ :=
        readFrom_before pos last done (Ne.symm slash.1) two later enough
      rw [read]
      exact readFrom_adjoining slash.2 later hpos' hlast' enough'

/-! ### Reading a pattern -/

/-- A component that is readable is read with the slash behind it. -/
theorem readFrom_part (done : List Token) (hgap : gap ≠ '/') (h : IsReadable gap t)
    (start : pos = 0 ∨ last = some '/')
    (enough : (t.flatMap (symbol gap) ++ '/' :: cs).length < fuel) :
    ∃ fuel' pos' done', cs.length < fuel' ∧
      readFrom fuel pos last done (t.flatMap (symbol gap) ++ '/' :: cs) =
        readFrom fuel' pos' (some '/') done' cs ∧
      ∀ u v, Covers done.reverse u → Filled gap t v → Covers done'.reverse (u ++ (v ++ ['/'])) := by
  rcases h with apart | rfl
  · obtain ⟨fuel', pos', last', enough', read⟩ := readFrom_symbols t ('/' :: cs) fuel pos
      last done apart (by simp) enough
    obtain ⟨fuel', rfl⟩ := Nat.exists_eq_succ_of_ne_zero (Nat.ne_of_gt (Nat.zero_lt_of_lt enough'))
    refine ⟨fuel', pos' + 1, .char '/' :: ((t.map (token gap)).reverse ++ done),
      Nat.lt_of_succ_lt_succ enough', ?_, fun u v before fills => ?_⟩
    · rw [read]
      exact readFrom_char (by decide) (by decide) (by decide)
    · have sep : Covers [token gap '/'] ['/'] := covers_token hgap.symm
      rw [token, if_neg hgap.symm, if_neg (by decide)] at sep
      have all := before.append ((fills.covers hgap).append sep)
      simpa using all
  · obtain ⟨fuel, rfl⟩ := Nat.exists_eq_succ_of_ne_zero (Nat.ne_of_gt (Nat.zero_lt_of_lt enough))
    refine ⟨fuel, pos + 3, pushDeep done, ?_, ?_, fun u v before _ => covers_pushDeep before v⟩
    · simp [symbol] at enough
      omega
    · rw [symbols_gaps]
      exact readFrom_deep start

/-- A component that is readable is read at the end of a pattern. -/
theorem readFrom_last (done : List Token) (hgap : gap ≠ '/') (h : IsReadable gap t)
    (start : pos = 0 ∨ last = some '/') (enough : (t.flatMap (symbol gap)).length < fuel) :
    ∃ tokens, readFrom fuel pos last done (t.flatMap (symbol gap)) = .ok tokens ∧
      ∀ u v, Covers done.reverse u → Filled gap t v → matchTokens true tokens (u ++ v) = true := by
  rw [← List.append_nil (t.flatMap (symbol gap))] at enough ⊢
  rcases h with apart | rfl
  · obtain ⟨fuel', pos', last', enough', read⟩ := readFrom_symbols t [] fuel pos last done
      apart (by simp) enough
    obtain ⟨fuel', rfl⟩ := Nat.exists_eq_succ_of_ne_zero (Nat.ne_of_gt (Nat.zero_lt_of_lt enough'))
    refine ⟨_, by rw [read, readFrom], fun u v before fills => ?_⟩
    have all := (before.append (fills.covers hgap)).holds
    simpa using all
  · obtain ⟨fuel, rfl⟩ := Nat.exists_eq_succ_of_ne_zero (Nat.ne_of_gt (Nat.zero_lt_of_lt enough))
    refine ⟨(pushDeep done).reverse, ?_, fun u v before _ => holds_pushDeep before v⟩
    rw [symbols_gaps]
    exact readFrom_deep_last start

/-- **A pattern of readable components is read, and what is read matches each text that
comes of the gaps.** -/
theorem readFrom_parts (hgap : gap ≠ '/') (fills : List.Forall₂ (Filled gap) ts vs) (pos : ℕ)
    (last : Option Char) (done : List Token) (hne : ts ≠ [])
    (readable : ∀ t ∈ ts, IsReadable gap t) (start : pos = 0 ∨ last = some '/')
    (before : Covers done.reverse u)
    (enough : (Text.glue '/' (ts.map (·.flatMap (symbol gap)))).length < fuel) :
    ∃ tokens, readFrom fuel pos last done (Text.glue '/' (ts.map (·.flatMap (symbol gap)))) =
        .ok tokens ∧
      matchTokens true tokens (u ++ Text.glue '/' vs) = true := by
  induction fills generalizing fuel pos last done u with
  | nil => exact absurd rfl hne
  | @cons t v ts vs first more ih =>
    have readableT := readable t List.mem_cons_self
    cases more with
    | nil =>
      obtain ⟨tokens, read, all⟩ := readFrom_last done hgap readableT start enough
      exact ⟨tokens, read, all u v before first⟩
    | cons next more =>
      obtain ⟨fuel', pos', done', enough', read, all⟩ :=
        readFrom_part done hgap readableT start enough
      obtain ⟨tokens, reads, matched⟩ := ih pos' _ done' (List.cons_ne_nil _ _)
        (fun s hs => readable s (List.mem_cons_of_mem _ hs)) (.inr rfl) (all u v before first)
        enough'
      refine ⟨tokens, read.trans reads, ?_⟩
      rw [Text.glue]
      simpa using matched

/-- A pattern with a component that is not readable is none. -/
theorem readFrom_parts_error (hgap : gap ≠ '/') : ∀ {ts : List (List Char)} {fuel : ℕ} (pos : ℕ)
    (last : Option Char) (done : List Token), (∀ t ∈ ts, '/' ∉ t) →
    (∃ t ∈ ts, ¬ IsReadable gap t) → pos = 0 ∨ last = some '/' →
    (Text.glue '/' (ts.map (·.flatMap (symbol gap)))).length < fuel →
    ∃ flaw, readFrom fuel pos last done (Text.glue '/' (ts.map (·.flatMap (symbol gap)))) =
      .error flaw
  | [], _, _, _, _, _, h, _, _ => by simp at h
  | [t], fuel, pos, last, done, slash, h, _, enough => by
    obtain ⟨s, hs, bad⟩ := h
    obtain rfl := List.mem_singleton.1 hs
    rw [List.map_singleton, Text.glue] at enough ⊢
    rw [← List.append_nil (s.flatMap (symbol gap))] at enough ⊢
    exact readFrom_unreadable (slash s (by simp)) bad enough
  | t :: t' :: ts, fuel, pos, last, done, slash, h, start, enough => by
    by_cases first : IsReadable gap t
    · obtain ⟨fuel', pos', done', enough', read, -⟩ := readFrom_part done hgap
        first start enough
      obtain ⟨s, hs, bad⟩ := h
      have later : ∃ s ∈ t' :: ts, ¬ IsReadable gap s := by
        rcases List.mem_cons.1 hs with rfl | hs
        · exact absurd first bad
        · exact ⟨s, hs, bad⟩
      obtain ⟨flaw, reads⟩ := readFrom_parts_error hgap pos' _ done'
        (fun s hs => slash s (List.mem_cons_of_mem _ hs)) later (.inr rfl) enough'
      exact ⟨flaw, read.trans reads⟩
    · exact readFrom_unreadable (slash t (by simp)) first enough

/-! ### Patterns of paths -/

theorem glue_escape (gap : Char) : ∀ cs : List Char,
    Text.glue '*' ((Text.cutEach gap cs).map escape) = cs.flatMap (symbol gap)
  | [] => rfl
  | c :: cs => by
    have ih := glue_escape gap cs
    rw [Text.cutEach_cons, List.flatMap_cons, ← ih]
    obtain ⟨p, ps, pieces⟩ := List.exists_cons_of_ne_nil (Text.cutEach_ne_nil gap cs)
    rw [pieces, symbol]
    by_cases hole : c = gap
    · simp [Text.cutStep, hole, Text.glue, escape]
    · have first : escape (c :: p) = escape [c] ++ escape p := by simp [escape]
      cases ps with
      | nil => simp [Text.cutStep, hole, Text.glue, first]
      | cons q ps => simp [Text.cutStep, hole, Text.glue, first]

theorem flatMap_glue (hgap : gap ≠ '/') : ∀ ts : List (List Char),
    (Text.glue '/' ts).flatMap (symbol gap) = Text.glue '/' (ts.map (·.flatMap (symbol gap)))
  | [] => rfl
  | [t] => rfl
  | t :: t' :: ts => by
    have sep : symbol gap '/' = ['/'] := by
      rw [symbol, if_neg hgap.symm]
      rfl
    have ih := flatMap_glue hgap (t' :: ts)
    rw [Text.glue, List.flatMap_append, List.flatMap_cons, ih, sep]
    rfl

/-- The text of the pattern of a path with gaps. -/
theorem pattern_text (hgap : gap ≠ '/') (ts : List (List Char)) :
    Text.glue '*' ((Text.cutEach gap (Text.glue '/' ts)).map escape) =
      Text.glue '/' (ts.map (·.flatMap (symbol gap))) := by
  rw [glue_escape, flatMap_glue hgap]

/-- **The pattern of a path with gaps matches each path that comes of them**, if its
components are readable. -/
theorem read_readable (hgap : gap ≠ '/') (fills : List.Forall₂ (Filled gap) ts vs) (hne : ts ≠ [])
    (readable : ∀ t ∈ ts, IsReadable gap t) :
    ∃ pattern, Pattern.read (String.ofList (Text.glue '*'
        ((Text.cutEach gap (Text.glue '/' ts)).map escape))) = .ok pattern ∧
      pattern.acceptsParts (Text.glue '/' vs) = true := by
  obtain ⟨tokens, read, all⟩ := readFrom_parts hgap fills 0 none [] hne
    readable (.inl rfl) covers_nil (Nat.lt_succ_self _)
  rw [Pattern.read, String.toList_ofList, pattern_text hgap, read]
  exact ⟨_, rfl, all⟩

/-- **The pattern of a text without adjoining gaps matches what comes of the gaps, and
nothing else.** -/
theorem read_apart (hgap : gap ≠ '/') (apart : ¬ [gap, gap] <:+: t) :
    ∃ pattern, Pattern.read (String.ofList (Text.glue '*' ((Text.cutEach gap t).map escape))) =
        .ok pattern ∧ ∀ v, pattern.acceptsParts v = true ↔ Filled gap t v := by
  obtain ⟨fuel', pos', last', enough, read⟩ := readFrom_symbols t [] _ 0 none [] apart (by simp)
    (Nat.lt_succ_self _)
  obtain ⟨fuel', rfl⟩ := Nat.exists_eq_succ_of_ne_zero (Nat.ne_of_gt (Nat.zero_lt_of_lt enough))
  rw [List.append_nil, List.append_nil] at read
  rw [glue_escape, Pattern.read, String.toList_ofList, read, readFrom]
  refine ⟨_, rfl, fun v => ?_⟩
  rw [Pattern.acceptsParts, List.reverse_reverse, matchTokens_map_token hgap]

/-- **The pattern of a path with gaps is none**, if one of its components is not readable. -/
theorem read_unreadable (hgap : gap ≠ '/') (slash : ∀ t ∈ ts, '/' ∉ t)
    (bad : ∃ t ∈ ts, ¬ IsReadable gap t) :
    ∃ flaw, Pattern.read (String.ofList (Text.glue '*'
      ((Text.cutEach gap (Text.glue '/' ts)).map escape))) = .error flaw := by
  obtain ⟨flaw, read⟩ := readFrom_parts_error hgap 0 none [] slash
    bad (.inl rfl) (Nat.lt_succ_self _)
  refine ⟨flaw, ?_⟩
  rw [Pattern.read, String.toList_ofList, pattern_text hgap, read]
  rfl

end Glob
end Attic
