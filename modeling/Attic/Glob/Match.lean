import Attic.Glob.Pattern

/-!
# What a glob pattern matches

A token list matches a text when the text splits into parts that the tokens
stand for. A run stands for any part and, where slashes are literal, for any
part without a slash; `deep` stands for nothing, for whole components with
their slashes, or for everything that is left.

Key definitions: `Glob.Choice.holds`, `Glob.afterRun`, `Glob.afterDeep`,
`Glob.matchTokens`, `Glob.Pattern.accepts`.
Key theorems: `Glob.afterRun_iff`, `Glob.afterDeep_iff`.
-/

namespace Attic
namespace Glob

def Choice.holds (c : Char) : Choice → Bool
  | .one a => c == a
  | .range first last => first ≤ c && c ≤ last

/-- One token that stands for one character. A literal slash is needed where
`literal` is set. -/
def Token.holds (literal : Bool) (c : Char) : Token → Bool
  | .char a => c == a
  | .any => !(literal && c == '/')
  | .within choices => !(literal && c == '/') && choices.any (Choice.holds c)
  | .except choices => !(literal && c == '/') && !choices.any (Choice.holds c)
  | .run => false
  | .deep => false

/-- Whether `k` accepts what is left after some run of characters. -/
def afterRun (literal : Bool) (k : List Char → Bool) : List Char → Bool
  | [] => k []
  | c :: cs => k (c :: cs) || (!(literal && c == '/') && afterRun literal k cs)

/-- Whether `k` accepts what is left after some slash, or nothing. -/
def afterSlash (k : List Char → Bool) : List Char → Bool
  | [] => k []
  | c :: cs => (c == '/' && k cs) || afterSlash k cs

/-- Whether `k` accepts the text, or what is left after some slash of it, or
nothing. -/
def afterDeep (k : List Char → Bool) (cs : List Char) : Bool := k cs || afterSlash k cs

/-- Whether a text splits into parts that the tokens stand for. -/
def matchTokens (literal : Bool) : List Token → List Char → Bool
  | [], cs => cs.isEmpty
  | .run :: ts, cs => afterRun literal (matchTokens literal ts) cs
  | .deep :: ts, cs => afterDeep (matchTokens literal ts) cs
  | t :: ts, cs =>
    match cs with
    | [] => false
    | c :: cs => t.holds literal c && matchTokens literal ts cs

/-- Whether the pattern matches the whole text. -/
def Pattern.accepts (p : Pattern) (cs : List Char) : Bool := matchTokens false p.tokens cs

/-- Whether the pattern matches the whole text, slashes only by themselves and
by `**`. -/
def Pattern.acceptsParts (p : Pattern) (cs : List Char) : Bool := matchTokens true p.tokens cs

theorem afterRun_iff {literal : Bool} {k : List Char → Bool} : ∀ {cs : List Char},
    afterRun literal k cs = true ↔
      ∃ u v, cs = u ++ v ∧ (literal = true → '/' ∉ u) ∧ k v = true
  | [] => by
    constructor
    · exact fun h => ⟨[], [], rfl, by simp, h⟩
    · rintro ⟨u, v, e, -, h⟩
      obtain ⟨-, rfl⟩ := List.append_eq_nil_iff.1 e.symm
      exact h
  | c :: cs => by
    rw [afterRun, Bool.or_eq_true, Bool.and_eq_true, afterRun_iff]
    constructor
    · rintro (h | ⟨hc, u, v, rfl, hu, h⟩)
      · exact ⟨[], c :: cs, rfl, by simp, h⟩
      · refine ⟨c :: u, v, rfl, fun hl => ?_, h⟩
        have hc' : c ≠ '/' := by
          rintro rfl
          simp [hl] at hc
        simp [Ne.symm hc', hu hl]
    · rintro ⟨u, v, e, hu, h⟩
      cases u with
      | nil => exact Or.inl (by rw [e]; exact h)
      | cons d u =>
        obtain ⟨rfl, rfl⟩ := List.cons.inj e
        refine Or.inr ⟨?_, u, v, rfl, fun hl m => hu hl (List.mem_cons_of_mem c m), h⟩
        cases literal with
        | false => simp
        | true =>
          have hd := hu rfl
          simp only [List.mem_cons, not_or] at hd
          simpa using Ne.symm hd.1

theorem afterSlash_iff {k : List Char → Bool} : ∀ {cs : List Char},
    afterSlash k cs = true ↔ k [] = true ∨ ∃ u v, cs = u ++ '/' :: v ∧ k v = true
  | [] => by simp [afterSlash]
  | c :: cs => by
    rw [afterSlash, Bool.or_eq_true, Bool.and_eq_true, afterSlash_iff]
    constructor
    · rintro (⟨hc, h⟩ | h | ⟨u, v, rfl, h⟩)
      · exact Or.inr ⟨[], cs, by simp [beq_iff_eq.1 hc], h⟩
      · exact Or.inl h
      · exact Or.inr ⟨c :: u, v, rfl, h⟩
    · rintro (h | ⟨u, v, e, h⟩)
      · exact Or.inr (Or.inl h)
      · cases u with
        | nil =>
          obtain ⟨rfl, rfl⟩ := List.cons.inj e
          exact Or.inl ⟨rfl, h⟩
        | cons d u =>
          obtain ⟨rfl, rfl⟩ := List.cons.inj e
          exact Or.inr (Or.inr ⟨u, v, rfl, h⟩)

/-- `**` stands for nothing, for everything, or for all up to some slash. -/
theorem afterDeep_iff {k : List Char → Bool} {cs : List Char} :
    afterDeep k cs = true ↔
      k cs = true ∨ k [] = true ∨ ∃ u v, cs = u ++ '/' :: v ∧ k v = true := by
  rw [afterDeep, Bool.or_eq_true, afterSlash_iff]

end Glob
end Attic
