/-
Wildcard comparison, and conditions with a prepared pattern.

`like` and `ilike` compare by the language of a pattern: the text of a string or of a number must be
cut along the pattern, and the pattern must be small enough to be read. A condition that compares
with a literal can read its pattern once, when it is made, and keep it. Then it does not ask its
operator any more; but it gives the result of the operator for every operator, every literal and
every value that is found, missing ones included.

* `Wildcard.Pattern`, `Wildcard.Pattern.read?` — the patterns that are read;
* `Wildcard.Pattern.any_read?` — to decide is to read a pattern and use it;
* `Operator.folded?`, `Operator.compare_like` — the operators that use patterns;
* `Qualifier.Prepared`, `Qualifier.prepare` — conditions that keep a pattern;
* `Qualifier.evaluate_prepare` — preparation does not change a condition;
* `Operator.like_language` — the language of the operators, with and without preparation.
-/
import RankedRules.Proofs.Wildcard.Expression
import RankedRules.Qualifier.Basic

namespace RankedRules

/-! ## Patterns that are read -/

namespace Wildcard

/-- A pattern that is not too large to be read, and how its characters are compared. -/
structure Pattern where
  folded : Bool
  chars : List Char
  isRead : isWithinLimit folded chars = true

namespace Pattern

/-- The pattern, if it is not too large. -/
def read? (folded : Bool) (chars : List Char) : Option Pattern :=
  if h : isWithinLimit folded chars = true then some ⟨folded, chars, h⟩ else none

/-- Whether a whole text has the form of the pattern. -/
def accepts (pattern : Pattern) (text : String) : Bool :=
  decides (sameCase pattern.folded) pattern.chars text.toList

theorem any_read? (folded : Bool) (chars : List Char) (text : String) :
    (read? folded chars).any (fun pattern => pattern.accepts text) =
      (isWithinLimit folded chars && decides (sameCase folded) chars text.toList) := by
  rw [read?]
  split
  · rename_i h
    rw [h]
    rfl
  · rename_i h
    rw [Bool.eq_false_iff.2 h]
    rfl

/-- A pattern that is read accepts the texts that can be cut along it. -/
theorem any_read?_iff {folded : Bool} {chars : List Char} {text : String} :
    (read? folded chars).any (fun pattern => pattern.accepts text) = true ↔
      isWithinLimit folded chars = true ∧ Cut (sameCase folded) chars text.toList := by
  rw [any_read?, Bool.and_eq_true, decides_iff_cut]

end Pattern

end Wildcard

/-! ## Operators with patterns -/

namespace Operator

open Wildcard

variable {op : Operator} {folded : Bool} {left right : Option Value}

/-- Whether an operator that uses patterns compares up to case. -/
def folded? : Operator → Option Bool
  | .like => some false
  | .likeFolded => some true
  | _ => none

theorem matchesPattern_iff {accepts : String → String → Bool} :
    matchesPattern accepts left right = true ↔
      ∃ text pattern, left.bind subject? = some text ∧ right = some (.string pattern) ∧
        accepts pattern text = true := by
  constructor
  · intro h
    rw [matchesPattern.eq_def] at h
    split at h
    · rename_i text pattern hleft
      exact ⟨text, pattern, hleft, rfl, h⟩
    · cases h
  · rintro ⟨text, pattern, hleft, rfl, h⟩
    rw [matchesPattern.eq_def, hleft]
    exact h

/-- An operator that uses patterns matches by reading the pattern and asking it. -/
theorem compare_like (h : op.folded? = some folded) (left right : Option Value) :
    op.compare left right = matchesPattern
      (fun pattern text => (Pattern.read? folded pattern.toList).any fun read => read.accepts text)
      left right := by
  cases op with
  | like =>
    cases h
    simp only [Pattern.any_read?]
    rfl
  | likeFolded =>
    cases h
    simp only [Pattern.any_read?]
    rfl
  | _ => cases h

/-- The language of the operators that use patterns. -/
theorem compare_like_iff (h : op.folded? = some folded) :
    op.compare left right = true ↔
      ∃ text pattern, left.bind subject? = some text ∧ right = some (.string pattern) ∧
        isWithinLimit folded pattern.toList = true ∧
          Cut (sameCase folded) pattern.toList text.toList := by
  simp only [compare_like h, matchesPattern_iff, Pattern.any_read?_iff]

end Operator

/-! ## Conditions that keep a pattern -/

namespace Qualifier

open Wildcard

/-- A comparison of the value at a path with a literal, and its pattern if it has one. -/
structure Prepared where
  path : String
  op : Operator
  literal : Value
  pattern? : Option Pattern

/-- The pattern of a comparison: a string beside an operator that uses patterns is read. -/
def patternOf? (op : Operator) (literal : Value) : Option Pattern :=
  match literal, op.folded? with
  | .string pattern, some folded => Pattern.read? folded pattern.toList
  | _, _ => none

/-- The comparison with its pattern. -/
def prepare (path : String) (op : Operator) (literal : Value) : Prepared :=
  ⟨path, op, literal, patternOf? op literal⟩

/-- The result for the value that is found. A pattern is used in place of the operator. -/
def Prepared.holds (prepared : Prepared) (found : Option Value) : Bool :=
  match prepared.pattern? with
  | some pattern => (found.bind Operator.subject?).any pattern.accepts
  | none => prepared.op.compare found (some prepared.literal)

theorem patternOf?_eq_some {op : Operator} {literal : Value} {read : Pattern}
    (h : patternOf? op literal = some read) :
    ∃ pattern folded, literal = .string pattern ∧ op.folded? = some folded ∧
      Pattern.read? folded pattern.toList = some read := by
  rw [patternOf?.eq_def] at h
  split at h
  · rename_i pattern folded hfolded
    exact ⟨pattern, folded, rfl, hfolded, h⟩
  · cases h

/-- A pattern that has been read gives the result of the operator that would read it. -/
theorem holds_prepare (path : String) (op : Operator) (literal : Value) (found : Option Value) :
    (prepare path op literal).holds found = op.compare found (some literal) := by
  rw [Prepared.holds, prepare]
  cases hpattern : patternOf? op literal with
  | none => rfl
  | some read =>
    -- There is a pattern only if the operator would read the same one from the literal.
    obtain ⟨pattern, folded, rfl, hfolded, hread⟩ := patternOf?_eq_some hpattern
    rw [Operator.compare_like hfolded, Operator.matchesPattern.eq_def]
    cases found.bind Operator.subject? with
    | none => rfl
    | some text =>
      dsimp only
      rw [hread]
      rfl

section Evaluation

variable {m : Type → Type} [Monad m] [MonadExceptOf EvalError m]

/-- Whether a prepared comparison holds. -/
def Prepared.evaluate (look : Lookup m) (prepared : Prepared) : m Bool := do
  let found ← look.path prepared.path
  pure (prepared.holds found)

/-- Preparation does not change a comparison: the same lookup is made, and its value or its error
leads to the same. -/
theorem evaluate_prepare (look : Lookup m) (path : String) (op : Operator) (literal : Value) :
    (prepare path op literal).evaluate look = evaluate look (.compare path op literal) := by
  rw [Prepared.evaluate, evaluate]
  simp only [holds_prepare]
  rfl

end Evaluation

end Qualifier

/-! ## The language of comparison -/

namespace Operator

open Wildcard

/-- `like` and `ilike` hold exactly if the pattern is read and the text of the string or number can
be cut along it, and for nothing else. Written as a regular expression the pattern describes the
same texts. A comparison with a prepared pattern is the operator on the value that is found. -/
theorem like_language :
    (∀ op folded, folded? op = some folded →
      (∀ text pattern : String, op.compare (some (.string text)) (some (.string pattern)) = true ↔
        isWithinLimit folded pattern.toList = true ∧
          Cut (sameCase folded) pattern.toList text.toList) ∧
      (∀ (n : Number) (pattern : String),
        op.compare (some (.number n)) (some (.string pattern)) = true ↔
          isWithinLimit folded pattern.toList = true ∧
            Cut (sameCase folded) pattern.toList n.text.toList) ∧
      (∀ left right, (∀ text, left ≠ some (.string text)) → (∀ n, left ≠ some (.number n)) →
        op.compare left right = false) ∧
      ∀ left right, (∀ pattern, right ≠ some (.string pattern)) → op.compare left right = false) ∧
    (∀ folded pattern text,
      Describes (source folded pattern) text ↔ Cut (sameCase folded) pattern text) ∧
    ∀ (m : Type → Type) [Monad m] [MonadExceptOf EvalError m] (look : Lookup m) path op literal,
      (Qualifier.prepare path op literal).evaluate look =
        look.path path >>= fun found => pure (op.compare found (some literal)) := by
  refine ⟨?_, fun _ _ _ => describes_source_iff, ?_⟩
  · intro op folded hop
    refine ⟨?_, ?_, ?_, ?_⟩
    · intro text pattern
      simp [compare_like_iff hop, subject?]
    · intro n pattern
      simp [compare_like_iff hop, subject?]
    · intro left right hstring hnumber
      rw [Bool.eq_false_iff, ne_eq, compare_like_iff hop]
      rintro ⟨text, pattern, hleft, -⟩
      obtain ⟨value, rfl, hvalue⟩ := Option.bind_eq_some_iff.1 hleft
      cases value with
      | string text => exact hstring text rfl
      | number n => exact hnumber n rfl
      | _ => cases hvalue
    · intro left right hright
      rw [Bool.eq_false_iff, ne_eq, compare_like_iff hop]
      rintro ⟨text, pattern, -, rfl, -⟩
      exact hright pattern rfl
  · intro m _ _ look path op literal
    rw [Qualifier.evaluate_prepare]
    rfl

/-- A point that stands for itself and a star that takes a line end, a number between two stars, a
truth value as subject and a number as pattern, and a prepared comparison. -/
theorem like_language_line_end :
    folded? like = some false ∧ folded? likeFolded = some true ∧
    like.compare (some (.string "a.\nb")) (some (.string "A.*?")) = false ∧
    likeFolded.compare (some (.string "a.\nb")) (some (.string "A.*?")) = true ∧
    like.compare (some (.number (.integer 123))) (some (.string "*2*")) = true ∧
    like.compare (some (.bool true)) (some (.string "*")) = false ∧
    like.compare (some (.string "1")) (some (.number (.integer 1))) = false ∧
    Describes (source false ['*', '+']) ['\n', '+'] ∧
    (Qualifier.prepare "k" like (.string "*")).evaluate (Lookup.ofEntries []) = .ok false := by
  obtain ⟨hlanguage, hdescribes, hprepared⟩ := like_language
  obtain ⟨hexact, hnumber, hother, hpattern⟩ := hlanguage like false rfl
  obtain ⟨hfolded, -, -, -⟩ := hlanguage likeFolded true rfl
  refine ⟨rfl, rfl, ?_, ?_, ?_, ?_, ?_, ?_, ?_⟩
  · have hnot : ¬Cut (sameCase false) "A.*?".toList "a.\nb".toList := by
      rw [← decides_iff_cut]
      decide +kernel
    rw [Bool.eq_false_iff, ne_eq, hexact]
    exact fun h => hnot h.2
  · refine (hfolded _ _).2 ⟨by decide +kernel, [['a'], ['.'], ['\n'], ['b']], rfl, ?_⟩
    have ha : Takes (sameCase true) 'A' ['a'] := .one (by decide) (by decide) (by decide)
    have hpoint : Takes (sameCase true) '.' ['.'] := .one (by decide) (by decide) (by decide)
    exact .cons ha (.cons hpoint (.cons (.star _) (.cons (.any 'b') .nil)))
  · refine (hnumber _ _).2 ⟨by decide +kernel, [['1'], ['2'], ['3']], by decide +kernel, ?_⟩
    have htwo : Takes (sameCase false) '2' ['2'] := .one (by decide) (by decide) (by decide)
    exact .cons (.star _) (.cons htwo (.cons (.star _) .nil))
  · exact hother _ _ nofun nofun
  · exact hpattern _ _ nofun
  · refine (hdescribes _ _ _).2 ⟨[['\n'], ['+']], rfl, ?_⟩
    have hplus : Takes (sameCase false) '+' ['+'] := .one (by decide) (by decide) (by decide)
    exact .cons (.star _) (.cons hplus .nil)
  · rw [hprepared]
    rfl

end Operator

end RankedRules
