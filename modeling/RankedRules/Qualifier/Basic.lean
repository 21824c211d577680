/-
Qualifiers: the conditions of rules.

A qualifier is evaluated against a lookup. It is a constant, a comparison of the value at a key
path with a literal or with the value at another key path, or a combination of other qualifiers.
Members are evaluated in order and only as far as needed; the first error ends the evaluation.

* `Qualifier` — the type;
* `Qualifier.evaluate` — whether the condition holds, `Qualifier.evaluateAll` for a list;
* `Qualifier.specificity` — how specific a condition is, for ranking;
* `Qualifier.text` — the canonical text, `Qualifier.literal` of a literal in it.
-/
import RankedRules.Lookup
import RankedRules.Operator
import RankedRules.Value.Json

namespace RankedRules

/-- The two ways to combine conditions. -/
inductive Connective
  | all
  | any
  deriving DecidableEq

namespace Connective

/-- The word between the members. -/
def word : Connective → String
  | .all => "AND"
  | .any => "OR"

/-- The result without members. The opposite result of one member decides the whole. -/
def neutral : Connective → Bool
  | .all => true
  | .any => false

end Connective

/-- A condition. An `unsupported` one has a text and a place in the ranking but cannot be
evaluated. -/
inductive Qualifier
  | constant (holds : Bool)
  | compare (path : String) (op : Operator) (literal : Value)
  | compareKeys (left : String) (op : Operator) (right : String)
  | not (inner : Qualifier)
  | compound (connective : Connective) (members : List Qualifier)
  | unsupported (text : String) (specificity : Int)

namespace Qualifier

instance : Inhabited Qualifier := ⟨.constant true⟩

/-- A literal as the qualifier grammar reads it: strings in single quotes, the rest as JSON. -/
def literal : Value → String
  | .string text =>
    "'" ++ String.ofList (text.toList.flatMap fun c =>
      if c = '\\' ∨ c = '\'' then ['\\', c] else [c]) ++ "'"
  | value => value.json

mutual

/-- The canonical text. -/
def text : Qualifier → String
  | .constant holds => if holds then "*true*" else "*false*"
  | .compare path op value => path ++ " " ++ op.symbol ++ " " ++ literal value
  | .compareKeys left op right => left ++ " " ++ op.symbol ++ " " ++ right
  | .not inner => "NOT " ++ text inner
  | .compound connective members =>
    "(" ++ Text.join (" " ++ connective.word ++ " ") (texts members) ++ ")"
  | .unsupported text _ => text

/-- The canonical texts of several qualifiers. -/
def texts : List Qualifier → List String
  | [] => []
  | q :: rest => text q :: texts rest

end

/-- The largest specificity. -/
def maxSpecificity : Int := 0x7fffffff

/-- How specific a condition is: constants least, then single conditions, then combinations by
the number of their members. -/
def specificity : Qualifier → Int
  | .constant _ => -1
  | .compound _ members => min members.length maxSpecificity
  | .unsupported _ specificity => specificity
  | _ => 0

section Evaluation

variable {m : Type → Type} [Monad m] [MonadExceptOf EvalError m]

mutual

/-- Whether the condition holds. -/
def evaluate (look : Lookup m) : Qualifier → m Bool
  | .constant holds => pure holds
  | .compare path op value => do
    let found ← look.path path
    pure (op.compare found (some value))
  | .compareKeys left op right => do
    let foundLeft ← look.path left
    let foundRight ← look.path right
    pure (op.compare foundLeft foundRight)
  | .not inner => do
    let holds ← evaluate look inner
    pure !holds
  | .compound connective members => evaluateAll look connective members
  | .unsupported text _ => throw (.unsupportedQualifier text)

/-- Whether a combination of conditions holds. -/
def evaluateAll (look : Lookup m) (connective : Connective) : List Qualifier → m Bool
  | [] => pure connective.neutral
  | q :: rest => do
    let holds ← evaluate look q
    if holds = connective.neutral then evaluateAll look connective rest else pure holds

end

end Evaluation

mutual

/-- The key paths that a condition mentions. -/
def paths : Qualifier → List String
  | .compare path _ _ => [path]
  | .compareKeys left _ right => [left, right]
  | .not inner => paths inner
  | .compound _ members => pathsOfAll members
  | _ => []

/-- The key paths that several conditions mention. -/
def pathsOfAll : List Qualifier → List String
  | [] => []
  | q :: rest => paths q ++ pathsOfAll rest

end

end Qualifier

end RankedRules
