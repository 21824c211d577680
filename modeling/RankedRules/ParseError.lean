/-
What can be wrong in the text of a rule.

* `ParseError` — the errors, with the text that is at fault or the position in it;
* `ParseError.message` — an error in words.
-/
import RankedRules.PropertyList.Parser
import RankedRules.Qualifier.Parser

namespace RankedRules

/-- An error in the text of a rule or of one of its parts. -/
inductive ParseError
  | empty
  | missingArrow (text : String)
  | qualifier (offset : Nat) (cause : Qualifier.Cause)
  | missingAssignment (text : String)
  | unclosedTypeCast (text : String)
  | invalidKeyPath (text : String)
  | invalidNumber (text : String)
  | propertyList (offset : Nat) (cause : PropertyList.Cause)
  deriving DecidableEq

/-- The error in words. -/
def ParseError.message : ParseError → String
  | .empty => "rule is empty"
  | .missingArrow text => "no '=>' separating qualifier and action in '" ++ text ++ "'"
  | .qualifier offset cause =>
    "invalid qualifier at offset " ++ toString offset ++ ": " ++ cause.text
  | .missingAssignment text => "no '=' in assignment '" ++ text ++ "'"
  | .unclosedTypeCast text => "type cast is not closed in '" ++ text ++ "'"
  | .invalidKeyPath text => "invalid key path '" ++ text ++ "'"
  | .invalidNumber text => "invalid number '" ++ text ++ "'"
  | .propertyList offset cause =>
    "invalid property list at offset " ++ toString offset ++ ": " ++ cause.text

end RankedRules
