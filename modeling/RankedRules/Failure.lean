/-
Why an operation on rules and files failed.

A failure is a cause with a chain of contexts around it, the outermost first, each saying what was
being done.

* `FileFault` — why a file cannot be read, with the text of the operating system;
* `Failure.Cause`, `Failure` — the cause, and the cause with its contexts;
* `Failure.within` — a failure inside one more context;
* `Failure.message` — the contexts and the cause in words, as far as the cause has words of this
  library;
* `Failure.report` — the same with the words for unreadable files and documents.
-/
import RankedRules.ParseError

namespace RankedRules

/-- Why a file cannot be read. -/
inductive FileFault
  | missing
  | directory
  | notDirectory
  | other (text : String)
  deriving DecidableEq

/-- The fault in the words of the operating system. -/
def FileFault.text : FileFault → String
  | .missing => "No such file or directory (os error 2)"
  | .directory => "Is a directory (os error 21)"
  | .notDirectory => "Not a directory (os error 20)"
  | .other text => text

/-- What lies at the bottom of a failure. -/
inductive Failure.Cause
  | evaluation (error : EvalError)
  | parsing (error : ParseError)
  | file (fault : FileFault)
  | xml
  | toml
  | other (text : String)

/-- A cause and what was being done, the outermost context first. -/
structure Failure where
  contexts : List String
  cause : Failure.Cause

namespace Failure

/-- A failure with a text of its own and no context. -/
def because (text : String) : Failure :=
  ⟨[], .other text⟩

/-- A failure inside one more context. -/
def within (context : String) (failure : Failure) : Failure :=
  { failure with contexts := context :: failure.contexts }

/-- The words of this library for a cause. -/
def Cause.words : Cause → List String
  | .evaluation error => [error.message]
  | .parsing error => [error.message]
  | .other text => [text]
  | .file _ | .xml | .toml => []

/-- The contexts and the cause, as far as it has words of this library. -/
def message (failure : Failure) : String :=
  Text.join ": " (failure.contexts ++ failure.cause.words)

/-- The contexts and the cause in full. -/
def report (failure : Failure) : String :=
  let words :=
    match failure.cause with
    | .file fault => [fault.text]
    | .xml => ["malformed document"]
    | .toml => ["malformed configuration"]
    | cause => cause.words
  Text.join ": " (failure.contexts ++ words)

end Failure

/-- A result inside one more context, if it is a failure. -/
def withContext {α : Type} (context : String) (result : Except Failure α) : Except Failure α :=
  result.mapError (Failure.within context)

end RankedRules
