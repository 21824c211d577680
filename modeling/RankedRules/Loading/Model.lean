/-
Loading models from files.

A file whose name ends in `.xml` is a document, any other a rule file.

* `Model.load` — the rules of one file;
* `Model.loadAll` — the rules of several files as one model, in order;
* `Model.check` — how many rules each of several files has, all read strictly.
-/
import RankedRules.Files.Basic
import RankedRules.Loading.RuleFile
import RankedRules.Loading.XmlModel

namespace RankedRules.Model

/-- The rules of a text that a file of some name holds. -/
def loadText (strict : Bool) (name : String) (text : List Char) : Except Failure (List Rule) :=
  if PathName.hasExtension "xml" name then XmlModel.load strict text else RuleFile.load strict text

/-- The rules of a file. -/
def load (files : Files) (strict : Bool) (name : String) : Except Failure (List Rule) :=
  match files.read name with
  | .error fault => .error ⟨["read model " ++ name], .file fault⟩
  | .ok contents =>
    withContext ("load model " ++ name) (loadText strict name contents.toList)

/-- The rules of several files, in order. -/
def loadAll (files : Files) (strict : Bool) : List String → Except Failure (List Rule)
  | [] => .ok []
  | name :: rest => do
    let rules ← load files strict name
    let others ← loadAll files strict rest
    .ok (rules ++ others)

/-- The number of rules in each of several files; nothing in them may be unreadable. -/
def check (files : Files) : List String → Except Failure (List (String × Nat))
  | [] => .ok []
  | name :: rest => do
    let rules ← load files true name
    let others ← check files rest
    .ok ((name, rules.length) :: others)

end RankedRules.Model
