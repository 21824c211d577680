/-
Models in XML documents.

The rules of a document are its `rule` elements in their order, and then those of its `multirule`
elements. A `rule` holds either the text of a rule, or elements for its parts: `qualifier` or `q`,
`action` or `a`, or in place of an action `key` or `k` with `value` or `v`; the value is the path
of another key if its element has the prefix `var`. A `multirule` makes one rule of each of its
qualifiers. A priority is an attribute or an element `priority` or `p`. All elements but the ones
for paths count only without a prefix, at any depth.

* `XmlModel.named` — the elements below a node with one of some names;
* `XmlModel.priority?`, `XmlModel.qualifier?`, `XmlModel.action?` — the parts of a rule;
* `XmlModel.rule?`, `XmlModel.multirule` — the rules of an element;
* `XmlModel.load` — the rules of a document.
-/
import RankedRules.Failure
import RankedRules.Rule.Parser
import RankedRules.Xml.Tree

namespace RankedRules.XmlModel

open Xml (Node)

/-- The elements below a node that have one of some names and a certain prefix or none. -/
def prefixed (namePrefix : Option String) (names : List String) (node : Node) : List Node :=
  (Node.inOrder node.children).filter (Node.isElement namePrefix names)

/-- The elements below a node that have one of some names and no prefix. -/
def named (names : List String) (node : Node) : List Node :=
  prefixed none names node

/-- The texts of some nodes, trimmed, those that are not empty one after the other with a
separator between them. -/
def joinedText? (separator : String) (nodes : List Node) : Option String :=
  let texts := (nodes.map fun node => Text.trim node.textContent).filter fun text => !text.isEmpty
  if texts.isEmpty then none else some (Text.join separator (texts.map String.ofList))

/-- The priority of an element, if it has one: an attribute that is not blank, or else the first
element for it. -/
def priority? (node : Node) : Option Int :=
  match (node.attribute? "priority").filter fun value => !Text.isAllBlank value with
  | some value => some (Priority.parse value.toList)
  | none => ((named ["priority", "p"] node).head?).map fun child => Priority.parse child.textContent

/-- The qualifiers of some elements, if all of them can be read. -/
def qualifiers? : List Node → Option (List Qualifier)
  | [] => some []
  | node :: rest =>
    match Qualifier.parseText node.textContent with
    | .ok qualifier => (qualifiers? rest).map (qualifier :: ·)
    | .error _ => none

/-- The qualifier of a rule: all of several must hold, and none means that the rule always
applies. -/
def qualifier? (nodes : List Node) : Option Qualifier :=
  match qualifiers? nodes with
  | none => none
  | some [] => some (.constant true)
  | some [qualifier] => some qualifier
  | some members => some (.compound .all members)

/-- The actions of some elements, if all of them can be read. -/
def actions? : List Node → Option (List Action)
  | [] => some []
  | node :: rest =>
    match Action.parse node.textContent (node.attribute? "class") with
    | .ok action => (actions? rest).map (action :: ·)
    | .error _ => none

/-- The action of the elements for actions, if there are any and all can be read. -/
def action? (node : Node) : Option Action :=
  match named ["action", "a"] node with
  | [] => none
  | nodes => (actions? nodes).map Action.all

/-- The action of the elements for a key and a value. -/
def splitAction? (node : Node) : Option Action := do
  let key ← joinedText? "." (named ["key", "k"] node)
  match joinedText? "" (named ["value", "v"] node) with
  | some value => some (.assign key (.string value))
  | none => do
    let path ← joinedText? "." (prefixed (some "var") ["value", "v"] node)
    let _ ← KeyPath.segments? path
    some (.reference key path)

/-- The rule that the text directly in an element is. An explicit priority wins. -/
def flatRule? (node : Node) : Option Rule :=
  match Rule.parse (Text.trim node.ownText) with
  | .ok rule => some { rule with priority := (priority? node).getD rule.priority }
  | .error _ => none

/-- The rule of the elements for its parts. -/
def structuredRule? (node : Node) : Option Rule := do
  let qualifier ← qualifier? (named ["qualifier", "q"] node)
  let action ← (action? node).or (splitAction? node)
  some ⟨some qualifier, some action, (priority? node).getD Priority.normal⟩

/-- The rule of a `rule` element. It is the rule's text if there is no element for a qualifier or
a key and no action that can be read. -/
def rule? (node : Node) : Option Rule :=
  if (named ["qualifier", "q"] node).isEmpty && (action? node).isNone &&
      (named ["key", "k"] node).isEmpty then
    flatRule? node
  else
    structuredRule? node

/-- The rules of a `multirule` element. A qualifier that cannot be read is left out. -/
def multirule (node : Node) : List Rule :=
  match (action? node).or (splitAction? node) with
  | none => []
  | some action =>
    (named ["qualifier", "q"] node).filterMap fun child =>
      match Qualifier.parseText child.textContent with
      | .ok qualifier =>
        some ⟨some qualifier, some action, (priority? node).getD Priority.normal⟩
      | .error _ => none

/-- The failure of an element that gives no rule. -/
def badElement (document : List Char) : Node → Failure
  | .element tag _ =>
    let (line, column) := Xml.position document tag.remaining
    .because ("could not load rule element at " ++ toString line ++ ":" ++ toString column)
  | .text _ => .because "could not load rule element"

/-- The rules of `rule` elements. -/
def loadElements (strict : Bool) (document : List Char) : List Node → Except Failure (List Rule)
  | [] => .ok []
  | node :: rest =>
    match rule? node with
    | some rule => do
      let rules ← loadElements strict document rest
      .ok (rule :: rules)
    | none =>
      if strict then .error (badElement document node) else loadElements strict document rest

/-- The rules of a document. -/
def load (strict : Bool) (document : List Char) : Except Failure (List Rule) :=
  match Xml.parse? document with
  | none => .error ⟨["parse model xml"], .xml⟩
  | some root => do
    let nodes := root.descendants
    let rules ← loadElements strict document (nodes.filter (Node.isElement none ["rule"]))
    let more := (nodes.filter (Node.isElement none ["multirule"])).flatMap multirule
    .ok (rules ++ more)

end RankedRules.XmlModel
