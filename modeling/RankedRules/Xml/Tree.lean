/-
XML documents as trees.

Every closing tag must have the name of the element that is open. The prefix of an element stands
for a namespace that must have been declared. What counts for a reader of the tree is the prefix
that the declarations in scope give this namespace: the element's own ones come first, in order,
then the inherited ones, and the first one of the namespace decides. So an element in a default
namespace has no prefix, unless another declaration of the same namespace comes first. A tag may
have several declarations of the default namespace. An element without declarations inherits all of
its parent's; one with declarations inherits, of each prefix that it does not redeclare, the first
one.

* `Xml.Scope` — the declarations in scope, `Scope.ofTag?` those of a tag;
* `Xml.Tag`, `Xml.Node` — an element without its content, and a node of the tree;
* `Xml.build?` — the tree of a sequence of tags and texts;
* `Xml.parse?` — the outermost element of a document;
* `Node.descendants`, `Node.textContent`, `Node.ownText` — the nodes from a node on, all text
  below it, and the text directly below it;
* `Xml.position` — the line and column at which an element begins.
-/
import RankedRules.Xml.Markup

namespace RankedRules.Xml

/-- The declarations in scope: prefixes, none for the default namespace, and namespaces. -/
abbrev Scope := List (Option String × String)

/-- The namespace of the prefix `xml`. -/
def xmlNamespace : String := "http://www.w3.org/XML/1998/namespace"

/-- The namespace of declarations. -/
def declarationNamespace : String := "http://www.w3.org/2000/xmlns/"

/-- The declarations of one attribute behind earlier ones; any other attribute declares nothing.
The two reserved namespaces can only be used in their places. -/
def Scope.declare? (scope : Scope) (declared : Attribute) : Option Scope :=
  let uri := declared.value
  if declared.name.namePrefix = "xmlns" then
    let name := declared.name.localName
    if uri = declarationNamespace then none
    else if (name == "xml") != (uri == xmlNamespace) then none
    else if scope.any fun entry => entry.1 = some name then none
    else if uri = xmlNamespace then some scope
    else some (scope ++ [(some name, uri)])
  else if declared.name.localName = "xmlns" then
    if uri = xmlNamespace ∨ uri = declarationNamespace then none
    else some (scope ++ [(none, uri)])
  else
    some scope

/-- Whether an attribute is a declaration. -/
def Attribute.isDeclaration (a : Attribute) : Bool :=
  a.name.namePrefix = "xmlns" || a.name.localName = "xmlns"

/-- The declarations in scope of a tag with its own declarations. -/
def Scope.under (inherited own : Scope) : Scope :=
  if own.isEmpty then
    inherited
  else
    inherited.foldl
      (fun scope entry =>
        if scope.any fun other => other.1 = entry.1 then scope else scope ++ [entry]) own

/-- The declarations in scope of a tag. -/
def Scope.ofTag? (inherited : Scope) (attributes : List Attribute) : Option Scope := do
  some (inherited.under (← attributes.foldlM Scope.declare? []))

/-- The namespace that a prefix stands for, if it stands for one; a prefix that is not declared
is refused. -/
def Scope.namespace? (scope : Scope) (namePrefix : String) : Option (Option String) :=
  let wanted := if namePrefix.isEmpty then none else some namePrefix
  match scope.find? fun entry => entry.1 = wanted with
  | some (_, uri) => some (some uri)
  | none => if namePrefix.isEmpty then some none else none

/-- The prefix that the declarations in scope give a namespace. -/
def Scope.prefix? (scope : Scope) (uri : String) : Option String :=
  (scope.find? fun entry => entry.2 = uri).bind (·.1)

/-- The namespace of an attribute; without a prefix it has none. -/
def Scope.attributeNamespace? (scope : Scope) (a : Attribute) : Option (Option String) :=
  if a.name.namePrefix = "xml" then some (some xmlNamespace)
  else if a.name.namePrefix.isEmpty then some none
  else scope.namespace? a.name.namePrefix

/-- An element without its content: its prefix and name, its attributes without a namespace, and
the number of characters from its start to the end of the document. -/
structure Tag where
  namePrefix : Option String
  localName : String
  attributes : List (String × String)
  remaining : Nat

/-- A node of a document. -/
inductive Node
  | element (tag : Tag) (children : List Node)
  | text (text : List Char)

/-- The element that a tag begins, with its declarations in scope. -/
def Tag.ofMarkup? (scope : Scope) (name : Name) (attributes : List Attribute)
    (remaining : Nat) : Option Tag := do
  guard (name.namePrefix ≠ "xmlns")
  let uri? ← scope.namespace? name.namePrefix
  let plain := attributes.filter fun a => !a.isDeclaration
  let names ← plain.mapM fun a => do some ((← scope.attributeNamespace? a), a.name.localName)
  guard (names.eraseDups.length = names.length)
  let unqualified := plain.filter fun a => a.name.namePrefix.isEmpty
  some
    { namePrefix := uri?.bind scope.prefix?
      localName := name.localName
      attributes := unqualified.map fun a => (a.name.localName, a.value)
      remaining }

/-- An open element: its name in the document, its tag and scope, and its children so far in
reverse. -/
structure Frame where
  name : Name
  tag : Tag
  scope : Scope
  children : List Node

/-- The element of a frame. -/
def Frame.node (frame : Frame) : Node :=
  .element frame.tag frame.children.reverse

/-- The tree of a sequence of tags and texts, inside the elements that are open, innermost
first. -/
def build? : List Markup → List Frame → Option Node
  | [], _ => none
  | .opening name attributes closed remaining :: rest, open_ => do
    let inherited := (open_.head?.map Frame.scope).getD []
    let scope ← inherited.ofTag? attributes
    let tag ← Tag.ofMarkup? scope name attributes remaining
    if closed then
      match open_ with
      | [] => some (.element tag [])
      | outer :: open_ =>
        build? rest ({ outer with children := .element tag [] :: outer.children } :: open_)
    else
      build? rest (⟨name, tag, scope, []⟩ :: open_)
  | .closing name :: rest, open_ =>
    match open_ with
    | [] => none
    | inner :: open_ =>
      if inner.name ≠ name then
        none
      else
        match open_ with
        | [] => some inner.node
        | outer :: open_ =>
          build? rest ({ outer with children := inner.node :: outer.children } :: open_)
  | .text text :: rest, open_ =>
    match open_ with
    | [] => none
    | outer :: open_ =>
      build? rest ({ outer with children := .text text :: outer.children } :: open_)

/-- The outermost element of a document. -/
def parse? (document : List Char) : Option Node := do
  build? (← markup? document) []

/-- The line and the column, from one up and in characters, at which the last `remaining`
characters of a document begin. -/
def position (document : List Char) (remaining : Nat) : Nat × Nat :=
  let front := document.take (document.length - remaining)
  (front.count '\n' + 1, (front.reverse.takeWhile (· ≠ '\n')).length + 1)

namespace Node

mutual

/-- The node and all nodes below it, in the order of the document. -/
def descendants : Node → List Node
  | .element tag children => .element tag children :: inOrder children
  | .text chars => [.text chars]

/-- Several nodes and all nodes below them, in the order of the document. -/
def inOrder : List Node → List Node
  | [] => []
  | node :: rest => descendants node ++ inOrder rest

end

/-- The nodes directly below a node. -/
def children : Node → List Node
  | .element _ children => children
  | .text _ => []

/-- The text that a node is itself. -/
def ownChars : Node → List Char
  | .text chars => chars
  | .element _ _ => []

/-- All text from a node on. -/
def textContent (node : Node) : List Char :=
  node.descendants.flatMap ownChars

/-- The text directly below a node. -/
def ownText (node : Node) : List Char :=
  node.children.flatMap ownChars

/-- The value of an attribute without a namespace. -/
def attribute? (name : String) : Node → Option String
  | .element tag _ => tag.attributes.lookup name
  | .text _ => none

/-- Whether a node is an element with one of some names and a certain prefix or none. -/
def isElement (namePrefix : Option String) (names : List String) : Node → Bool
  | .element tag _ => names.contains tag.localName && tag.namePrefix == namePrefix
  | .text _ => false

end Node

end RankedRules.Xml
