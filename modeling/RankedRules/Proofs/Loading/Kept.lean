/-
What a load keeps of a file.

Lines and `rule` elements are read one after the other. Those that can be read are kept, in their
order, and a strict load fails at the first one that cannot. So a strict load of a rule file loses
nothing. The conditions of `multirule` elements are read without regard to strictness: a condition
that cannot be read is left out, and all of them are if the element has no action. A strict load of
a document loses these, and nothing else.

* `KeptOf` — what is kept of lines or elements;
* `RuleFile.load_ok_iff`, `XmlModel.loadElements_ok_iff` — it is what a load gives;
* `XmlModel.conditions`, `XmlModel.isUsed` — the conditions of `multirule` elements, and which of
  them become rules;
* `Model.kept_of_strict_load` — what a strict load keeps of a file, and when it loses nothing.
-/
import Mathlib.Data.List.Forall2
import RankedRules.Loading.Model
import RankedRules.Proofs.Success

namespace RankedRules

/-- What is kept of items that are read as rules: the rules of those that can be read, in order.
If it is strict, all of them can. -/
structure KeptOf {α : Type} (read : α → Option Rule) (strict : Bool) (items : List α)
    (rules : List Rule) : Prop where
  rules_eq : rules = items.filterMap read
  complete : strict = true → ∀ item ∈ items, (read item).isSome = true

namespace KeptOf

variable {α : Type} {read : α → Option Rule} {strict : Bool} {item : α} {items : List α}
  {rule : Rule} {rules : List Rule}

theorem nil_iff : KeptOf read strict [] rules ↔ [] = rules :=
  ⟨fun h => h.rules_eq.symm, fun h => ⟨h.symm, fun _ _ hitem => absurd hitem List.not_mem_nil⟩⟩

theorem cons_iff_of_some (h : read item = some rule) : KeptOf read strict (item :: items) rules ↔
    ∃ others, KeptOf read strict items others ∧ rule :: others = rules := by
  constructor
  · rintro ⟨rfl, hcomplete⟩
    refine ⟨items.filterMap read, ⟨rfl, fun hstrict other hother => ?_⟩, ?_⟩
    · exact hcomplete hstrict other (List.mem_cons_of_mem item hother)
    · exact (List.filterMap_cons_some h).symm
  · rintro ⟨others, ⟨rfl, hcomplete⟩, rfl⟩
    refine ⟨(List.filterMap_cons_some h).symm, fun hstrict => List.forall_mem_cons.2 ⟨?_, ?_⟩⟩
    · rw [h, Option.isSome_some]
    · exact hcomplete hstrict

theorem cons_iff_of_none (h : read item = none) : KeptOf read strict (item :: items) rules ↔
    strict = false ∧ KeptOf read strict items rules := by
  constructor
  · rintro ⟨rfl, hcomplete⟩
    have hlenient : strict = false := by
      refine Bool.eq_false_iff.2 fun hstrict => ?_
      have hsome := hcomplete hstrict item List.mem_cons_self
      rw [h] at hsome
      exact nomatch hsome
    refine ⟨hlenient, List.filterMap_cons_none h, fun hstrict => ?_⟩
    rw [hlenient] at hstrict
    exact nomatch hstrict
  · rintro ⟨hlenient, ⟨rfl, -⟩⟩
    refine ⟨(List.filterMap_cons_none h).symm, fun hstrict => ?_⟩
    rw [hlenient] at hstrict
    exact nomatch hstrict

/-- Every rule that is kept is that of an item. -/
theorem exists_of_mem (h : KeptOf read strict items rules) (hrule : rule ∈ rules) :
    ∃ item ∈ items, read item = some rule := by
  rw [h.rules_eq] at hrule
  exact List.mem_filterMap.1 hrule

/-- A strict load keeps one rule for each item. -/
theorem forall₂ (h : KeptOf read true items rules) :
    List.Forall₂ (fun item rule => read item = some rule) items rules := by
  obtain ⟨rfl, hcomplete⟩ := h
  induction items with
  | nil => exact .nil
  | cons item items ih =>
    obtain ⟨hitem, hitems⟩ := List.forall_mem_cons.1 (hcomplete rfl)
    obtain ⟨rule, hrule⟩ := Option.isSome_iff_exists.1 hitem
    rw [List.filterMap_cons_some hrule]
    exact .cons hrule (ih fun _ => hitems)

end KeptOf

/-! ## Rule files -/

namespace RuleFile

/-- The rule that a line is, if it can be read. -/
def rule? (line : List Char) : Option Rule :=
  (Rule.parse line).toOption

/-- The trimmed lines of a text that are to be read as rules. -/
def ruleLines (text : List Char) : List (List Char) :=
  ((Text.lines text).map Text.trim).filter isRule

theorem rule?_eq_some_iff {line : List Char} {rule : Rule} :
    rule? line = some rule ↔ Rule.parse line = .ok rule := by
  rw [rule?]
  cases Rule.parse line with
  | ok found => simp [Except.toOption]
  | error fault => simp [Except.toOption]

theorem loadLines_ok_iff {strict : Bool} {number : Nat} {lines : List (List Char)}
    {rules : List Rule} : loadLines strict number lines = .ok rules ↔
      KeptOf rule? strict ((lines.map Text.trim).filter isRule) rules := by
  -- The number of a line only matters to the failure, so it is any.
  induction lines generalizing number rules with
  | nil => rw [loadLines, List.map_nil, List.filter_nil, KeptOf.nil_iff, Except.ok.injEq]
  | cons line rest ih =>
    rw [loadLines, List.map_cons]
    by_cases hline : isRule (Text.trim line) = true
    · rw [if_pos hline, List.filter_cons_of_pos hline]
      cases hparse : Rule.parse (Text.trim line) with
      | ok rule =>
        rw [KeptOf.cons_iff_of_some (rule?_eq_some_iff.2 hparse)]
        simp only [bind_eq_ok_iff, ih, Except.ok.injEq]
      | error fault =>
        -- The line is left out, and a strict load ends here.
        rw [KeptOf.cons_iff_of_none (by rw [rule?, hparse, Except.toOption])]
        cases strict with
        | true => simp
        | false => simp [ih]
    · rw [if_neg hline, List.filter_cons_of_neg hline]
      exact ih

/-- A rule file gives the rules of those lines that can be read. -/
theorem load_ok_iff {strict : Bool} {text : List Char} {rules : List Rule} :
    load strict text = .ok rules ↔ KeptOf rule? strict (ruleLines text) rules :=
  loadLines_ok_iff

end RuleFile

/-! ## Documents -/

namespace XmlModel

open Xml (Node)

/-- The `rule` elements of a document. -/
def ruleElements (root : Node) : List Node :=
  root.descendants.filter (Node.isElement none ["rule"])

/-- The `multirule` elements of a document. -/
def multiruleElements (root : Node) : List Node :=
  root.descendants.filter (Node.isElement none ["multirule"])

/-- The conditions of the `multirule` elements of a document, each behind its element. -/
def conditions (root : Node) : List (Node × Node) :=
  (multiruleElements root).flatMap fun node => (named ["qualifier", "q"] node).map (node, ·)

/-- Whether a condition of a `multirule` element becomes a rule: the element has an action, and the
condition can be read. -/
def isUsed : Node × Node → Bool
  | (node, condition) =>
    ((action? node).or (splitAction? node)).isSome &&
      (Qualifier.parseText condition.textContent).isOk

theorem loadElements_ok_iff {strict : Bool} {document : List Char} {nodes : List Node}
    {rules : List Rule} : loadElements strict document nodes = .ok rules ↔
      KeptOf rule? strict nodes rules := by
  induction nodes generalizing rules with
  | nil => rw [loadElements, KeptOf.nil_iff, Except.ok.injEq]
  | cons node rest ih =>
    rw [loadElements]
    cases hrule : rule? node with
    | some rule =>
      rw [KeptOf.cons_iff_of_some hrule]
      simp only [bind_eq_ok_iff, ih, Except.ok.injEq]
    | none =>
      rw [KeptOf.cons_iff_of_none hrule]
      cases strict with
      | true => simp
      | false => simp [ih]

/-- A document gives the rules of those `rule` elements that can be read, and behind them all rules
of its `multirule` elements. -/
theorem load_ok_iff {strict : Bool} {document : List Char} {rules : List Rule} :
    load strict document = .ok rules ↔
      ∃ root front, Xml.parse? document = some root ∧
        KeptOf rule? strict (ruleElements root) front ∧
        rules = front ++ (multiruleElements root).flatMap multirule := by
  rw [load]
  cases Xml.parse? document with
  | none => simp
  | some root =>
    simp only [bind_eq_ok_iff, loadElements_ok_iff, Except.ok.injEq]
    constructor
    · rintro ⟨front, hfront, rfl⟩
      exact ⟨root, front, rfl, hfront, rfl⟩
    · rintro ⟨_, front, ⟨⟩, hfront, rfl⟩
      exact ⟨front, hfront, rfl⟩

/-- A `multirule` element has a rule for each of its conditions that becomes one. -/
theorem length_multirule (node : Node) : (multirule node).length =
    ((named ["qualifier", "q"] node).map (node, ·)).countP isUsed := by
  rw [multirule, List.countP_map]
  cases haction : (action? node).or (splitAction? node) with
  | none => simp [Function.comp_def, isUsed, haction]
  | some action =>
    rw [List.length_filterMap_eq_countP]
    refine List.countP_congr fun condition _ => ?_
    rw [Function.comp_apply, isUsed, haction]
    cases Qualifier.parseText condition.textContent with
    | ok qualifier => simp [Except.isOk, Except.toBool]
    | error fault => simp [Except.isOk, Except.toBool]

/-- A document has a rule for each condition of its `multirule` elements that becomes one. -/
theorem length_multirules (root : Node) :
    ((multiruleElements root).flatMap multirule).length = (conditions root).countP isUsed := by
  rw [conditions, List.countP_flatMap, List.length_flatMap]
  refine congrArg List.sum (List.map_congr_left fun node _ => ?_)
  exact length_multirule node

end XmlModel

/-! ## Files -/

namespace Model

theorem load_ok_iff {files : Files} {strict : Bool} {name : String} {rules : List Rule} :
    load files strict name = .ok rules ↔ ∃ contents, files.read name = .ok contents ∧
      loadText strict name contents.toList = .ok rules := by
  rw [load]
  cases files.read name with
  | error fault => simp
  | ok contents =>
    simp only [Except.ok.injEq, exists_eq_left', withContext]
    cases loadText strict name contents.toList with
    | error failure => simp [Except.mapError]
    | ok found => simp [Except.mapError]

theorem loadText_of_xml {strict : Bool} {name : String} {text : List Char}
    (h : PathName.hasExtension "xml" name = true) :
    loadText strict name text = XmlModel.load strict text := by
  rw [loadText, if_pos h]

theorem loadText_of_not_xml {strict : Bool} {name : String} {text : List Char}
    (h : PathName.hasExtension "xml" name = false) :
    loadText strict name text = RuleFile.load strict text := by
  rw [loadText, if_neg (Bool.eq_false_iff.1 h)]

/-- A check counts the rules of a strict load. -/
theorem mem_of_check {files : Files} {names : List String} {counts : List (String × Nat)}
    {name : String} {rules : List Rule} (h : check files names = .ok counts)
    (hload : load files true name = .ok rules) (hname : name ∈ names) :
    (name, rules.length) ∈ counts := by
  induction names generalizing counts with
  | nil => exact absurd hname List.not_mem_nil
  | cons first rest ih =>
    obtain ⟨found, hfound, h⟩ := bind_eq_ok_iff.1 h
    obtain ⟨others, hothers, h⟩ := bind_eq_ok_iff.1 h
    cases h
    rcases List.mem_cons.1 hname with rfl | hname
    · rw [hload] at hfound
      cases hfound
      exact List.mem_cons_self
    · exact List.mem_cons_of_mem _ (ih hothers hname)

/-- A strict load keeps every line of a rule file and every `rule` element of a document. The only
things that it can lose are conditions of `multirule` elements, so it loses nothing of a document
just if all of these become rules. A check counts the same rules. -/
theorem kept_of_strict_load {files : Files} {name : String} {rules : List Rule}
    (h : load files true name = .ok rules) :
    ∃ contents, files.read name = .ok contents ∧
      (PathName.hasExtension "xml" name = false →
        List.Forall₂ (fun line rule => Rule.parse line = .ok rule)
          (RuleFile.ruleLines contents.toList) rules) ∧
      (PathName.hasExtension "xml" name = true →
        ∃ root front, Xml.parse? contents.toList = some root ∧
          rules = front ++ (XmlModel.multiruleElements root).flatMap XmlModel.multirule ∧
          List.Forall₂ (fun node rule => XmlModel.rule? node = some rule)
            (XmlModel.ruleElements root) front ∧
          rules.length = (XmlModel.ruleElements root).length +
            (XmlModel.conditions root).countP XmlModel.isUsed ∧
          (rules.length =
              (XmlModel.ruleElements root).length + (XmlModel.conditions root).length ↔
            ∀ entry ∈ XmlModel.conditions root, XmlModel.isUsed entry = true)) ∧
      ∀ names counts, check files names = .ok counts → name ∈ names →
        (name, rules.length) ∈ counts := by
  obtain ⟨contents, hread, htext⟩ := load_ok_iff.1 h
  refine ⟨contents, hread, ?_, ?_, ?_⟩
  · intro hname
    rw [loadText_of_not_xml hname] at htext
    refine (RuleFile.load_ok_iff.1 htext).forall₂.imp ?_
    intro line rule hrule
    exact RuleFile.rule?_eq_some_iff.1 hrule
  · intro hname
    rw [loadText_of_xml hname] at htext
    obtain ⟨root, front, hroot, hfront, hrules⟩ := XmlModel.load_ok_iff.1 htext
    have hcount : rules.length = (XmlModel.ruleElements root).length +
        (XmlModel.conditions root).countP XmlModel.isUsed := by
      rw [hrules, List.length_append, XmlModel.length_multirules, hfront.forall₂.length_eq]
    refine ⟨root, front, hroot, hrules, hfront.forall₂, hcount, ?_⟩
    -- The elements give all their rules, so the conditions have to make up the number.
    rw [hcount, Nat.add_left_cancel_iff, List.countP_eq_length]
  · intro names counts hcheck hmem
    exact mem_of_check hcheck h hmem

/-! ## A document that loses a condition -/

namespace HalfRead

open Xml (Node)

/-- A document with one element, of whose two conditions only the first one can be read. -/
def document : String :=
  "<m><multirule><q>a = 1</q><q>broken</q><action>x = 1</action></multirule></m>"

/-- A directory in which every file is the document. -/
def files : Files where
  read _ := .ok document

def first : Node := .element ⟨none, "q", [], 63⟩ [.text "a = 1".toList]

def second : Node := .element ⟨none, "q", [], 51⟩ [.text "broken".toList]

def multirule : Node :=
  .element ⟨none, "multirule", [], 74⟩
    [first, second, .element ⟨none, "action", [], 38⟩ [.text "x = 1".toList]]

def root : Node := .element ⟨none, "m", [], 77⟩ [multirule]

/-- The rule of the first condition. -/
def rule : Rule :=
  ⟨some (.compare "a" .equal (Value.ofInt 1)), some (.assign "x" (Value.ofInt 1)), 100⟩

set_option maxRecDepth 8000 in
theorem parse_document : Xml.parse? document.toList = some root := rfl

set_option maxRecDepth 8000 in
/-- The strict load gives one rule. -/
theorem load_document : load files true "m.xml" = .ok [rule] := by
  have hfront : KeptOf XmlModel.rule? true (XmlModel.ruleElements root) [] :=
    ⟨rfl, fun _ _ hnode => absurd hnode List.not_mem_nil⟩
  refine load_ok_iff.2 ⟨document, rfl, ?_⟩
  rw [loadText_of_xml rfl]
  exact XmlModel.load_ok_iff.2 ⟨root, [], parse_document, hfront, rfl⟩

end HalfRead

theorem kept_of_strict_load_halfRead :
    load HalfRead.files true "m.xml" = .ok [HalfRead.rule] ∧
      (XmlModel.conditions HalfRead.root).countP XmlModel.isUsed = 1 ∧
      (XmlModel.conditions HalfRead.root).length = 2 := by
  obtain ⟨contents, hread, -, hxml, -⟩ := kept_of_strict_load HalfRead.load_document
  cases hread
  obtain ⟨root, front, hroot, -, -, hcount, -⟩ := hxml rfl
  rw [HalfRead.parse_document] at hroot
  cases hroot
  refine ⟨HalfRead.load_document, ?_, rfl⟩
  rw [show (XmlModel.ruleElements HalfRead.root).length = 0 from rfl, Nat.zero_add] at hcount
  exact hcount.symm

/-- A strict load that succeeds may have lost rules. -/
theorem not_all_kept : ¬∀ (files : Files) (name contents : String) (root : Xml.Node)
    (rules : List Rule), files.read name = .ok contents →
    PathName.hasExtension "xml" name = true → Xml.parse? contents.toList = some root →
    load files true name = .ok rules →
    rules.length = (XmlModel.ruleElements root).length + (XmlModel.conditions root).length := by
  intro h
  have hcount := h HalfRead.files "m.xml" HalfRead.document HalfRead.root [HalfRead.rule] rfl rfl
    HalfRead.parse_document HalfRead.load_document
  exact absurd hcount (by decide)

end Model

end RankedRules
