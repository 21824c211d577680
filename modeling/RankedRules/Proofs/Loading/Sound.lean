/-
Rules that were loaded fail only by cycles.

Three readers look at key paths: the one for qualifiers, the one for right sides, and the loader of
documents for the elements with the prefix `var`. Each in its own way refuses a path with an empty
segment. So a rule that was loaded reads key paths only, and its condition supports evaluation. Then
the only reason to fail that is left is a cycle.

* `Rule.IsSound` — the condition is of the grammar, and the action reads key paths;
* `Rule.isSound_of_parse`, `XmlModel.isSound_of_rule?`, `XmlModel.isSound_of_mem_multirule` — the
  rules that are read are sound;
* `Rule.IsLoaded.isSound` — so are the rules of any file;
* `Context.evaluate_isOkOrCycle` — evaluating the condition of a sound rule fails only by cycles;
* `Context.queries_isOkOrCycle` — so do the queries over loaded rules, and no query at all fails by
  a condition.
-/
import RankedRules.Proofs.Inference.Failing
import RankedRules.Proofs.Loading.Kept
import RankedRules.Proofs.Rule.Legible
import RankedRules.Proofs.Value.KeyPath

namespace RankedRules

/-! ## Sound rules -/

/-- All that an action reads are key paths. -/
def Action.IsSound (action : Action) : Prop :=
  ∀ path ∈ action.paths, (KeyPath.segments? path).isSome = true

/-- The condition, if there is one, is of the grammar, and all that the action reads are key
paths. -/
structure Rule.IsSound (rule : Rule) : Prop where
  condition : ∀ q, rule.qualifier = some q → q.WellFormed Qualifier.IsLiteral
  action : ∀ path ∈ rule.actionPaths, (KeyPath.segments? path).isSome = true

theorem Action.mem_pathsOfAll {path : String} {members : List Action} :
    path ∈ Action.pathsOfAll members ↔ ∃ action ∈ members, path ∈ action.paths := by
  induction members with
  | nil => simp [Action.pathsOfAll]
  | cons action rest ih => simp [Action.pathsOfAll, ih]

theorem Action.Parsed.isSound {action : Action} (h : action.Parsed) : action.IsSound := by
  intro path hpath
  cases h with
  | assign hkey hv => exact absurd hpath List.not_mem_nil
  | reference hkey hsolid hsome =>
    rw [List.mem_singleton.1 hpath]
    exact hsome

/-- Several sound actions are a sound one. -/
theorem Action.isSound_all {members : List Action} (h : ∀ action ∈ members, action.IsSound) :
    (Action.all members).IsSound := by
  intro path hpath
  rw [Action.all.eq_def] at hpath
  split at hpath
  · exact h _ List.mem_cons_self path hpath
  · obtain ⟨action, haction, hmem⟩ := Action.mem_pathsOfAll.1 hpath
    exact h action haction path hmem

/-- A rule with a condition and an action is sound if both are. -/
theorem Rule.isSound_mk {q : Qualifier} {action : Action} (hq : q.WellFormed Qualifier.IsLiteral)
    (haction : action.IsSound) (priority : Int) :
    (⟨some q, some action, priority⟩ : Rule).IsSound := by
  refine ⟨?_, haction⟩
  rintro _ ⟨⟩
  exact hq

theorem Rule.isSound_of_parse {text : List Char} {rule : Rule} (h : Rule.parse text = .ok rule) :
    rule.IsSound := by
  obtain ⟨q, action, p, rfl, hq, haction, -⟩ := Rule.parse_ok h
  exact Rule.isSound_mk hq haction.isSound p

/-! ## The rules of documents -/

namespace XmlModel

open Xml (Node)

variable {node : Node} {nodes : List Node} {rule : Rule} {action : Action}

theorem wellFormed_of_parseText {text : List Char} {q : Qualifier}
    (h : Qualifier.parseText text = .ok q) : q.WellFormed Qualifier.IsLiteral :=
  Qualifier.wellFormed_of_parse (Qualifier.parseChars_ok h)

theorem wellFormed_of_qualifiers? {members : List Qualifier}
    (h : qualifiers? nodes = some members) :
    ∀ q ∈ members, q.WellFormed Qualifier.IsLiteral := by
  induction nodes generalizing members with
  | nil =>
    cases h
    exact fun _ hq => absurd hq List.not_mem_nil
  | cons node rest ih =>
    rw [qualifiers?] at h
    split at h
    · rename_i q hread
      obtain ⟨others, hothers, rfl⟩ := Option.map_eq_some_iff.1 h
      exact List.forall_mem_cons.2 ⟨wellFormed_of_parseText hread, ih hothers⟩
    · exact nomatch h

/-- The condition of a rule in parts is of the grammar: it has members enough to be a combination
if it is one. -/
theorem wellFormed_of_qualifier? {q : Qualifier} (h : qualifier? nodes = some q) :
    q.WellFormed Qualifier.IsLiteral := by
  rw [qualifier?] at h
  split at h
  · exact nomatch h
  · cases h
    exact .constant true
  · rename_i found hfound
    cases h
    exact wellFormed_of_qualifiers? hfound q List.mem_cons_self
  · rename_i members hnone hsingle hmembers
    cases h
    refine .compound .all ?_ (wellFormed_of_qualifiers? hmembers)
    -- No member and a single one have been taken before.
    match members, hnone, hsingle with
    | [], hnone, _ => exact absurd rfl hnone
    | [q], _, hsingle => exact absurd rfl (hsingle q)
    | _ :: _ :: others, _, _ => exact Nat.le_add_left 2 others.length

theorem isSound_of_actions? {members : List Action} (h : actions? nodes = some members) :
    ∀ action ∈ members, action.IsSound := by
  induction nodes generalizing members with
  | nil =>
    cases h
    exact fun _ haction => absurd haction List.not_mem_nil
  | cons node rest ih =>
    rw [actions?] at h
    split at h
    · rename_i action hread
      obtain ⟨others, hothers, rfl⟩ := Option.map_eq_some_iff.1 h
      exact List.forall_mem_cons.2 ⟨(Action.parse_ok hread).isSound, ih hothers⟩
    · exact nomatch h

theorem isSound_of_action? (h : action? node = some action) : action.IsSound := by
  rw [action?] at h
  split at h
  · exact nomatch h
  · obtain ⟨members, hmembers, rfl⟩ := Option.map_eq_some_iff.1 h
    exact Action.isSound_all (isSound_of_actions? hmembers)

/-- The path of the elements with the prefix `var` is checked. -/
theorem isSound_of_splitAction? (h : splitAction? node = some action) : action.IsSound := by
  obtain ⟨key, -, h⟩ := Option.bind_eq_some_iff.1 h
  intro path hpath
  split at h
  · cases h
    exact absurd hpath List.not_mem_nil
  · obtain ⟨text, -, h⟩ := Option.bind_eq_some_iff.1 h
    obtain ⟨segments, hsegments, h⟩ := Option.bind_eq_some_iff.1 h
    cases h
    rw [List.mem_singleton.1 hpath, hsegments]
    rfl

/-- The action of an element is sound, in whichever way it is given. -/
theorem isSound_of_action (h : (action? node).or (splitAction? node) = some action) :
    action.IsSound := by
  rcases Option.or_eq_some_iff.1 h with haction | ⟨-, hsplit⟩
  · exact isSound_of_action? haction
  · exact isSound_of_splitAction? hsplit

theorem isSound_of_flatRule? (h : flatRule? node = some rule) : rule.IsSound := by
  rw [flatRule?] at h
  split at h
  · rename_i found hread
    obtain ⟨q, action, p, rfl, hq, haction, -⟩ := Rule.parse_ok hread
    cases h
    exact Rule.isSound_mk hq haction.isSound _
  · exact nomatch h

theorem isSound_of_structuredRule? (h : structuredRule? node = some rule) : rule.IsSound := by
  obtain ⟨q, hq, h⟩ := Option.bind_eq_some_iff.1 h
  obtain ⟨action, haction, h⟩ := Option.bind_eq_some_iff.1 h
  cases h
  exact Rule.isSound_mk (wellFormed_of_qualifier? hq) (isSound_of_action haction) _

theorem isSound_of_rule? (h : rule? node = some rule) : rule.IsSound := by
  rw [rule?] at h
  split at h
  · exact isSound_of_flatRule? h
  · exact isSound_of_structuredRule? h

theorem isSound_of_mem_multirule (h : rule ∈ multirule node) : rule.IsSound := by
  rw [multirule] at h
  split at h
  · exact absurd h List.not_mem_nil
  · rename_i action haction
    obtain ⟨condition, -, h⟩ := List.mem_filterMap.1 h
    split at h
    · rename_i q hread
      cases h
      exact Rule.isSound_mk (wellFormed_of_parseText hread) (isSound_of_action haction) _
    · cases h

end XmlModel

/-! ## The rules of files -/

/-- A rule of a rule file or of a document. -/
def Rule.IsLoaded (rule : Rule) : Prop :=
  ∃ strict text rules, rule ∈ rules ∧
    (RuleFile.load strict text = .ok rules ∨ XmlModel.load strict text = .ok rules)

/-- A rule that was loaded is sound. -/
theorem Rule.IsLoaded.isSound {rule : Rule} (h : rule.IsLoaded) : rule.IsSound := by
  obtain ⟨strict, text, rules, hmem, hload | hload⟩ := h
  · obtain ⟨line, -, hline⟩ := (RuleFile.load_ok_iff.1 hload).exists_of_mem hmem
    exact Rule.isSound_of_parse (RuleFile.rule?_eq_some_iff.1 hline)
  · obtain ⟨root, front, -, hfront, rfl⟩ := XmlModel.load_ok_iff.1 hload
    rcases List.mem_append.1 hmem with hmem | hmem
    · obtain ⟨node, -, hnode⟩ := hfront.exists_of_mem hmem
      exact XmlModel.isSound_of_rule? hnode
    · obtain ⟨node, -, hnode⟩ := List.mem_flatMap.1 hmem
      exact XmlModel.isSound_of_mem_multirule hnode

/-! ## Queries -/

/-- The evaluation gave a result, or it found a cycle. -/
def IsOkOrCycle {α : Type} (result : Except EvalError α) : Prop :=
  (∃ a, result = .ok a) ∨ ∃ chain, result = .error (.cyclicReference chain)

namespace Context

variable {c : Context}

/-- All rules of the context are sound. -/
def HasSoundRules (c : Context) : Prop :=
  ∀ model, c.model = some model → ∀ rule ∈ model.rules, rule.IsSound

/-- Over sound rules only cycles are left of the errors that inference can fail by. -/
theorem isOkOrCycle_of_explained {α : Type} {result : Except EvalError α}
    (hsound : c.HasSoundRules) (h : ∀ error, result = .error error → c.Explained error) :
    IsOkOrCycle result := by
  cases result with
  | ok a => exact .inl ⟨a, rfl⟩
  | error error =>
    obtain ⟨chain, rfl⟩ := (h error rfl).isCycle fun model hmodel rule hrule =>
      (hsound model hmodel rule hrule).action
    exact .inr ⟨chain, rfl⟩

/-- A key path, whatever is in progress, fails by an explained error. -/
theorem path_explained_of_isSome {active : List String} {path : String} {error : EvalError}
    (hpath : (KeyPath.segments? path).isSome = true)
    (h : (c.reader active).path path = .error error) : c.Explained error := by
  refine (path_explained h).resolve_right ?_
  intro hsegments
  rw [(KeyPath.segments_error hsegments).1] at hpath
  exact nomatch hpath

/-- A condition of the grammar gives a result or a cycle, whatever is in progress. -/
theorem evaluate_isOkOrCycle (hsound : c.HasSoundRules) (active : List String) {q : Qualifier}
    (hq : q.WellFormed Qualifier.IsLiteral) : IsOkOrCycle (q.evaluate (c.reader active)) := by
  refine isOkOrCycle_of_explained hsound ?_
  intro error herror
  obtain ⟨path, hpath, hlook⟩ := hq.evaluate_error herror
  exact path_explained_of_isSome (KeyPath.isSome_segments? (hq.isKeyPath hpath)) hlook

/-- No query fails by a condition that cannot be evaluated. If all rules were loaded, queries fail
only by cycles, but for a query of a path that has an empty segment, and so do the conditions of
the rules. -/
theorem queries_isOkOrCycle (c : Context) :
    (∀ key text, c.value key ≠ .error (.unsupportedQualifier text) ∧
      c.inferred key ≠ .error (.unsupportedQualifier text) ∧
      c.allValues key ≠ .error (.unsupportedQualifier text) ∧
      c.path key ≠ .error (.unsupportedQualifier text)) ∧
    ((∀ model, c.model = some model → ∀ rule ∈ model.rules, rule.IsLoaded) →
      (∀ key, IsOkOrCycle (c.value key) ∧ IsOkOrCycle (c.inferred key) ∧
        IsOkOrCycle (c.allValues key)) ∧
      (∀ path, IsOkOrCycle (c.path path) ∨ KeyPath.segments? path = none) ∧
      ∀ model, c.model = some model → ∀ rule ∈ model.rules, ∀ q, rule.qualifier = some q →
        ∀ active, IsOkOrCycle (q.evaluate (c.reader active))) := by
  constructor
  · intro key text
    refine ⟨?_, ?_, ?_, ?_⟩
    · intro h
      exact (c.reader_explained [] key _ h).supported rfl
    · intro h
      exact (inferred_explained h).supported rfl
    · intro h
      exact (allValues_explained h).supported rfl
    · intro h
      rcases path_explained h with hexplained | hsegments
      · exact hexplained.supported rfl
      · exact nomatch (KeyPath.segments_error hsegments).2
  · intro hloaded
    have hsound : c.HasSoundRules := fun model hmodel rule hrule =>
      (hloaded model hmodel rule hrule).isSound
    refine ⟨fun key => ⟨?_, ?_, ?_⟩, fun path => ?_, ?_⟩
    · exact isOkOrCycle_of_explained hsound (c.reader_explained [] key)
    · exact isOkOrCycle_of_explained hsound fun _ => inferred_explained
    · exact isOkOrCycle_of_explained hsound fun _ => allValues_explained
    · cases hsegments : KeyPath.segments? path with
      | none => exact .inr rfl
      | some segments =>
        have hpath : (KeyPath.segments? path).isSome = true := by
          rw [hsegments]
          rfl
        exact .inl (isOkOrCycle_of_explained hsound fun _ => path_explained_of_isSome hpath)
    · intro model hmodel rule hrule q hq active
      exact evaluate_isOkOrCycle hsound active ((hsound model hmodel rule hrule).condition q hq)

/-! ## A cycle through two files -/

namespace Entangled

open Xml (Node)

/-- The rule of a rule file. -/
def first : Rule := ⟨some (.constant true), some (.reference "b" "a"), 150⟩

/-- The rule of a document. -/
def second : Rule :=
  ⟨some (.compare "b" .equal (Value.ofInt 1)), some (.reference "a" "b"), 100⟩

def element : Node :=
  .element ⟨none, "rule", [], 53⟩
    [.element ⟨none, "q", [], 47⟩ [.text "b = 1".toList],
      .element ⟨none, "k", [], 35⟩ [.text "a".toList],
      .element ⟨some "var", "v", [], 27⟩ [.text "b".toList]]

def root : Node := .element ⟨none, "m", [], 74⟩ [element]

set_option maxRecDepth 8000 in
theorem first_isLoaded : first.IsLoaded :=
  ⟨true, "*true* => b = a ; high".toList, [first], List.mem_singleton_self first, .inl rfl⟩

set_option maxRecDepth 8000 in
theorem second_isLoaded : second.IsLoaded := by
  have hroot : Xml.parse?
      "<m xmlns:var='urn:v'><rule><q>b = 1</q><k>a</k><var:v>b</var:v></rule></m>".toList =
        some root := rfl
  have helement : XmlModel.rule? element = some second := rfl
  have hfront : KeptOf XmlModel.rule? true (XmlModel.ruleElements root) [second] :=
    (KeptOf.cons_iff_of_some helement).2 ⟨[], KeptOf.nil_iff.2 rfl, rfl⟩
  exact ⟨true, _, [second], List.mem_singleton_self second,
    .inr (XmlModel.load_ok_iff.2 ⟨root, [second], hroot, hfront, rfl⟩)⟩

/-- A context with both rules. -/
def context : Context := { model := some ⟨[first, second]⟩ }

end Entangled

theorem queries_isOkOrCycle_entangled :
    (∀ model, Entangled.context.model = some model → ∀ rule ∈ model.rules, rule.IsLoaded) ∧
      Entangled.context.value "a" = .error (.cyclicReference ["a", "b", "a"]) ∧
      (∀ key, IsOkOrCycle (Entangled.context.value key)) ∧
      IsOkOrCycle (Entangled.context.path "a.c") := by
  have hloaded : ∀ model, Entangled.context.model = some model →
      ∀ rule ∈ model.rules, rule.IsLoaded := by
    rintro _ ⟨⟩
    refine List.forall_mem_cons.2 ⟨Entangled.first_isLoaded, ?_⟩
    exact List.forall_mem_singleton.2 Entangled.second_isLoaded
  obtain ⟨-, hqueries⟩ := queries_isOkOrCycle Entangled.context
  obtain ⟨hkeys, hpaths, -⟩ := hqueries hloaded
  refine ⟨hloaded, rfl, fun key => (hkeys key).1, ?_⟩
  refine (hpaths "a.c").resolve_right ?_
  rw [show KeyPath.segments? "a.c" = some ["a", "c"] from rfl]
  exact nofun

end Context

end RankedRules
