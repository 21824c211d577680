/-
Legible rules, which are read back from their canonical texts.

The canonical text of a rule is taken apart again at its arrow and at the semicolon in front of its
priority. The arrow is always found, since the search passes over every condition. The semicolon is
found if the action in front of it closes what it opens, and literals do; keys and key paths need
not. Then the parts are read by themselves.

* `Rule.parse_ok` — what a rule that is read consists of;
* `Rule.parse_arrow`, `Rule.parseRight_semicolon` — how its canonical text is taken apart;
* `Action.IsLegible`, `Rule.IsLegible` — the actions and rules whose canonical texts say what they
  are;
* `Rule.parse_text_of_isLegible` — they are read back.
-/
import RankedRules.Proofs.Qualifier.ReadBack
import RankedRules.Proofs.Qualifier.Scanned
import RankedRules.Proofs.Rule.Assignment

namespace RankedRules

open Scan Text

/-! ## What is read -/

theorem Priority.isSigned32_named? {name : String} {p : Int} (h : Priority.named? name = some p) :
    Priority.isSigned32 p = true := by
  rw [Priority.named?.eq_def] at h
  split at h <;> cases h <;> decide

theorem Priority.isSigned32_parse (text : List Char) :
    Priority.isSigned32 (Priority.parse text) = true := by
  simp only [Priority.parse]
  split
  · cases hn : (Decimal.integer? (trim text)).filter Priority.isSigned32 with
    | none => decide
    | some n => exact (Option.filter_eq_some_iff.1 hn).2
  · cases hp : Priority.named? (String.ofList (trim text)) with
    | none => decide
    | some p => exact Priority.isSigned32_named? hp

theorem Qualifier.parseChars_ok {cs : List Char} {q : Qualifier}
    (h : Qualifier.parseChars cs = .ok q) : Qualifier.parse cs = .ok q := by
  rw [Qualifier.parseChars] at h
  split at h
  · rename_i hq
    rw [hq]
    cases h
    rfl
  · cases h

theorem Qualifier.parseChars_of_parse {cs : List Char} {q : Qualifier}
    (h : Qualifier.parse cs = .ok q) : Qualifier.parseChars cs = .ok q := by
  rw [Qualifier.parseChars, h]

theorem Rule.parseRight_ok {text : List Char} {action : Action} {p : Int}
    (h : Rule.parseRight text = .ok (action, p)) :
    action.Parsed ∧ Priority.isSigned32 p = true := by
  rw [Rule.parseRight] at h
  obtain ⟨read, hread, h⟩ := bind_eq_ok_iff.1 h
  cases h
  refine ⟨Action.parse_ok hread, ?_⟩
  split
  · exact Priority.isSigned32_parse _
  · show Priority.isSigned32 Priority.normal = true
    decide

/-- A rule that is read has a condition of the grammar, an action and a priority of 32 bits. -/
theorem Rule.parse_ok {text : List Char} {r : Rule} (h : Rule.parse text = .ok r) :
    ∃ q a p, r = ⟨some q, some a, p⟩ ∧ q.WellFormed Qualifier.IsLiteral ∧ a.Parsed ∧
      Priority.isSigned32 p = true := by
  rw [Rule.parse] at h
  split at h
  · cases h
  · split at h
    · cases h
    · split at h
      · cases h
      · obtain ⟨q, hq, h⟩ := bind_eq_ok_iff.1 h
        obtain ⟨⟨a, p⟩, hright, h⟩ := bind_eq_ok_iff.1 h
        cases h
        obtain ⟨haction, hpriority⟩ := Rule.parseRight_ok hright
        exact ⟨q, a, p, rfl, Qualifier.wellFormed_of_parse (Qualifier.parseChars_ok hq), haction,
          hpriority⟩

/-! ## Canonical texts -/

/-- A priority is read back behind blanks. -/
theorem Priority.parse_integerChars {p : Int} (hp : Priority.isSigned32 p = true)
    {front : List Char} (hfront : Blanks front) :
    Priority.parse (front ++ Number.integerChars p) = p := by
  have hsolid : Solid (Number.integerChars p) := Number.chars_solid (.integer p)
  have htrim : trim (front ++ Number.integerChars p) = Number.integerChars p := by
    have happend := trim_append hfront .nil (Number.integerChars p)
    rwa [List.append_nil, hsolid.trim_eq] at happend
  obtain ⟨c, rest, hchars, hfirst, _⟩ := Number.integerChars_begins p
  have hhead :
      ((Number.integerChars p).head?.map fun c => c.isDigit || decide (c = '-')).getD false =
        true := by
    rw [hchars]
    simpa using hfirst
  simp only [Priority.parse, htrim, hhead, if_true, Decimal.integer?_integerChars,
    Option.filter_some, hp, Option.getD_some]

theorem length_le_byteSize (cs : List Char) : cs.length ≤ byteSize cs := by
  induction cs with
  | nil => exact Nat.le_refl 0
  | cons c cs ih =>
    have hsize := c.utf8Size_pos
    simp only [List.length_cons, byteSize]
    omega

/-- The canonical text of a rule is taken apart at the arrow. -/
theorem Rule.parse_arrow {q : Qualifier} (hq : q.WellFormed Qualifier.IsLiteral)
    (right : List Char) :
    Rule.parse (q.text.toList ++ [' '] ++ '=' :: '>' :: right) =
      (Qualifier.parseChars q.text.toList).bind fun q =>
        (Rule.parseRight right).map fun (action, priority) => ⟨some q, some action, priority⟩ := by
  have hpasses : Passes false Qualifier.arrow {} (q.text.toList ++ [' ']) {} :=
    hq.text_passes.append (Qualifier.passes_of_signs (by decide))
  have hcut : cut? false ['=', '>'] (q.text.toList ++ [' '] ++ '=' :: '>' :: right) =
      some (q.text.toList ++ [' '], '=' :: '>' :: right) :=
    cut?_of_passes (by simp) hpasses rfl rfl
  have hblank : (q.text.toList ++ [' '] ++ '=' :: '>' :: right).all isBlank = false := by
    rw [List.all_eq_false]
    exact ⟨'=', by simp, by decide⟩
  have hsize : ¬byteSize (q.text.toList ++ [' ']) < 3 := by
    have hlength := hq.length_text
    have hbytes := length_le_byteSize q.text.toList
    rw [byteSize_append]
    have hone : byteSize [' '] = 1 := rfl
    omega
  have htrim : trim (q.text.toList ++ [' ']) = q.text.toList := hq.text_solid.trim_append_blank
  rw [Rule.parse, hblank, hcut]
  simp only [Bool.false_eq_true, if_false, if_neg hsize, Qualifier.parseText, htrim, bind,
    List.drop_succ_cons, List.drop_zero]
  cases Qualifier.parseChars q.text.toList with
  | error fault => rfl
  | ok q' =>
    cases Rule.parseRight right <;> rfl

/-- The semicolon and the priority behind the action of a rule. -/
def Priority.ending (p : Int) : List Char := ' ' :: ';' :: ' ' :: Number.integerChars p

/-- The right side of a rule is taken apart at the semicolon in front of the priority. -/
theorem Rule.parseRight_semicolon {action : List Char}
    (haction : Passes true [';'] {} action {}) {p : Int} (hp : Priority.isSigned32 p = true) :
    Rule.parseRight ([' '] ++ (action ++ Priority.ending p)) =
      (Action.parse ([' '] ++ (action ++ [' '])) none).map (·, p) := by
  have hblank : Passes true [';'] {} [' '] {} := PropertyList.passes_of_signs (by decide) 0
  have hcut : cut? true [';'] ([' '] ++ (action ++ [' ']) ++ ';' :: ' ' :: Number.integerChars p) =
      some ([' '] ++ (action ++ [' ']), ';' :: ' ' :: Number.integerChars p) :=
    cut?_of_passes (by simp) (hblank.append (haction.append hblank)) rfl rfl
  have htext : [' '] ++ (action ++ Priority.ending p) =
      [' '] ++ (action ++ [' ']) ++ ';' :: ' ' :: Number.integerChars p := by
    simp [Priority.ending]
  have hpriority : Priority.parse ([' '] ++ Number.integerChars p) = p :=
    Priority.parse_integerChars hp (by simp [Blanks, isBlank])
  rw [Rule.parseRight, htext, hcut]
  rw [List.singleton_append] at hpriority
  simp only [List.drop_succ_cons, List.drop_zero, hpriority]
  cases Action.parse ([' '] ++ (action ++ [' '])) none <;> rfl

/-! ## Legible rules -/

/-- A text that closes every quote and bracket that it opens, with no semicolon outside of them. -/
structure Scan.IsClosed (text : String) : Prop where
  state : ({} : State).after true text.toList = {}
  noSemicolon : NoFree true ';' {} text.toList

instance (text : String) : Decidable (IsClosed text) :=
  decidable_of_iff
    (({} : State).after true text.toList = {} ∧ NoFree true ';' {} text.toList)
    ⟨fun ⟨h1, h2⟩ => ⟨h1, h2⟩, fun ⟨h1, h2⟩ => ⟨h1, h2⟩⟩

/-- An action whose key is not taken for a class name, and whose canonical text does not hide the
semicolon behind it; the constant needs no escapes, and the key path looks like no literal. -/
inductive Action.IsLegible : Action → Prop
  | assign {key : String} {v : Value} (hcast : key.toList.head? ≠ some '(')
      (hclosed : IsClosed key) (hstring : ∀ s, v = .string s → RightSide.IsUnescaped s) :
      IsLegible (.assign key v)
  | reference {key path : String} (hcast : key.toList.head? ≠ some '(')
      (hclosed : IsClosed (key ++ " = " ++ path)) (hname : RightSide.IsName path) :
      IsLegible (.reference key path)

/-- A rule with a legible condition and a legible action. -/
structure Rule.IsLegible (r : Rule) : Prop where
  qualifier : ∀ q ∈ r.qualifier, q.IsLegible
  action : ∀ a ∈ r.action, a.IsLegible

/-- Behind a key, only brackets can be open. -/
theorem Action.IsKey.after_eq {key : String} (hkey : Action.IsKey key) :
    ∃ depth, ({} : State).after true key.toList = outside depth := by
  have hproper : (({} : State).after true key.toList).IsProper :=
    State.IsProper.start.after key.toList
  have hquote : (({} : State).after true key.toList).quote = none :=
    (quote_after_congr rfl rfl key.toList).trans hkey.closed
  have hescaped := hproper.notEscaped hquote
  generalize ({} : State).after true key.toList = s at hquote hescaped
  obtain ⟨quote, escaped, depth⟩ := s
  cases hquote
  cases hescaped
  exact ⟨depth, rfl⟩

/-- A constant does not change what is open behind the key, and has no free semicolon. -/
theorem Action.assign_passes {key : String} {v : Value} {depth : Nat}
    (hkey : Passes true [';'] {} key.toList (outside depth)) (hv : RightSide.IsConstant v) :
    Passes true [';'] {} (Action.assign key v).text.toList (outside depth) := by
  have hequals : Passes true [';'] (outside depth) [' ', '=', ' '] (outside depth) :=
    PropertyList.passes_of_signs (by decide) depth
  rw [assign_toList]
  simpa using (hkey.append hequals).append (RightSide.literal_passes hv depth)

/-- A closed text is passed over on the search for the semicolon. -/
theorem Scan.IsClosed.passes {text : String} (h : IsClosed text) :
    Passes true [';'] {} text.toList {} := by
  have hpasses := h.noSemicolon.passes
  rwa [h.state] at hpasses

/-- A legible action is passed over on the search for the semicolon. -/
theorem Action.text_passes {a : Action} (ha : a.Parsed) (hlegible : a.IsLegible) :
    Passes true [';'] {} a.text.toList {} := by
  cases hlegible with
  | assign hcast hclosed hstring =>
    cases ha with
    | assign hkey hv => exact assign_passes hclosed.passes hv
  | reference hcast hclosed hname => exact hclosed.passes

/-- A legible action is read back. -/
theorem Action.parse_text_of_isLegible {a : Action} (ha : a.Parsed) (hlegible : a.IsLegible) :
    Action.parse ([' '] ++ (a.text.toList ++ [' '])) none = .ok a := by
  cases hlegible with
  | @assign key v hcast hclosed hstring =>
    cases ha with
    | assign hkey hv =>
      rw [parse_sides hkey hcast (assign_toList key v),
        (RightSide.literal_solid hv).trim_append_blank, ofSides, RightSide.parse_literal hv hstring]
      rfl
  | @reference key path hcast hclosed hname =>
    cases ha with
    | reference hkey hpath hsome =>
      rw [parse_sides hkey hcast (reference_toList key path), hpath.trim_append_blank, ofSides,
        RightSide.parse_name hname hpath hsome]
      rfl

theorem Rule.text_toList (q : Qualifier) (a : Action) (p : Int) :
    (Rule.text ⟨some q, some a, p⟩).toList = q.text.toList ++ [' '] ++ '=' :: '>' ::
      ([' '] ++ (a.text.toList ++ Priority.ending p)) := by
  simp [Rule.text, Priority.ending]

/-- A legible rule is read back from its canonical text. -/
theorem Rule.parse_text_of_isLegible {text : List Char} {r : Rule} (h : Rule.parse text = .ok r)
    (hlegible : r.IsLegible) : Rule.parse r.text.toList = .ok r := by
  obtain ⟨q, a, p, rfl, hq, ha, hp⟩ := Rule.parse_ok h
  have hqLegible := hlegible.qualifier q rfl
  have haLegible := hlegible.action a rfl
  have hparse := Qualifier.parseChars_of_parse (Qualifier.parse_text_of_isLegible hq hqLegible)
  rw [Rule.text_toList, Rule.parse_arrow hq, hparse,
    Rule.parseRight_semicolon (Action.text_passes ha haLegible) hp,
    Action.parse_text_of_isLegible ha haLegible]
  rfl

end RankedRules
