/-
The ways to write a qualifier.

A condition is written as its tokens with blanks between them. A combination needs parentheses only
where its chain would be read as a part of another one: a disjunction among the members of any
chain, a conjunction among those of a conjunction, and either behind `NOT`. Parentheses may stand
around any condition. The canonical text encloses every combination.

* `Qualifier.WellFormed` — the conditions that the grammar has texts for;
* `Qualifier.Place`, `Qualifier.Place.Admits` — where a condition stands, and which combinations may
  stand there bare;
* `Qualifier.Written` — the texts of a condition at a place, and of the members of a chain;
* `Qualifier.WellFormed.text_written` — the canonical text is one of them, at every place.
-/
import RankedRules.Proofs.Qualifier.Tokens

namespace RankedRules.Qualifier

open Text

/-- A condition with names that are read as key paths where they stand, with literals of some kind
and with at least two members in each of its combinations. -/
inductive WellFormed (IsLiteral : Value → Prop) : Qualifier → Prop
  | constant (holds : Bool) : WellFormed IsLiteral (.constant holds)
  | compare {path : String} {value : Value} (op : Operator) (hpath : IsLeftKey path)
      (hvalue : IsLiteral value) : WellFormed IsLiteral (.compare path op value)
  | compareKeys {left right : String} (op : Operator) (hleft : IsLeftKey left)
      (hright : IsRightKey right) : WellFormed IsLiteral (.compareKeys left op right)
  | not {inner : Qualifier} (hinner : WellFormed IsLiteral inner) :
      WellFormed IsLiteral (.not inner)
  | compound {members : List Qualifier} (connective : Connective) (hcount : 2 ≤ members.length)
      (hmembers : ∀ q ∈ members, WellFormed IsLiteral q) :
      WellFormed IsLiteral (.compound connective members)

/-- Where a condition stands: for itself, among the members of a chain, or behind `NOT`. -/
inductive Place
  | alone
  | among (connective : Connective)
  | negated

/-- A combination may stand here without parentheses. -/
def Place.Admits : Place → Connective → Prop
  | .alone, _ => True
  | .among .any, .all => True
  | _, _ => False

/-- What is written in one piece: a condition at a place, or the members of a chain. -/
inductive Phrase
  | one (place : Place) (q : Qualifier)
  | chain (connective : Connective) (members : List Qualifier)

/-- At least one blank. -/
structure Gap (cs : List Char) : Prop where
  nonempty : cs ≠ []
  blanks : Blanks cs

/-- The texts of a phrase. -/
inductive Written : Phrase → List Char → Prop
  | constant (place : Place) (holds : Bool) :
      Written (.one place (.constant holds)) (text (.constant holds)).toList
  | compare (place : Place) (path : String) (op : Operator) (value : Value)
      {gap gap' : List Char} (hgap : Gap gap) (hgap' : Gap gap') :
      Written (.one place (.compare path op value))
        (path.toList ++ (gap ++ (op.symbol.toList ++ (gap' ++ (literal value).toList))))
  | compareKeys (place : Place) (left : String) (op : Operator) (right : String)
      {gap gap' : List Char} (hgap : Gap gap) (hgap' : Gap gap') :
      Written (.one place (.compareKeys left op right))
        (left.toList ++ (gap ++ (op.symbol.toList ++ (gap' ++ right.toList))))
  | not (place : Place) {inner : Qualifier} {word gap cs : List Char} (hword : IsWord "NOT" word)
      (hgap : Gap gap) (hinner : Written (.one .negated inner) cs) :
      Written (.one place (.not inner)) (word ++ (gap ++ cs))
  | enclosed (place : Place) {q : Qualifier} {front behind cs : List Char} (hfront : Blanks front)
      (hbehind : Blanks behind) (hq : Written (.one .alone q) cs) :
      Written (.one place q) ('(' :: (front ++ (cs ++ (behind ++ [')']))))
  | bare {place : Place} {connective : Connective} {members : List Qualifier} {cs : List Char}
      (hplace : place.Admits connective) (hmembers : Written (.chain connective members) cs) :
      Written (.one place (.compound connective members)) cs
  | last {connective : Connective} {q : Qualifier} {cs : List Char}
      (hq : Written (.one (.among connective) q) cs) : Written (.chain connective [q]) cs
  | cons {connective : Connective} {q : Qualifier} {others : List Qualifier}
      {cs gap word gap' cs' : List Char} (hq : Written (.one (.among connective) q) cs)
      (hgap : Gap gap) (hword : IsWord connective.word word) (hgap' : Gap gap')
      (hothers : Written (.chain connective others) cs') :
      Written (.chain connective (q :: others)) (cs ++ (gap ++ (word ++ (gap' ++ cs'))))

/-! ## The canonical text -/

theorem Gap.blank : Gap [' '] :=
  ⟨by simp, by simp [Blanks, isBlank]⟩

/-- The canonical texts of members, with the word of their connective between them. -/
theorem Written.texts {connective : Connective} {members : List Qualifier} (hne : members ≠ [])
    (hmembers : ∀ q ∈ members, Written (.one (.among connective) q) q.text.toList) :
    Written (.chain connective members)
      (join (" " ++ connective.word ++ " ") (texts members)).toList := by
  induction members with
  | nil => exact absurd rfl hne
  | cons q others ih =>
    have hq : Written (.one (.among connective) q) q.text.toList := hmembers q List.mem_cons_self
    cases others with
    | nil => exact .last hq
    | cons next others =>
      have hothers := ih (by simp) fun p hp => hmembers p (List.mem_cons_of_mem q hp)
      have hword : IsWord connective.word connective.word.toList := by
        cases connective <;> decide
      have hall := Written.cons hq .blank hword .blank hothers
      simpa [Qualifier.texts, join] using hall

/-- The canonical text is one of the texts, wherever the condition stands. -/
theorem WellFormed.text_written {IsLiteral : Value → Prop} {q : Qualifier}
    (h : WellFormed IsLiteral q) (place : Place) : Written (.one place q) q.text.toList := by
  induction h generalizing place with
  | constant holds => exact .constant place holds
  | @compare path value op hpath hvalue =>
    simpa [text] using Written.compare place path op value .blank .blank
  | @compareKeys left right op hleft hright =>
    simpa [text] using Written.compareKeys place left op right .blank .blank
  | not hinner ih =>
    have hword : IsWord "NOT" "NOT".toList := by decide
    simpa [text] using Written.not place hword .blank (ih .negated)
  | @compound members connective hcount hmembers ih =>
    have hne : members ≠ [] := by
      rintro rfl
      simp at hcount
    have hchain := Written.texts hne fun q hq => ih q hq (.among connective)
    have hbare : Written (.one .alone (.compound connective members)) _ :=
      .bare (by cases connective <;> trivial) hchain
    -- Both runs of blanks inside the parentheses are empty.
    have hall := Written.enclosed place .nil .nil hbare
    simpa [text] using hall

end RankedRules.Qualifier
