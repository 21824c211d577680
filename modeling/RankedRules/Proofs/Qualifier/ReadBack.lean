/-
Which conditions are read back from their canonical texts.

A double may be written with an exponent, but where a condition is read, a number ends in front of
the letter of the exponent. No word of the grammar begins with that letter, and it closes nothing,
so no reader gets past it: such a text is not read at all. Every other condition is read back.

* `Qualifier.literals`, `Qualifier.IsLegible` — the literals of a condition, and the conditions
  without exponents in them;
* `Qualifier.parse_text_of_isLegible` — these are read back;
* `Qualifier.Written.stops` — the readers stop in front of the first exponent;
* `Qualifier.isLegible_of_parse_text` — so a condition whose text is read has none.
-/
import RankedRules.Proofs.Qualifier.Parsed

namespace RankedRules.Qualifier

open Text

mutual

/-- The literals that a condition compares with. -/
def literals : Qualifier → List Value
  | .compare _ _ value => [value]
  | .not inner => inner.literals
  | .compound _ members => literalsOfAll members
  | _ => []

/-- The literals that several conditions compare with. -/
def literalsOfAll : List Qualifier → List Value
  | [] => []
  | q :: rest => q.literals ++ literalsOfAll rest

end

/-- None of the values is a double that is written with an exponent. -/
def NoExponent (values : List Value) : Prop :=
  ∀ x, .number (.double x) ∈ values → 'e' ∉ x.text

/-- A condition in which no double is written with an exponent. -/
def IsLegible (q : Qualifier) : Prop := NoExponent q.literals

/-! ## Conditions without exponents -/

theorem mem_literalsOfAll {members : List Qualifier} {q : Qualifier} {v : Value}
    (hq : q ∈ members) (hv : v ∈ q.literals) : v ∈ literalsOfAll members := by
  induction members with
  | nil => cases hq
  | cons first others ih =>
    rw [literalsOfAll, List.mem_append]
    rcases List.mem_cons.1 hq with rfl | hq
    · exact .inl hv
    · exact .inr (ih hq)

/-- The kind of the literals of a condition can be changed for each of them. -/
theorem WellFormed.mono {P Q : Value → Prop} {q : Qualifier} (h : q.WellFormed P)
    (hall : ∀ v ∈ q.literals, P v → Q v) : q.WellFormed Q := by
  induction h with
  | constant holds => exact .constant holds
  | compare op hpath hvalue =>
    exact .compare op hpath (hall _ (by simp [literals]) hvalue)
  | compareKeys op hleft hright => exact .compareKeys op hleft hright
  | not hinner ih => exact .not (ih fun v hv => hall v (by rwa [literals]))
  | compound connective hcount hmembers ih =>
    refine .compound connective hcount fun q hq => ih q hq fun v hv => hall v ?_
    rw [literals]
    exact mem_literalsOfAll hq hv

/-- The literals of a legible condition are read back. -/
theorem WellFormed.readsBack {q : Qualifier} (hq : q.WellFormed IsLiteral)
    (hlegible : q.IsLegible) : q.WellFormed ReadsBack :=
  hq.mono fun _ hv hliteral => hliteral.readsBack fun x hx => hlegible x (hx ▸ hv)

/-- A legible condition is read back. -/
theorem parse_text_of_isLegible {q : Qualifier} (hq : q.WellFormed IsLiteral)
    (hlegible : q.IsLegible) : parse q.text.toList = .ok q := by
  have hread := hq.readsBack hlegible
  have happend : parse ([] ++ (q.text.toList ++ [])) = .ok q :=
    parse_written (fun _ h => h) hread (hread.text_written .alone) .nil .nil
  simpa using happend

/-! ## Exponents -/

/-- What is read, if anything is, ends in front of the letter of an exponent. -/
def StopsAtExponent {α : Type} (read : Except (Fault Cause) (α × List Char)) : Prop :=
  ∀ a rest, read = .ok (a, rest) → ∃ power, rest = 'e' :: power

theorem StopsAtExponent.map {α β : Type} {read : Except (Fault Cause) (α × List Char)}
    (h : StopsAtExponent read) (f : α → β) :
    StopsAtExponent (read.map fun (a, rest) => (f a, rest)) := by
  intro b rest hread
  obtain ⟨⟨a, rest⟩, ha, hpair⟩ := map_eq_ok_iff.1 hread
  cases hpair
  exact h a rest ha

/-- An exponent does not begin like the word of a connective. -/
theorem keyword?_exponent (connective : Connective) (power : List Char) :
    keyword? connective.word ('e' :: power) = none := by
  have htrim : trimStart ('e' :: power) = 'e' :: power := trimStart_of_not_blank (by decide) _
  rw [keyword?, htrim]
  cases connective <;> rfl

/-- A numeral ends in front of its exponent. -/
theorem operand_exponent {x : Double} (h : 'e' ∈ x.text) {blanks : List Char}
    (hblanks : Blanks blanks) (rest : List Char) :
    StopsAtExponent (operand (blanks ++ ((literal (.number (.double x))).toList ++ rest))) := by
  obtain ⟨mantissa, power, htext, hmantissa⟩ := Number.exists_mantissa h
  have hliteral : (literal (.number (.double x))).toList ++ rest =
      mantissa ++ 'e' :: (power ++ rest) := by
    simp [literal, Value.json, Number.text, Number.chars, htext]
  have hstop : ∀ c ∈ ('e' :: (power ++ rest)).head?, Decimal.isPositionalChar c = false := by
    rintro c ⟨⟩
    decide
  intro right behind hread
  rw [hliteral, operand_numeral hmantissa hblanks hstop] at hread
  split at hread
  · cases hread
    exact ⟨_, rfl⟩
  · cases hread

variable {connective : Connective} {reader : Reader Cause Qualifier} {cs : List Char}

/-- A chain whose first member stops at an exponent does so as a whole. -/
theorem chain_stops (h : StopsAtExponent (reader cs)) (n : Nat) :
    StopsAtExponent (chain connective.word reader n cs) := by
  intro members rest hread
  cases hfirst : reader cs with
  | error fault => cases n <;> simp [chain, hfirst, bind, Except.bind] at hread
  | ok found =>
    obtain ⟨power, hpower⟩ := h found.1 found.2 hfirst
    cases n with
    | zero =>
      simp only [chain, hfirst, bind, Except.bind] at hread
      cases hread
      exact ⟨power, hpower⟩
    | succ n =>
      simp only [chain, hfirst, bind, Except.bind, hpower, keyword?_exponent] at hread
      cases hread
      exact ⟨power, rfl⟩

theorem combination_stops
    (h : StopsAtExponent (chain connective.word reader cs.length cs)) :
    StopsAtExponent (combination connective reader cs) := by
  have hcombination : combination connective reader cs =
      (chain connective.word reader cs.length cs).map fun read =>
        (combine connective read.1, read.2) := by
    rw [combination]
    cases chain connective.word reader cs.length cs <;> rfl
  rw [hcombination]
  exact h.map _

/-! ## Texts with exponents -/

/-- The literals of a phrase. -/
def Phrase.literals : Phrase → List Value
  | .one _ q => q.literals
  | .chain _ members => literalsOfAll members

/-- Wherever a text stands, the readers of the phrase stop in front of an exponent in it. -/
def Phrase.Stops (cs : List Char) : Phrase → Prop
  | .one place _ => ∀ ⦃depth : Nat⦄ ⦃front : List Char⦄ (rest : List Char), cs.length ≤ depth →
      Blanks front → StopsAtExponent (place.reader depth (front ++ (cs ++ rest)))
  | .chain connective _ => ∀ ⦃depth n : Nat⦄ ⦃front : List Char⦄ (rest : List Char),
      cs.length ≤ depth → (front ++ (cs ++ rest)).length ≤ n → Blanks front →
      StopsAtExponent (Qualifier.chain connective.word ((Place.among connective).reader depth) n
        (front ++ (cs ++ rest)))

/-- The readers of all places stop where the readers do that they begin with. -/
theorem Phrase.Stops.at_place {q : Qualifier} (h : Stops cs (.one .negated q)) (place : Place) :
    Stops cs (.one place q) := by
  intro depth front rest hdepth hfront
  have hitem : StopsAtExponent (item depth (front ++ (cs ++ rest))) := h rest hdepth hfront
  match place with
  | .negated => exact hitem
  | .among .all => exact hitem
  | .among .any => exact combination_stops (chain_stops hitem _)
  | .alone =>
    rw [Place.reader, expression_succ]
    exact combination_stops (chain_stops (combination_stops (chain_stops hitem _)) _)

theorem compare_stops {path : String} (hpath : IsLeftKey path) (op : Operator) {x : Double}
    (h : 'e' ∈ x.text) {gap gap' : List Char} (hgap : Gap gap) (hgap' : Gap gap') :
    Phrase.Stops (path.toList ++ (gap ++ (op.symbol.toList ++
      (gap' ++ (literal (.number (.double x))).toList))))
      (.one .negated (.compare path op (.number (.double x)))) := by
  intro depth front rest _ hfront
  simp only [List.append_assoc]
  rw [Place.reader, item_comparison hpath op hgap hgap' hfront]
  exact (operand_exponent h hgap'.blanks rest).map _

theorem not_stops {inner : Qualifier} {word gap : List Char} (hword : IsWord "NOT" word)
    (hgap : Gap gap) (h : Phrase.Stops cs (.one .negated inner)) :
    Phrase.Stops (word ++ (gap ++ cs)) (.one .negated (.not inner)) := by
  intro depth front rest hdepth hfront
  simp only [List.length_append] at hdepth
  simp only [List.append_assoc]
  rw [Place.reader, item_not hword hgap hfront]
  exact (h rest (by omega) hgap.blanks).map _

/-- Inside of parentheses, an exponent stands where the closing one is expected. -/
theorem enclosed_stops {q : Qualifier} {front behind : List Char} (hfront : Blanks front)
    (h : Phrase.Stops cs (.one .alone q)) :
    Phrase.Stops ('(' :: (front ++ (cs ++ (behind ++ [')'])))) (.one .negated q) := by
  intro depth before rest hdepth hbefore
  simp only [List.length_cons, List.length_append, List.length_nil] at hdepth
  obtain ⟨inner, rfl⟩ : ∃ inner, depth = inner + 1 := ⟨depth - 1, by omega⟩
  have hstops : StopsAtExponent
      (expression (inner + 1) (front ++ (cs ++ (behind ++ ([')'] ++ rest))))) :=
    h _ (by omega) hfront
  have hopening : ∀ cs, trimStart ('(' :: cs) = '(' :: cs := trimStart_of_not_blank (by decide)
  have hexponent : ∀ power, trimStart ('e' :: power) = 'e' :: power :=
    trimStart_of_not_blank (by decide)
  intro found left hread
  simp only [List.cons_append, List.append_assoc] at hread
  rw [Place.reader, item_opening hbefore, primary, hopening] at hread
  obtain ⟨⟨inside, behind⟩, hfound, hread⟩ := bind_eq_ok_iff.1 hread
  obtain ⟨power, rfl⟩ := hstops inside behind hfound
  dsimp only at hread
  rw [hexponent] at hread
  cases hread

theorem bare_stops {place : Place} {connective : Connective} {members : List Qualifier}
    (hplace : place.Admits connective) (h : Phrase.Stops cs (.chain connective members)) :
    Phrase.Stops cs (.one place (.compound connective members)) := by
  intro depth front rest hdepth hfront
  have hchain := combination_stops (h rest hdepth (Nat.le_refl _) hfront)
  match place, connective, hplace, hchain with
  | .alone, .any, _, hchain => exact hchain
  | .alone, .all, _, hchain => exact combination_stops (chain_stops hchain _)
  | .among .any, .all, _, hchain => exact hchain

/-- A chain stops where its first member does, or where the others do behind a member that is
read. -/
theorem cons_stops {q : Qualifier} {others : List Qualifier} {gap word gap' cs' : List Char}
    (hgap : Gap gap) (hword : IsWord connective.word word) (hgap' : Gap gap')
    (h : Phrase.Stops cs (.one (.among connective) q) ∨
      Phrase.IsRead cs (.one (.among connective) q) ∧ Phrase.Stops cs' (.chain connective others)) :
    Phrase.Stops (cs ++ (gap ++ (word ++ (gap' ++ cs')))) (.chain connective (q :: others)) := by
  intro depth n front rest hdepth hlength hfront
  simp only [List.length_append] at hdepth hlength
  simp only [List.append_assoc]
  rcases h with hfirst | ⟨hfirst, hothers⟩
  · exact chain_stops (hfirst _ (by omega) hfront) n
  · -- The first member and the word behind it are read, and the others stop.
    have hread : keyword? connective.word (gap ++ (word ++ (gap' ++ (cs' ++ rest)))) =
        some (gap' ++ (cs' ++ rest)) :=
      keyword?_append hword (by cases connective <;> decide)
        (hword.ne_nil (by cases connective <;> decide)) hgap.blanks
        (isKeyChar_of_delimited hgap'.delimited)
    have hle := length_keyword?_le hread
    have hpositive : 0 < connective.word.toList.length := by cases connective <;> decide
    simp only [List.length_append] at hle
    have hmember : (Place.among connective).reader depth
        (front ++ (cs ++ (gap ++ (word ++ (gap' ++ (cs' ++ rest)))))) =
        .ok (q, gap ++ (word ++ (gap' ++ (cs' ++ rest)))) :=
      hfirst (by omega) hfront hgap.delimited (ends_in_front_of_word hword hgap)
    cases n with
    | zero => omega
    | succ n =>
      have hrestLength : (gap' ++ (cs' ++ rest)).length ≤ n := by
        simp only [List.length_append]
        omega
      have hchain : StopsAtExponent (Qualifier.chain connective.word
          ((Place.among connective).reader depth) n (gap' ++ (cs' ++ rest))) :=
        hothers rest (by omega) hrestLength hgap'.blanks
      have hstops := hchain.map (q :: ·)
      simp only [Qualifier.chain, hmember, bind, Except.bind, hread]
      intro members left hfound
      refine hstops members left ?_
      rw [← hfound]
      cases Qualifier.chain connective.word ((Place.among connective).reader depth) n
        (gap' ++ (cs' ++ rest)) <;> rfl

/-- The readers of a phrase with an exponent stop in front of the first one. -/
theorem Written.stops {phrase : Phrase} (h : Written phrase cs)
    (hwell : phrase.WellFormed IsLiteral) (hexponent : ¬NoExponent phrase.literals) :
    phrase.Stops cs := by
  induction h with
  | constant place holds => exact absurd (fun x hx => nomatch hx) hexponent
  | compare place path op value hgap hgap' =>
    simp only [NoExponent, Classical.not_forall, Classical.not_not] at hexponent
    obtain ⟨x, hx, hletter⟩ := hexponent
    cases List.mem_singleton.1 hx
    cases hwell with
    | compare _ hpath hvalue => exact (compare_stops hpath op hletter hgap hgap').at_place place
  | compareKeys place left op right hgap hgap' =>
    exact absurd (fun x hx => nomatch hx) hexponent
  | not place hword hgap _ ih =>
    cases hwell with
    | not hinner => exact (not_stops hword hgap (ih hinner hexponent)).at_place place
  | enclosed place hfront hbehind _ ih =>
    exact (enclosed_stops hfront (ih hwell hexponent)).at_place place
  | bare hplace _ ih =>
    cases hwell with
    | compound _ hcount hmembers => exact bare_stops hplace (ih hmembers hexponent)
  | @last connective q cs hq ih =>
    rw [Phrase.literals, literalsOfAll, literalsOfAll, List.append_nil] at hexponent
    intro depth n front rest hdepth _ hfront
    exact chain_stops (ih (hwell _ List.mem_cons_self) hexponent rest hdepth hfront) n
  | @cons connective q others cs gap word gap' cs' hq hgap hword hgap' hothers ihq ihothers =>
    have hqWell : q.WellFormed IsLiteral := hwell _ List.mem_cons_self
    refine cons_stops hgap hword hgap' ?_
    by_cases hlegible : q.IsLegible
    · -- The first member is read, so an exponent is in one of the others.
      have hmore : ¬NoExponent (literalsOfAll others) := fun hnone => hexponent fun x hx => by
        rw [Phrase.literals, literalsOfAll, List.mem_append] at hx
        exact hx.elim (hlegible x) (hnone x)
      exact .inr ⟨hq.isRead (fun _ hv => hv) (hqWell.readsBack hlegible),
        ihothers (fun p hp => hwell p (List.mem_cons_of_mem _ hp)) hmore⟩
    · exact .inl (ihq hqWell hlegible)

/-- A condition is legible if its text is read as any condition. -/
theorem isLegible_of_parse_text {q q' : Qualifier} (hq : q.WellFormed IsLiteral)
    (h : parse q.text.toList = .ok q') : q.IsLegible := by
  refine Classical.byContradiction fun hexponent => ?_
  have hstops : StopsAtExponent (expression (q.text.toList.length + 1) q.text.toList) := by
    simpa [Place.reader] using (hq.text_written .alone).stops hq hexponent
      [] (Nat.le_refl _) .nil
  rw [parse] at h
  obtain ⟨rest, hread, hnil⟩ := Reader.whole_eq_ok_iff.1 h
  obtain ⟨power, rfl⟩ := hstops q' rest hread
  rw [trimStart_of_not_blank (by decide)] at hnil
  cases hnil

end RankedRules.Qualifier
