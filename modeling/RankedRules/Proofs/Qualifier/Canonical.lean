/-
The canonical text of a condition determines the condition.

Conditions are compared by their texts only, so no two of them may share one. A text is not always
read back, since the readers stop in front of an exponent; but it can still be taken apart, by a
rule that takes exponents along: a token goes up to the first blank or closing parenthesis, and a
string up to its closing quote. So the text of a condition ends in one place, whatever follows it,
and no other condition has it.

* `Qualifier.token_append_inj`, `Qualifier.operand_append_inj` — a token and a right side with what
  follows them;
* `Qualifier.kindOf`, `Qualifier.WellFormed.kindOf_text` — the first characters of a text show what
  kind of condition it is of;
* `Qualifier.EndsInOnePlace` — the text of a condition with what follows it determines both,
  `Qualifier.comparing_endsInOnePlace`, `Qualifier.members_append_inj`,
  `Qualifier.text_append_inj`;
* `Qualifier.eq_of_text_eq` — conditions with one text are the same.
-/
import Mathlib.Data.List.Basic
import RankedRules.Proofs.Qualifier.Parsed

namespace RankedRules.Qualifier

open Text

variable {cs ds rest rest' : List Char}

/-! ## Tokens -/

/-- A character that does not end a word or a number. -/
def isTokenChar (c : Char) : Bool := !(isBlank c || decide (c = ')'))

theorem isTokenChar_of_delimited (h : Delimited rest) :
    ∀ c ∈ rest.head?, isTokenChar c = false := by
  intro c hc
  rcases h c hc with hblank | rfl
  · rw [isTokenChar, hblank]
    rfl
  · rfl

/-- Two tokens that are followed by what ends them are the same if the texts are. -/
theorem token_append_inj (hcs : ∀ c ∈ cs, isTokenChar c = true)
    (hds : ∀ c ∈ ds, isTokenChar c = true) (hrest : Delimited rest) (hrest' : Delimited rest')
    (h : cs ++ rest = ds ++ rest') : cs = ds ∧ rest = rest' := by
  obtain ⟨htake, hdrop⟩ := takeWhile_append_of_stop hcs (isTokenChar_of_delimited hrest)
  obtain ⟨htake', hdrop'⟩ := takeWhile_append_of_stop hds (isTokenChar_of_delimited hrest')
  constructor
  · rw [← htake, h, htake']
  · rw [← hdrop, h, hdrop']

theorem isTokenChar_of_isKeyChar {c : Char} (h : isKeyChar c = true) : isTokenChar c = true := by
  have hclosing : c ≠ ')' := by
    rintro rfl
    exact absurd h (by decide +kernel)
  rw [isTokenChar, isBlank_of_isKeyChar h, decide_eq_false hclosing]
  rfl

theorem key_isTokenChar {key : String} (h : IsKeyPath key) :
    ∀ c ∈ key.toList, isTokenChar c = true :=
  fun c hc => isTokenChar_of_isKeyChar (h.chars c hc)

theorem symbol_isTokenChar (op : Operator) : ∀ c ∈ op.symbol.toList, isTokenChar c = true := by
  cases op <;> decide

theorem number_isTokenChar (n : Number) : ∀ c ∈ n.chars, isTokenChar c = true := by
  intro c hc
  have hscientific := Number.isScientificChar_of_mem_chars hc
  simp only [Decimal.isScientificChar, Bool.or_eq_true, List.contains_eq_mem,
    decide_eq_true_eq] at hscientific
  rcases hscientific with hdigit | hsign
  · have hclosing : c ≠ ')' := by
      rintro rfl
      cases hdigit
    rw [isTokenChar, isBlank_of_isDigit hdigit, decide_eq_false hclosing]
    rfl
  · have hsigns : ∀ d ∈ ['.', '-', '+', 'e'], isTokenChar d = true := by decide
    exact hsigns c hsign

/-! ## Right sides -/

/-- The right sides that comparisons can have. -/
inductive IsOperand : Operand → Prop
  | literal {v : Value} (hv : IsLiteral v) : IsOperand (.literal v)
  | path {key : String} (hkey : IsRightKey key) : IsOperand (.path key)

/-- The text of a right side. -/
def operandChars : Operand → List Char
  | .literal v => (literal v).toList
  | .path key => key.toList

/-- What a token means on the right side of a comparison, exponents of numbers included. -/
def tokenOperand? (token : List Char) : Option Operand :=
  if token.head?.any fun c => c.isDigit || decide (c = '-') then
    (Number.ofChars? token).map fun n => .literal (.number n)
  else
    some (wordOperand (String.ofList token))

/-- A text is a token that means a right side, and it does not begin like a string. -/
structure Means (token : List Char) (o : Operand) : Prop where
  chars : ∀ c ∈ token, isTokenChar c = true
  first : ∃ c others, token = c :: others ∧ c ≠ '\''
  operand : tokenOperand? token = some o

theorem word_means (word : String) (hword : IsKeyPath word)
    (hfirst : ∀ c ∈ word.toList.head?, c.isDigit = false) :
    Means word.toList (wordOperand word) := by
  cases hlist : word.toList with
  | nil => exact absurd hlist hword.nonempty
  | cons c others =>
    have hc : isKeyChar c = true := hword.chars c (by simp [hlist])
    have hsign : ∀ d, isKeyChar d = false → c ≠ d := by
      rintro d hd rfl
      rw [hc] at hd
      cases hd
    have hdigit : c.isDigit = false := hfirst c (by rw [hlist]; rfl)
    have hminus : c ≠ '-' := hsign '-' (by decide +kernel)
    refine ⟨?_, ⟨c, others, rfl, hsign '\'' (by decide +kernel)⟩, ?_⟩
    · rw [← hlist]
      exact key_isTokenChar hword
    · have hnumber : ¬((c :: others).head?.any fun c => c.isDigit || decide (c = '-')) = true := by
        simp [hdigit, hminus]
      rw [tokenOperand?, if_neg hnumber, ← hlist, String.ofList_toList]

theorem number_means {n : Number} (hn : n.IsReadable) :
    Means n.chars (.literal (.number n)) := by
  obtain ⟨c, others, hchars, hfirst, -⟩ := n.chars_begins
  have hquote : c ≠ '\'' := fun h => not_quote_of_isDigit hfirst (.inr h)
  refine ⟨number_isTokenChar n, ⟨c, others, hchars, hquote⟩, ?_⟩
  have hnumber : (n.chars.head?.any fun c => c.isDigit || decide (c = '-')) = true := by
    rw [hchars]
    simpa using hfirst
  rw [tokenOperand?, if_pos hnumber, Number.ofChars?_chars hn]
  rfl

/-- A right side is a string, or its text is a token that means it. -/
theorem IsOperand.string_or_means {o : Operand} (h : IsOperand o) :
    (∃ s, o = .literal (.string s)) ∨ Means (operandChars o) o := by
  cases h with
  | @path key hkey =>
    have hmeans := word_means key hkey.toIsKeyPath hkey.noDigitFirst
    rw [wordOperand_of_isRightKey hkey] at hmeans
    exact .inr hmeans
  | literal hv =>
    cases hv with
    | string s => exact .inl ⟨s, rfl⟩
    | number hn =>
      have hmeans := number_means hn
      rw [← String.toList_ofList (l := Number.chars _)] at hmeans
      exact .inr hmeans
    | null => exact .inr (word_means "null" (by decide +kernel) (by decide))
    | bool holds =>
      cases holds with
      | true => exact .inr (word_means "true" (by decide +kernel) (by decide))
      | false => exact .inr (word_means "false" (by decide +kernel) (by decide))

theorem string_chars (s : String) : operandChars (.literal (.string s)) =
    '\'' :: ((s.toList.flatMap fun c =>
      if c = '\\' ∨ c = '\'' then ['\\', c] else [c]) ++ ['\'']) := by
  simp [operandChars, literal]

/-- No token is a string. -/
theorem Means.append_ne_string {o : Operand} (h : Means cs o) (s : String) :
    cs ++ rest ≠ operandChars (.literal (.string s)) ++ rest' := by
  intro heq
  obtain ⟨c, others, rfl, hquote⟩ := h.first
  rw [string_chars] at heq
  exact hquote (List.cons.inj heq).1

/-- A string is read up to its closing quote. -/
theorem string_append_inj {s s' : String}
    (h : operandChars (.literal (.string s)) ++ rest =
      operandChars (.literal (.string s')) ++ rest') : s = s' ∧ rest = rest' := by
  rw [string_chars, string_chars, List.cons_append, List.cons_append, List.append_assoc,
    List.append_assoc] at h
  have hread := quotedChars?_append rest s.toList
  have hread' := quotedChars?_append rest' s'.toList
  rw [← List.singleton_append, (List.cons.inj h).2] at hread
  obtain ⟨htext, hrests⟩ := Prod.mk.inj (Option.some.inj (hread.symm.trans hread'))
  exact ⟨String.toList_inj.1 htext, hrests⟩

/-- The text of a right side with what follows it determines both. -/
theorem operand_append_inj {o o' : Operand} (ho : IsOperand o) (ho' : IsOperand o')
    (hrest : Delimited rest) (hrest' : Delimited rest')
    (h : operandChars o ++ rest = operandChars o' ++ rest') : o = o' ∧ rest = rest' := by
  rcases ho.string_or_means with ⟨s, rfl⟩ | hmeans
  · rcases ho'.string_or_means with ⟨s', rfl⟩ | hmeans'
    · obtain ⟨rfl, hrests⟩ := string_append_inj h
      exact ⟨rfl, hrests⟩
    · exact absurd h.symm (hmeans'.append_ne_string s)
  · rcases ho'.string_or_means with ⟨s', rfl⟩ | hmeans'
    · exact absurd h (hmeans.append_ne_string s')
    · obtain ⟨htext, hrests⟩ := token_append_inj hmeans.chars hmeans'.chars hrest hrest' h
      have hsame : some o = some o' := by rw [← hmeans.operand, htext, hmeans'.operand]
      exact ⟨Option.some.inj hsame, hrests⟩

/-! ## Kinds of conditions -/

/-- The kinds of conditions that the first characters of a text tell apart. -/
inductive Kind
  | constant
  | compound
  | not
  | comparison

/-- The kind of condition that a text begins like. -/
def kindOf (cs : List Char) : Kind :=
  if cs.head? = some '*' then .constant
  else if cs.head? = some '(' then .compound
  else if ['N', 'O', 'T', ' '] <+: cs then .not
  else .comparison

/-- The kind of a condition. -/
def kind : Qualifier → Kind
  | .constant _ => .constant
  | .compound _ _ => .compound
  | .not _ => .not
  | _ => .comparison

/-- The comparison with a right side. -/
def comparing (path : String) (op : Operator) : Operand → Qualifier
  | .literal v => .compare path op v
  | .path right => .compareKeys path op right

theorem comparing_text (path : String) (op : Operator) (o : Operand) (rest : List Char) :
    (comparing path op o).text.toList ++ rest =
      path.toList ++ ' ' :: (op.symbol.toList ++ ' ' :: (operandChars o ++ rest)) := by
  cases o <;> simp [comparing, text, operandChars]

theorem not_text (inner : Qualifier) (rest : List Char) : (text (.not inner)).toList ++ rest =
    'N' :: 'O' :: 'T' :: ' ' :: (inner.text.toList ++ rest) := by
  simp [text]

theorem compound_text (connective : Connective) (members : List Qualifier) (rest : List Char) :
    (text (.compound connective members)).toList ++ rest =
      '(' :: ((join (" " ++ connective.word ++ " ") (texts members)).toList ++ ')' :: rest) := by
  simp [text]

/-- What begins with a left key and a blank is a comparison. -/
theorem kindOf_key {key : String} (h : IsLeftKey key) (rest : List Char) :
    kindOf (key.toList ++ ' ' :: rest) = .comparison := by
  have hhead : ∀ c, isKeyChar c = false → (key.toList ++ ' ' :: rest).head? ≠ some c := by
    intro c hc hhead
    have hfirst : key.toList.head? = some c := by
      rwa [List.head?_append_of_ne_nil _ h.nonempty] at hhead
    have hkey : isKeyChar c = true := h.chars c (List.mem_of_mem_head? hfirst)
    rw [hc] at hkey
    cases hkey
  have hnot : ¬['N', 'O', 'T', ' '] <+: key.toList ++ ' ' :: rest := by
    rintro ⟨behind, hbehind⟩
    have hword : ∀ c ∈ ['N', 'O', 'T'], isTokenChar c = true := by decide
    obtain ⟨hkey, -⟩ := token_append_inj hword (key_isTokenChar h.toIsKeyPath)
      (delimited_blank behind) (delimited_blank rest) hbehind
    exact h.noWord (by rw [← hkey]; decide)
  rw [kindOf, if_neg (hhead '*' (by decide +kernel)), if_neg (hhead '(' (by decide +kernel)),
    if_neg hnot]

theorem WellFormed.kindOf_text {q : Qualifier} (hq : q.WellFormed IsLiteral) (rest : List Char) :
    kindOf (q.text.toList ++ rest) = q.kind := by
  cases hq with
  | constant holds => cases holds <;> rfl
  | @compare path value op hpath hvalue =>
    show kindOf ((comparing path op (.literal value)).text.toList ++ rest) = .comparison
    rw [comparing_text]
    exact kindOf_key hpath _
  | @compareKeys left right op hleft hright =>
    show kindOf ((comparing left op (.path right)).text.toList ++ rest) = .comparison
    rw [comparing_text]
    exact kindOf_key hleft _
  | not hinner =>
    rw [not_text]
    simp [kindOf, kind]
  | compound connective hcount hmembers =>
    rw [compound_text]
    rfl

/-- The text of a condition with what follows it determines both. -/
def EndsInOnePlace (p : Qualifier) : Prop :=
  ∀ ⦃q : Qualifier⦄ ⦃rest rest' : List Char⦄, q.WellFormed IsLiteral → Delimited rest →
    Delimited rest' → p.text.toList ++ rest = q.text.toList ++ rest' → p = q ∧ rest = rest'

/-- Conditions whose texts begin alike are of one kind. -/
theorem kind_eq {p q : Qualifier} (hp : p.WellFormed IsLiteral) (hq : q.WellFormed IsLiteral)
    (h : p.text.toList ++ rest = q.text.toList ++ rest') : q.kind = p.kind := by
  rw [← hq.kindOf_text rest', ← h, hp.kindOf_text rest]

/-! ## Comparisons -/

theorem symbol_inj {op op' : Operator} (h : op.symbol.toList = op'.symbol.toList) : op = op' := by
  have htoken := op.ofToken?_symbol
  rw [String.toList_inj.1 h, op'.ofToken?_symbol] at htoken
  exact (Option.some.inj htoken).symm

/-- The text of a comparison with what follows it determines one token after the other. -/
theorem comparing_append_inj {path path' : String} {op op' : Operator} {o o' : Operand}
    (hpath : IsLeftKey path) (hpath' : IsLeftKey path') (ho : IsOperand o) (ho' : IsOperand o')
    (hrest : Delimited rest) (hrest' : Delimited rest')
    (h : (comparing path op o).text.toList ++ rest =
      (comparing path' op' o').text.toList ++ rest') :
    comparing path op o = comparing path' op' o' ∧ rest = rest' := by
  rw [comparing_text, comparing_text] at h
  obtain ⟨hpaths, h⟩ := token_append_inj (key_isTokenChar hpath.toIsKeyPath)
    (key_isTokenChar hpath'.toIsKeyPath) (delimited_blank _) (delimited_blank _) h
  obtain ⟨hops, h⟩ := token_append_inj (symbol_isTokenChar op) (symbol_isTokenChar op')
    (delimited_blank _) (delimited_blank _) (List.cons.inj h).2
  obtain ⟨rfl, hrests⟩ := operand_append_inj ho ho' hrest hrest' (List.cons.inj h).2
  rw [String.toList_inj.1 hpaths, symbol_inj hops]
  exact ⟨rfl, hrests⟩

theorem comparing_endsInOnePlace {path : String} {op : Operator} {o : Operand}
    (hpath : IsLeftKey path) (ho : IsOperand o) : (comparing path op o).EndsInOnePlace := by
  intro q rest rest' hq hrest hrest' h
  have hkind : q.kind = .comparison := by
    rw [← hq.kindOf_text rest', ← h, comparing_text, kindOf_key hpath]
  cases hq with
  | compare op' hpath' hvalue' =>
    exact comparing_append_inj hpath hpath' ho (.literal hvalue') hrest hrest' h
  | compareKeys op' hleft' hright' =>
    exact comparing_append_inj hpath hleft' ho (.path hright') hrest hrest' h
  | _ => cases hkind

/-! ## Combinations -/

/-- The texts of further members of a combination with their words, its closing parenthesis and what
follows it. -/
def membersChars (connective : Connective) (rest : List Char) : List Qualifier → List Char
  | [] => ')' :: rest
  | q :: others => ' ' :: (connective.word.toList ++ ' ' ::
      (q.text.toList ++ membersChars connective rest others))

theorem join_texts_append (connective : Connective) (q : Qualifier) (others : List Qualifier)
    (rest : List Char) :
    (join (" " ++ connective.word ++ " ") (texts (q :: others))).toList ++ ')' :: rest =
      q.text.toList ++ membersChars connective rest others := by
  induction others generalizing q with
  | nil => simp [texts, join, membersChars]
  | cons next others ih =>
    rw [membersChars, ← ih next]
    simp [texts, join]

theorem membersChars_delimited (connective : Connective) (rest : List Char)
    (members : List Qualifier) : Delimited (membersChars connective rest members) := by
  cases members with
  | nil => exact delimited_closing rest
  | cons q others => exact delimited_blank _

theorem word_append_inj {connective connective' : Connective}
    (h : connective.word.toList ++ ' ' :: rest = connective'.word.toList ++ ' ' :: rest') :
    connective = connective' ∧ rest = rest' := by
  have hword : ∀ k : Connective, ∀ c ∈ k.word.toList, isTokenChar c = true := by
    intro k
    cases k <;> decide
  obtain ⟨hwords, hrests⟩ := token_append_inj (hword connective) (hword connective')
    (delimited_blank rest) (delimited_blank rest') h
  refine ⟨?_, (List.cons.inj hrests).2⟩
  revert hwords
  cases connective <;> cases connective' <;> decide

/-- The texts of further members with what follows the combination determine all of it, and the
connective if there is such a member. -/
theorem members_append_inj {connective connective' : Connective} {members members' : List Qualifier}
    (hmembers : ∀ p ∈ members, p.EndsInOnePlace)
    (hmembers' : ∀ q ∈ members', q.WellFormed IsLiteral)
    (h : membersChars connective rest members = membersChars connective' rest' members') :
    members = members' ∧ rest = rest' ∧ (members ≠ [] → connective = connective') := by
  induction members generalizing members' with
  | nil =>
    cases members' with
    | nil => exact ⟨rfl, (List.cons.inj h).2, fun hne => absurd rfl hne⟩
    | cons q others' => exact absurd (List.cons.inj h).1 (by decide)
  | cons p others ih =>
    cases members' with
    | nil => exact absurd (List.cons.inj h).1 (by decide)
    | cons q others' =>
      -- The word comes first, so a member shows its connective even if it is the only one.
      obtain ⟨rfl, h⟩ := word_append_inj (List.cons.inj h).2
      obtain ⟨rfl, hbehind⟩ := hmembers p List.mem_cons_self (hmembers' q List.mem_cons_self)
        (membersChars_delimited connective rest others)
        (membersChars_delimited connective rest' others') h
      obtain ⟨rfl, hrests, -⟩ := ih (fun p hp => hmembers p (List.mem_cons_of_mem _ hp))
        (fun q hq => hmembers' q (List.mem_cons_of_mem _ hq)) hbehind
      exact ⟨rfl, hrests, fun _ => rfl⟩

/-- The text of a combination of several members with what follows it determines both. -/
theorem compound_append_inj {connective connective' : Connective}
    {members members' : List Qualifier}
    (hcount : 2 ≤ members.length) (hcount' : 2 ≤ members'.length)
    (hmembers : ∀ p ∈ members, p.EndsInOnePlace)
    (hmembers' : ∀ q ∈ members', q.WellFormed IsLiteral)
    (h : (text (.compound connective members)).toList ++ rest =
      (text (.compound connective' members')).toList ++ rest') :
    compound connective members = .compound connective' members' ∧ rest = rest' := by
  rw [compound_text, compound_text] at h
  match members, members', hcount, hcount' with
  | p :: next :: others, q :: next' :: others', _, _ =>
    have hall := (List.cons.inj h).2
    rw [join_texts_append, join_texts_append] at hall
    -- The first member has no word in front of it.
    obtain ⟨rfl, hbehind⟩ := hmembers p List.mem_cons_self (hmembers' q List.mem_cons_self)
      (membersChars_delimited _ rest _) (membersChars_delimited _ rest' _) hall
    obtain ⟨hothers, hrests, hconnective⟩ := members_append_inj
      (fun p hp => hmembers p (List.mem_cons_of_mem _ hp))
      (fun q hq => hmembers' q (List.mem_cons_of_mem _ hq)) hbehind
    rw [hothers, hconnective (by simp)]
    exact ⟨rfl, hrests⟩

/-! ## Conditions -/

/-- The text of a condition ends in one place, and no other condition has it. -/
theorem text_append_inj {p : Qualifier} (hp : p.WellFormed IsLiteral) : p.EndsInOnePlace := by
  induction hp with
  | constant holds =>
    intro q rest rest' hq hrest hrest' h
    have hkind : q.kind = .constant := kind_eq (.constant holds) hq h
    cases hq with
    | constant holds' =>
      -- The texts differ in their second character.
      have hsecond : holds = holds' := by
        revert h
        cases holds <;> cases holds' <;> simp [text]
      subst hsecond
      exact ⟨rfl, List.append_cancel_left h⟩
    | _ => cases hkind
  | @compare path value op hpath hvalue =>
    show (comparing path op (.literal value)).EndsInOnePlace
    exact comparing_endsInOnePlace hpath (.literal hvalue)
  | @compareKeys left right op hleft hright =>
    show (comparing left op (.path right)).EndsInOnePlace
    exact comparing_endsInOnePlace hleft (.path hright)
  | @not inner hinner ih =>
    intro q rest rest' hq hrest hrest' h
    have hkind : q.kind = .not := kind_eq (.not hinner) hq h
    cases hq with
    | not hinner' =>
      rw [not_text, not_text] at h
      obtain ⟨rfl, hrests⟩ := ih hinner' hrest hrest' (by simpa using h)
      exact ⟨rfl, hrests⟩
    | _ => cases hkind
  | @compound members connective hcount hmembers ih =>
    intro q rest rest' hq hrest hrest' h
    have hkind : q.kind = .compound := kind_eq (.compound connective hcount hmembers) hq h
    cases hq with
    | compound connective' hcount' hmembers' =>
      exact compound_append_inj hcount hcount' ih hmembers' h
    | _ => cases hkind

/-- Conditions that are written with one text are the same. -/
theorem eq_of_text_eq {p q : Qualifier} (hp : p.WellFormed IsLiteral) (hq : q.WellFormed IsLiteral)
    (h : p.text = q.text) : p = q := by
  exact (text_append_inj hp hq delimited_nil delimited_nil (by rw [h])).1

end RankedRules.Qualifier
