/-
What the qualifier parser takes from a text.

Each reader takes a front of the text, and the front closes every quote that it opens. Outside of
quotes there is no semicolon in it, since no token but a string contains one. The number of
characters that are taken is kept along, for the shortest qualifier there is.

* `Qualifier.Takes` — a front of a text is taken, of a least length;
* `Qualifier.keyPath_takes`, `Qualifier.operator_takes`, `Qualifier.operand_takes` — the tokens;
* `Qualifier.unescaped`, `Qualifier.exists_raw` — what stands between the quotes of a string, and how
  it is read;
* `Qualifier.expression_takes` — the combinations;
* `Qualifier.settled_of_parse` — a qualifier as a whole.
-/
import RankedRules.Proofs.Qualifier.Parsed
import RankedRules.Proofs.Text.Settled

namespace RankedRules.Qualifier

open Scan Text

/-- A front of `cs` with at least so many characters is taken, and `rest` is left: the front closes
its quotes, and contains no semicolon outside of them. -/
def Takes (least : Nat) (cs rest : List Char) : Prop :=
  ∃ front, cs = front ++ rest ∧ Settled false ';' 0 front ∧ least ≤ front.length

namespace Takes

variable {m n : Nat} {cs cs' rest : List Char}

theorem trans (h : Takes m cs cs') (h' : Takes n cs' rest) : Takes (m + n) cs rest := by
  obtain ⟨front, rfl, hfront, hm⟩ := h
  obtain ⟨front', rfl, hfront', hn⟩ := h'
  refine ⟨front ++ front', by rw [List.append_assoc], hfront.append hfront', ?_⟩
  rw [List.length_append]
  omega

theorem mono (h : Takes n cs rest) (hm : m ≤ n) : Takes m cs rest := by
  obtain ⟨front, hcs, hfront, hn⟩ := h
  exact ⟨front, hcs, hfront, by omega⟩

theorem length_lt (h : Takes n cs rest) (hn : 0 < n) : rest.length < cs.length := by
  obtain ⟨front, rfl, -, hfront⟩ := h
  rw [List.length_append]
  omega

theorem blanks (cs : List Char) : Takes 0 cs (trimStart cs) := by
  obtain ⟨front, hfront, hcs⟩ := exists_trimStart cs
  exact ⟨front, hcs, .of_blanks (by decide) hfront, Nat.zero_le _⟩

end Takes

/-! ## Tokens -/

/-- A class of characters to which neither the quotes nor `n` belong. -/
theorem settled_of_class {n : Char} {p : Char → Bool} (hp : ∀ d ∈ ['"', '\'', n], p d = false)
    {front : List Char} (h : ∀ c ∈ front, p c = true) : Settled false n 0 front := by
  refine .of_plain fun c hc => ?_
  have hne : ∀ d ∈ ['"', '\'', n], c ≠ d := by
    rintro d hd rfl
    have hfalse := hp c hd
    rw [h c hc] at hfalse
    cases hfalse
  obtain ⟨hdouble, hsingle, hn, -⟩ := by simpa only [List.forall_mem_cons] using hne
  refine ⟨⟨?_, rfl, rfl⟩, .inl hn.symm⟩
  rw [isQuote, decide_eq_false hdouble, decide_eq_false hsingle]
  rfl

theorem keyPath_takes {cs rest : List Char} {key : String} (h : keyPath cs = .ok (key, rest)) :
    Takes 1 cs rest := by
  obtain ⟨hkey, htrim, -⟩ := keyPath_ok h
  have hfront : Takes 1 (trimStart cs) rest :=
    ⟨key.toList, htrim, settled_of_class (by decide +kernel) hkey.chars,
      List.length_pos_iff.2 hkey.nonempty⟩
  exact (Takes.blanks cs).trans hfront

/-- The characters that an operator can be made of: one or two signs, or letters and colons. -/
def operatorToken (cs : List Char) : List Char :=
  match (cs.takeWhile isOperatorSign).take 2 with
  | [] => cs.takeWhile fun c => c.isAlpha || c = ':'
  | signs => signs

theorem operator_eq (cs : List Char) :
    operator cs = match Operator.ofToken? (String.ofList (operatorToken (trimStart cs))) with
      | some op => .ok (op, (trimStart cs).drop (operatorToken (trimStart cs)).length)
      | none => .error ⟨.expectedOperator, trimStart cs⟩ := rfl

theorem operatorToken_isPrefix (cs : List Char) : operatorToken cs <+: cs := by
  rw [operatorToken]
  split
  · exact List.takeWhile_prefix _
  · exact (List.take_prefix _ _).trans (List.takeWhile_prefix _)

theorem operatorToken_class (cs : List Char) :
    ∀ c ∈ operatorToken cs, (isOperatorSign c || (c.isAlpha || c = ':')) = true := by
  intro c hc
  rw [operatorToken] at hc
  split at hc
  · rw [List.all_eq_true.1 List.all_takeWhile c hc, Bool.or_true]
  · rw [List.all_eq_true.1 List.all_takeWhile c (List.mem_of_mem_take hc), Bool.true_or]

/-- No characters are no operator. -/
theorem operatorToken_ne_nil {cs : List Char} {op : Operator}
    (h : Operator.ofToken? (String.ofList (operatorToken cs)) = some op) :
    operatorToken cs ≠ [] := by
  intro hnil
  have hnone : Operator.ofToken? (String.ofList []) = none := by decide
  rw [hnil, hnone] at h
  cases h

theorem operator_takes {cs rest : List Char} {op : Operator} (h : operator cs = .ok (op, rest)) :
    Takes 1 cs rest := by
  have hprefix := List.prefix_iff_eq_append.1 (operatorToken_isPrefix (trimStart cs))
  rw [operator_eq] at h
  split at h
  · rename_i hop
    cases h
    have htoken : Takes 1 (trimStart cs)
        ((trimStart cs).drop (operatorToken (trimStart cs)).length) :=
      ⟨operatorToken (trimStart cs), hprefix.symm,
        settled_of_class (by decide) (operatorToken_class _),
        List.length_pos_iff.2 (operatorToken_ne_nil hop)⟩
    exact (Takes.blanks cs).trans htoken
  · cases h

/-- A quoted string is taken up to the quote that closes it. -/
theorem quotedChars?_eq_some {quote : Char} {cs chars rest : List Char}
    (h : quotedChars? quote cs = some (chars, rest)) :
    ∃ tail, cs = tail ++ rest ∧ QuotedTail quote tail := by
  induction cs using quotedChars?.induct quote generalizing chars with
  | case1 => cases h
  | case2 => cases h
  | case3 c cs ih =>
    rw [quotedChars?] at h
    obtain ⟨⟨chars', rest'⟩, hread, heq⟩ := Option.map_eq_some_iff.1 h
    cases heq
    obtain ⟨tail, rfl, htail⟩ := ih hread
    exact ⟨'\\' :: c :: tail, rfl, .escaped c htail⟩
  | case4 cs h1 h2 =>
    rw [quotedChars?, if_pos rfl] at h
    · cases h
      exact ⟨[quote], rfl, .close⟩
    · exact h1
    · exact h2
  | case5 c cs h1 h2 hne ih =>
    rw [quotedChars?, if_neg hne] at h
    · obtain ⟨⟨chars', rest'⟩, hread, heq⟩ := Option.map_eq_some_iff.1 h
      cases heq
      obtain ⟨tail, rfl, htail⟩ := ih hread
      refine ⟨c :: tail, rfl, .plain ?_ hne htail⟩
      rintro rfl
      cases tail with
      | nil => cases htail
      | cons d tail => exact h2 d (tail ++ rest) rfl rfl
    · exact h1
    · exact h2

/-- A text without its escapes: a backslash keeps the character behind it as it is. -/
def unescaped : List Char → List Char
  | [] => []
  | '\\' :: [] => []
  | '\\' :: c :: rest => c :: unescaped rest
  | c :: rest => c :: unescaped rest

theorem unescaped_cons {c : Char} (hc : c ≠ '\\') (cs : List Char) :
    unescaped (c :: cs) = c :: unescaped cs := by
  rw [unescaped]
  · rintro rfl
    exact absurd rfl hc
  · rintro _ _ rfl
    exact absurd rfl hc

theorem quotedChars?_cons {c : Char} (hc : c ≠ '\\') (quote : Char) (cs : List Char) :
    quotedChars? quote (c :: cs) = if c = quote then some ([], cs) else
      (quotedChars? quote cs).map fun (chars, rest) => (c :: chars, rest) := by
  rw [quotedChars?]
  · rintro rfl
    exact absurd rfl hc
  · rintro _ _ rfl
    exact absurd rfl hc

theorem ne_slash_of_quote {quote : Char} (h : quote = '"' ∨ quote = '\'') : quote ≠ '\\' := by
  rcases h with rfl | rfl <;> decide

/-- What stands between the quotes is read without its escapes, whatever follows. -/
theorem quotedChars?_of_quotedTail {quote : Char} (hquote : quote ≠ '\\') {tail : List Char}
    (h : QuotedTail quote tail) : ∃ raw, tail = raw ++ [quote] ∧
      ∀ rest, quotedChars? quote (tail ++ rest) = some (unescaped raw, rest) := by
  induction h with
  | close =>
    refine ⟨[], rfl, fun rest => ?_⟩
    rw [List.cons_append, quotedChars?_cons hquote, if_pos rfl]
    rfl
  | escaped c hcs ih =>
    obtain ⟨raw, rfl, hread⟩ := ih
    refine ⟨'\\' :: c :: raw, rfl, fun rest => ?_⟩
    rw [List.cons_append, List.cons_append, quotedChars?, hread, unescaped]
    rfl
  | @plain c cs hslash hne hcs ih =>
    obtain ⟨raw, rfl, hread⟩ := ih
    refine ⟨c :: raw, rfl, fun rest => ?_⟩
    rw [List.cons_append, quotedChars?_cons hslash, if_neg hne, hread, unescaped_cons hslash]
    rfl

/-- A quoted string goes up to its closing quote, and is read without its escapes. -/
theorem exists_raw {quote : Char} (hquote : quote ≠ '\\') {cs chars rest : List Char}
    (h : quotedChars? quote cs = some (chars, rest)) :
    ∃ raw, cs = raw ++ quote :: rest ∧ chars = unescaped raw ∧
      ∀ s, quotedChars? quote (raw ++ quote :: s) = some (chars, s) := by
  obtain ⟨tail, rfl, htail⟩ := quotedChars?_eq_some h
  obtain ⟨raw, rfl, hread⟩ := quotedChars?_of_quotedTail hquote htail
  rw [hread] at h
  cases h
  exact ⟨raw, by simp, rfl, fun s => by simpa using hread s⟩

/-- A number is a front of the text, made of digits and points behind a minus sign or not. -/
theorem numberChars_begins (cs : List Char) : numberChars cs <+: cs ∧
    ∀ c ∈ numberChars cs, (c.isDigit || c = '.' || c = '-') = true := by
  have hclass : ∀ rest : List Char, ∀ c ∈ rest.takeWhile fun c => c.isDigit || c = '.',
      (c.isDigit || c = '.' || c = '-') = true := fun rest c hc => by
    rw [List.all_eq_true.1 List.all_takeWhile c hc, Bool.true_or]
  rw [numberChars.eq_def]
  split
  · rename_i rest
    refine ⟨List.cons_prefix_cons.2 ⟨rfl, List.takeWhile_prefix _⟩, ?_⟩
    exact List.forall_mem_cons.2 ⟨by decide, hclass rest⟩
  · exact ⟨List.takeWhile_prefix _, hclass _⟩

theorem operand_takes {cs rest : List Char} {right : Operand} (h : operand cs = .ok (right, rest)) :
    Takes 0 cs rest := by
  refine (Takes.blanks cs).trans (n := 0) ?_
  simp only [operand] at h
  generalize trimStart cs = cs at h ⊢
  split at h
  · cases h
  · rename_i c cs
    split at h
    · rename_i hquote
      split at h
      · rename_i hread
        cases h
        obtain ⟨tail, rfl, htail⟩ := quotedChars?_eq_some hread
        have hc : isQuote c = true := by simpa [isQuote] using hquote
        exact ⟨c :: tail, rfl, .quoted hc htail, Nat.zero_le _⟩
      · cases h
    · split at h
      · split at h
        · cases h
          obtain ⟨hfront, hclass⟩ := numberChars_begins (c :: cs)
          exact ⟨_, (List.prefix_iff_eq_append.1 hfront).symm, settled_of_class (by decide) hclass,
            Nat.zero_le _⟩
        · cases h
      · obtain ⟨⟨key, behind⟩, hread, h⟩ := bind_eq_ok_iff.1 h
        cases h
        exact (keyPath_takes hread).mono (Nat.zero_le _)

/-- A word is a front of the text, up to the case of its letters. -/
theorem afterWord?_eq_some {word cs rest : List Char} (h : afterWord? word cs = some rest) :
    ∃ front, cs = front ++ rest ∧ front.map Char.toUpper = word := by
  induction word generalizing cs with
  | nil =>
    rw [afterWord?] at h
    split at h
    · cases h
    · cases h
      exact ⟨[], rfl, rfl⟩
  | cons w word ih =>
    cases cs with
    | nil => cases h
    | cons c cs =>
      rw [afterWord?] at h
      split at h
      · rename_i hc
        obtain ⟨front, rfl, hword⟩ := ih h
        exact ⟨c :: front, rfl, by rw [List.map_cons, hc, hword]⟩
      · cases h

theorem keyword?_takes {word : String}
    (hword : ∀ d ∈ ['"', '\'', ';'], word.toList.contains d.toUpper = false)
    {cs rest : List Char} (h : keyword? word cs = some rest) : Takes 0 cs rest := by
  obtain ⟨front, hcs, hfront⟩ := afterWord?_eq_some h
  have hclass : ∀ c ∈ front, word.toList.contains c.toUpper = true := fun c hc => by
    rw [← hfront, List.contains_iff_mem]
    exact List.mem_map_of_mem hc
  exact (Takes.blanks cs).trans ⟨front, hcs, settled_of_class hword hclass, Nat.zero_le _⟩

/-! ## Conditions and combinations -/

theorem comparison_takes {cs rest : List Char} {q : Qualifier} (h : comparison cs = .ok (q, rest)) :
    Takes 2 cs rest := by
  obtain ⟨⟨left, behindLeft⟩, hleft, h⟩ := bind_eq_ok_iff.1 h
  obtain ⟨⟨op, behindOp⟩, hop, h⟩ := bind_eq_ok_iff.1 h
  obtain ⟨⟨right, behindRight⟩, hright, h⟩ := bind_eq_ok_iff.1 h
  have hall := ((keyPath_takes hleft).trans (operator_takes hop)).trans (operand_takes hright)
  cases right <;> (cases h; exact hall)

theorem after?_eq_some {word : String} {cs rest : List Char} (h : after? word cs = some rest) :
    cs = word.toList ++ rest := by
  rw [after?] at h
  split at h
  · rename_i hprefix
    cases h
    rw [← String.length_toList]
    exact (List.prefix_iff_eq_append.1 (List.isPrefixOf_iff_prefix.1 hprefix)).symm
  · cases h

theorem after?_takes {front : String} (hfront : ∀ c ∈ front.toList, c ∉ ['"', '\'', ';'])
    {cs rest : List Char} (h : after? front cs = some rest) : Takes front.length cs rest := by
  have hclass : ∀ c ∈ front.toList, (['"', '\'', ';'].contains c == false) = true := by
    simpa using hfront
  exact ⟨front.toList, after?_eq_some h, settled_of_class (by decide) hclass, Nat.le_refl _⟩

/-- A condition is at least two characters long. -/
theorem primary_takes {nested : Reader Cause Qualifier}
    (hnested : ∀ cs q rest, nested cs = .ok (q, rest) → Takes 0 cs rest) {cs rest : List Char}
    {q : Qualifier} (h : primary nested cs = .ok (q, rest)) : Takes 2 cs rest := by
  have hsign : ∀ c : Char, c ∉ ['"', '\'', ';'] → ∀ cs, Takes 1 (c :: cs) cs := fun c hc cs => by
    have hclass : ∀ d ∈ [c], (['"', '\'', ';'].contains d == false) = true := by
      simpa using hc
    exact ⟨[c], rfl, settled_of_class (by decide) hclass, Nat.le_refl _⟩
  refine (Takes.blanks cs).trans (n := 2) ?_
  rw [primary] at h
  split at h
  · rename_i inner hcs
    rw [hcs]
    obtain ⟨⟨q', behind⟩, hread, h⟩ := bind_eq_ok_iff.1 h
    dsimp only at h
    split at h
    · rename_i closing hbehind
      cases h
      have hinner := (hnested _ _ _ hread).trans (Takes.blanks behind)
      rw [hbehind] at hinner
      exact ((hsign '(' (by decide) inner).trans hinner).trans (hsign ')' (by decide) _)
    · cases h
  · split at h
    · rename_i htrue
      cases h
      exact (after?_takes (by decide) htrue).mono (by decide)
    · rename_i hfalse
      cases h
      exact (after?_takes (by decide) hfalse).mono (by decide)
    · exact comparison_takes h

theorem negation_takes {item : Reader Cause Qualifier} {least : Nat}
    (hitem : ∀ cs q rest, item cs = .ok (q, rest) → Takes least cs rest) {n : Nat}
    {cs rest : List Char} {q : Qualifier} (h : negation item n cs = .ok (q, rest)) :
    Takes least cs rest := by
  induction n generalizing cs q with
  | zero => exact hitem _ _ _ h
  | succ n ih =>
    rw [negation] at h
    split at h
    · rename_i behind hword
      obtain ⟨⟨inner, behind'⟩, hread, h⟩ := bind_eq_ok_iff.1 h
      cases h
      exact ((keyword?_takes (by decide) hword).trans (ih hread)).mono (by omega)
    · exact hitem _ _ _ h

theorem chain_takes {connective : Connective} {item : Reader Cause Qualifier} {least : Nat}
    (hitem : ∀ cs q rest, item cs = .ok (q, rest) → Takes least cs rest) {n : Nat}
    {cs rest : List Char} {members : List Qualifier}
    (h : chain connective.word item n cs = .ok (members, rest)) : Takes least cs rest := by
  induction n generalizing cs members with
  | zero =>
    obtain ⟨⟨last, behind⟩, hread, h⟩ := bind_eq_ok_iff.1 h
    cases h
    exact hitem _ _ _ hread
  | succ n ih =>
    obtain ⟨⟨first, behind⟩, hread, h⟩ := bind_eq_ok_iff.1 h
    dsimp only at h
    split at h
    · rename_i behindWord hword
      obtain ⟨⟨others, behind'⟩, hothers, h⟩ := bind_eq_ok_iff.1 h
      cases h
      have hkeyword := keyword?_takes (by cases connective <;> decide) hword
      exact (((hitem _ _ _ hread).trans hkeyword).trans (ih hothers)).mono (by omega)
    · cases h
      exact hitem _ _ _ hread

theorem combination_takes {connective : Connective} {item : Reader Cause Qualifier} {least : Nat}
    (hitem : ∀ cs q rest, item cs = .ok (q, rest) → Takes least cs rest) {cs rest : List Char}
    {q : Qualifier} (h : combination connective item cs = .ok (q, rest)) : Takes least cs rest := by
  obtain ⟨⟨members, behind⟩, hread, h⟩ := bind_eq_ok_iff.1 h
  cases h
  exact chain_takes hitem hread

theorem item_takes {depth : Nat}
    (hnested : ∀ cs q rest, expression depth cs = .ok (q, rest) → Takes 0 cs rest)
    {cs rest : List Char} {q : Qualifier} (h : item depth cs = .ok (q, rest)) : Takes 2 cs rest :=
  negation_takes (fun _ _ _ hread => primary_takes hnested hread) h

theorem expression_takes {depth : Nat} {cs rest : List Char} {q : Qualifier}
    (h : expression depth cs = .ok (q, rest)) : Takes 2 cs rest := by
  induction depth generalizing cs q rest with
  | zero => cases h
  | succ depth ih =>
    rw [expression_succ] at h
    have hnested : ∀ cs q rest, expression depth cs = .ok (q, rest) → Takes 0 cs rest :=
      fun _ _ _ hread => (ih hread).mono (Nat.zero_le _)
    refine combination_takes (fun _ _ _ hread => ?_) h
    exact combination_takes (fun _ _ _ hread => item_takes hnested hread) hread

/-- A text that is read as a qualifier closes its quotes, contains no semicolon outside of them, and
is at least two characters long. -/
theorem settled_of_parse {cs : List Char} {q : Qualifier} (h : parse cs = .ok q) :
    Settled false ';' 0 cs ∧ 2 ≤ cs.length := by
  obtain ⟨rest, hread, hrest⟩ := Reader.whole_eq_ok_iff.1 h
  have hall := (expression_takes hread).trans (Takes.blanks rest)
  rw [hrest] at hall
  obtain ⟨front, hcs, hsettled, hlength⟩ := hall
  rw [List.append_nil] at hcs
  subst hcs
  exact ⟨hsettled, hlength⟩

end RankedRules.Qualifier
