/-
The bounds of the reader of property lists.

Every item, member and nested value takes at least one character, so bounds that are greater than
the length of the text are never reached, and it does not matter which of them is given. Nor do
blanks behind a text matter: with them, a reader reads the same, and leaves them.

* `PropertyList.items_congr`, `PropertyList.members_congr`, `PropertyList.value_congr` — all bounds
  beyond the length of the text are the same;
* `PropertyList.value_blanks` — a value is read without the blanks behind it;
* `PropertyList.parse_blanks` — and so is a whole property list.
-/
import RankedRules.Proofs.PropertyList.Comments

namespace RankedRules.PropertyList

open Scan Text

/-! ## Lists and objects step by step -/

variable {item : Reader Cause Value} {n : Nat} {cs rest : List Char}

theorem items_closed (h : skip cs = ')' :: rest) : items item (n + 1) cs = .ok ([], rest) := by
  rw [items, h]
  rfl

theorem items_open (h : ∀ rest, skip cs ≠ ')' :: rest) : items item (n + 1) cs = (do
    let (v, rest) ← item (skip cs)
    match skip rest with
    | ',' :: rest => do
      let (vs, rest) ← items item n rest
      .ok (v :: vs, rest)
    | ')' :: rest => .ok ([v], rest)
    | rest => .error ⟨.arraySeparator, rest⟩) := by
  rw [items]
  split
  · rename_i heq
    exact absurd heq (h _)
  · rfl

theorem members_closed (h : skip cs = '\x7d' :: rest) :
    members item (n + 1) cs = .ok ([], rest) := by
  rw [members, h]
  rfl

theorem members_open (h : ∀ rest, skip cs ≠ '\x7d' :: rest) : members item (n + 1) cs = (do
    let (s, rest) ← name (skip cs)
    let (v, rest) ← item (← expect '=' rest)
    match skip rest with
    | ';' :: rest => do
      let (pairs, rest) ← members item n rest
      .ok ((s, v) :: pairs, rest)
    | '\x7d' :: rest => .ok ([(s, v)], rest)
    | rest => .error ⟨.dictionarySeparator, rest⟩) := by
  rw [members]
  split
  · rename_i heq
    exact absurd heq (h _)
  · rfl

/-! ## Bounds -/

/-- A reader that takes at least one character. -/
def IsStrict (item : Reader Cause Value) : Prop :=
  ∀ cs v rest, item cs = .ok (v, rest) → rest.length < cs.length

theorem value_isStrict (fuel : Nat) : IsStrict (value fuel) := fun _ _ _ h =>
  (value_takes h 0).length_le

theorem length_skip_le (cs : List Char) : (skip cs).length ≤ cs.length :=
  (skip_takes cs 0).length_le

theorem items_congr {item item' : Reader Cause Value} (hstrict : IsStrict item) {m n : Nat}
    {cs : List Char} (hitem : ∀ ds, ds.length ≤ cs.length → item ds = item' ds)
    (hm : cs.length < m) (hn : cs.length < n) : items item m cs = items item' n cs := by
  induction m generalizing n cs with
  | zero => omega
  | succ m ih =>
    obtain ⟨n, rfl⟩ : ∃ k, n = k + 1 := ⟨n - 1, by omega⟩
    have hlength := length_skip_le cs
    rw [items, items]
    split
    · rfl
    · rw [← hitem _ hlength]
      cases hfound : item (skip cs) with
      | error fault => rfl
      | ok found =>
        obtain ⟨v, behind⟩ := found
        have hbehind := hstrict _ _ _ hfound
        have hrest := length_skip_le behind
        simp only [bind, Except.bind]
        split
        · rename_i rest heq
          rw [heq, List.length_cons] at hrest
          have hothers : items item m rest = items item' n rest :=
            ih (fun ds hds => hitem ds (by omega)) (by omega) (by omega)
          rw [hothers]
        · rfl
        · rfl

theorem members_congr {item item' : Reader Cause Value} (hstrict : IsStrict item) {m n : Nat}
    {cs : List Char} (hitem : ∀ ds, ds.length ≤ cs.length → item ds = item' ds)
    (hm : cs.length < m) (hn : cs.length < n) : members item m cs = members item' n cs := by
  induction m generalizing n cs with
  | zero => omega
  | succ m ih =>
    obtain ⟨n, rfl⟩ : ∃ k, n = k + 1 := ⟨n - 1, by omega⟩
    have hlength := length_skip_le cs
    rw [members, members]
    split
    · rfl
    · cases hname : name (skip cs) with
      | error fault => rfl
      | ok named =>
        obtain ⟨s, behindName⟩ := named
        have hbehindName := (name_takes hname 0).length_le
        simp only [bind, Except.bind]
        cases hequals : expect '=' behindName with
        | error fault => rfl
        | ok behindSign =>
          have hbehindSign := (expect_takes (by decide) hequals 0).length_le
          dsimp only
          rw [← hitem behindSign (by omega)]
          cases hfound : item behindSign with
          | error fault => rfl
          | ok found =>
            obtain ⟨v, behind⟩ := found
            have hbehind := hstrict _ _ _ hfound
            have hrest := length_skip_le behind
            dsimp only
            split
            · rename_i rest heq
              rw [heq, List.length_cons] at hrest
              have hothers : members item m rest = members item' n rest :=
                ih (fun ds hds => hitem ds (by omega)) (by omega) (by omega)
              rw [hothers]
            · rfl
            · rfl

/-- Bounds of the depth beyond the length of the text are the same. -/
theorem value_congr {m n : Nat} {cs : List Char} (hm : cs.length < m) (hn : cs.length < n) :
    value m cs = value n cs := by
  induction m generalizing n cs with
  | zero => omega
  | succ m ih =>
    obtain ⟨n, rfl⟩ : ∃ k, n = k + 1 := ⟨n - 1, by omega⟩
    have hlength := length_skip_le cs
    rw [value, value]
    split
    · rfl
    · rename_i c rest heq
      rw [heq, List.length_cons] at hlength
      have hitem : ∀ ds : List Char, ds.length ≤ rest.length → value m ds = value n ds :=
        fun ds hds => ih (by omega) (by omega)
      rw [members_congr (value_isStrict m) hitem (Nat.lt_succ_self _) (Nat.lt_succ_self _),
        items_congr (value_isStrict m) hitem (Nat.lt_succ_self _) (Nat.lt_succ_self _)]

/-! ## Blanks behind a text -/

/-- What is left of a text with something behind it, where nothing is left of nothing. -/
def extend (behind : List Char) : List Char → List Char
  | [] => []
  | c :: rest => c :: (rest ++ behind)

theorem exists_of_extend {behind cs rest : List Char} {c : Char}
    (h : extend behind cs = c :: rest) : ∃ others, cs = c :: others ∧ rest = others ++ behind := by
  cases cs with
  | nil => cases h
  | cons d others =>
    cases h
    exact ⟨others, rfl, rfl⟩

theorem skip_of_blanks {blanks : List Char} (h : Blanks blanks) :
    skip blanks = [] ∧ skipLine blanks = [] ∧ skipBlock blanks = [] := by
  induction blanks with
  | nil => exact ⟨rfl, rfl, rfl⟩
  | cons c blanks ih =>
    have hc : isBlank c = true := h c List.mem_cons_self
    obtain ⟨hskip, hline, hblock⟩ := ih fun d hd => h d (List.mem_cons_of_mem c hd)
    refine ⟨?_, ?_, ?_⟩
    · rw [skip_of_isBlank hc, hskip]
    · rw [skipLine.eq_def]
      split
      · rename_i heq
        rw [← (List.cons.inj heq).2, hskip]
      · rename_i heq
        rw [← (List.cons.inj heq).2, hline]
      · rfl
    · rw [skipBlock, hblock]
      exact fun behind hstar => absurd hstar (ne_of_isBlank hc (by decide))

/-- Where two signs stand that are no blanks, they stood before the blanks. -/
theorem exists_of_append_blanks {blanks : List Char} (h : Blanks blanks) {rest behind : List Char}
    {c : Char} (hc : isBlank c = false) (heq : rest ++ blanks = c :: behind) :
    ∃ others, rest = c :: others := by
  cases rest with
  | nil =>
    have hblank := h c (by rw [← List.nil_append blanks, heq]; exact List.mem_cons_self)
    rw [hc] at hblank
    cases hblank
  | cons d others =>
    rw [(List.cons.inj heq).1]
    exact ⟨others, rfl⟩

/-- Blanks behind a text are left as they are, if anything else is left. -/
theorem skips_append {blanks : List Char} (hblanks : Blanks blanks) :
    (∀ cs, skip (cs ++ blanks) = extend blanks (skip cs)) ∧
      (∀ cs, skipBlock (cs ++ blanks) = extend blanks (skipBlock cs)) ∧
      ∀ cs, skipLine (cs ++ blanks) = extend blanks (skipLine cs) := by
  obtain ⟨hskip, hline, hblock⟩ := skip_of_blanks hblanks
  refine skip.mutual_induct _ _ _ ?line ?block ?blank ?token ?done ?blockEnd ?blockMore ?blockDone
    ?lineEnd ?lineMore ?lineDone
  case line => exact fun rest h => h
  case block => exact fun rest h => h
  case blank =>
    intro c rest _ _ hc h
    rw [List.cons_append, skip_of_isBlank hc, skip_of_isBlank hc, h]
  case token =>
    intro c rest hline hblock hc
    rw [List.cons_append, skip_cons hline hblock, if_neg hc, skip_cons, if_neg hc]
    · rfl
    · intro behind hc heq
      obtain ⟨others, rfl⟩ := exists_of_append_blanks hblanks (by decide) heq
      exact hline others hc rfl
    · intro behind hc heq
      obtain ⟨others, rfl⟩ := exists_of_append_blanks hblanks (by decide) heq
      exact hblock others hc rfl
  case blockEnd => exact fun rest h => h
  case blockMore =>
    intro c rest hc h
    rw [List.cons_append, skipBlock, skipBlock, h]
    · exact hc
    · intro behind hstar heq
      obtain ⟨others, rfl⟩ := exists_of_append_blanks hblanks (by decide) heq
      exact hc others hstar rfl
  case lineEnd => exact fun rest h => h
  case lineMore =>
    intro c rest hc h
    rw [List.cons_append, skipLine, skipLine, h]
    · exact hc
    · exact hc
  case done => exact hskip
  case blockDone => exact hblock
  case lineDone => exact hline

theorem skip_append {blanks : List Char} (hblanks : Blanks blanks) (cs : List Char) :
    skip (cs ++ blanks) = extend blanks (skip cs) :=
  (skips_append hblanks).1 cs

/-- A quoted text is the same, whatever stands behind it, and it ends with its quote. -/
theorem quotedChars_of_tail {quote : Char} (hquote : isQuote quote = true) {tail : List Char}
    (h : QuotedTail quote tail) : tail.getLast? = some quote ∧
      ∃ chars, ∀ rest, quotedChars quote (tail ++ rest) = .ok (chars, rest) := by
  have hslash : quote ≠ '\\' := by
    rintro rfl
    cases hquote
  induction h with
  | close =>
    refine ⟨rfl, [], fun rest => ?_⟩
    rw [List.singleton_append, quotedChars, if_pos rfl]
    · exact fun h _ => hslash h
    · exact fun c behind h _ => hslash h
  | @escaped c cs _ ih =>
    obtain ⟨hlast, chars, hread⟩ := ih
    refine ⟨by simp [List.getLast?_cons, hlast], unescape c :: chars, fun rest => ?_⟩
    simp [quotedChars, hread, bind, Except.bind]
  | @plain c cs hc hne _ ih =>
    obtain ⟨hlast, chars, hread⟩ := ih
    refine ⟨by simp [List.getLast?_cons, hlast], c :: chars, fun rest => ?_⟩
    rw [List.cons_append, quotedChars, if_neg hne, hread]
    · rfl
    · exact fun h _ => hc h
    · exact fun d behind h _ => hc h

/-- A reader that reads the same without the blanks behind a text. -/
def IgnoresBlanks {α : Type} (read : Reader Cause α) : Prop :=
  ∀ blanks, Blanks blanks → ∀ cs a left, read (cs ++ blanks) = .ok (a, left) →
    ∃ rest, left = rest ++ blanks ∧ read cs = .ok (a, rest)

theorem quoted_blanks {quote : Char} (hquote : isQuote quote = true) :
    IgnoresBlanks (quoted quote) := by
  intro blanks hblanks cs s left h
  obtain ⟨⟨chars, behind⟩, hfound, h⟩ := bind_eq_ok_iff.1 h
  cases h
  obtain ⟨tail, hsplit, htail⟩ := quotedChars_ok hfound
  obtain ⟨hlast, chars', hread⟩ := quotedChars_of_tail hquote htail
  rw [hsplit, hread] at hfound
  cases hfound
  obtain ⟨rest, rfl, rfl⟩ : ∃ rest, cs = tail ++ rest ∧ left = rest ++ blanks := by
    rcases List.append_eq_append_iff.1 hsplit with ⟨more, rfl, rfl⟩ | hrest
    · cases hmore : more.getLast? with
      | none =>
        rw [List.getLast?_eq_none_iff.1 hmore]
        exact ⟨[], by simp, rfl⟩
      | some c =>
        -- The closing quote would be one of the blanks.
        rw [List.getLast?_append, hmore, Option.some_or] at hlast
        cases hlast
        have hplain : IsPlain true quote :=
          isPlain_of_isBlank (hblanks quote (List.mem_append_left _ (List.mem_of_getLast? hmore)))
        rw [IsPlain, hquote] at hplain
        cases hplain.1
    · exact hrest
  refine ⟨rest, rfl, ?_⟩
  rw [quoted, hread]
  rfl

theorem word_blanks : IgnoresBlanks word := by
  intro blanks hblanks cs chars left h
  have hall : ∀ c ∈ cs.takeWhile isWordChar, isWordChar c = true := fun c hc =>
    List.all_eq_true.1 List.all_takeWhile c hc
  have hstop : ∀ c ∈ (cs.dropWhile isWordChar ++ blanks).head?, isWordChar c = false := by
    intro c hc
    rw [List.head?_append] at hc
    have hnot := List.head?_dropWhile_not isWordChar cs
    cases hrest : (cs.dropWhile isWordChar).head? with
    | none =>
      rw [hrest, Option.none_or] at hc
      rw [isWordChar, hblanks c (List.mem_of_mem_head? hc)]
      rfl
    | some d =>
      rw [hrest, Option.some_or] at hc
      cases hc
      rwa [hrest] at hnot
  obtain ⟨htake, hdrop⟩ := takeWhile_append_of_stop hall hstop
  rw [← List.append_assoc, List.takeWhile_append_dropWhile] at htake hdrop
  rw [word, htake, hdrop] at h
  split at h
  · cases h
  · rename_i hne
    cases h
    refine ⟨_, rfl, ?_⟩
    rw [word]
    split
    · exact absurd ‹_› hne
    · rfl

theorem name_blanks {blanks : List Char} (hblanks : Blanks blanks) {cs left : List Char}
    {s : String} (h : name (extend blanks cs) = .ok (s, left)) :
    ∃ rest, left = rest ++ blanks ∧ name cs = .ok (s, rest) := by
  cases cs with
  | nil => cases h
  | cons c cs =>
    rw [extend, name] at h
    rw [name]
    split at h
    · rename_i hquote
      rw [if_pos hquote]
      exact quoted_blanks (by simpa [isQuote] using hquote) blanks hblanks _ _ _ h
    · rename_i hquote
      obtain ⟨⟨chars, behind⟩, hfound, h⟩ := bind_eq_ok_iff.1 h
      cases h
      obtain ⟨rest, rfl, hword⟩ := word_blanks blanks hblanks (c :: cs) _ _ hfound
      rw [if_neg hquote, hword]
      exact ⟨rest, rfl, rfl⟩

theorem expect_blanks {blanks : List Char} (hblanks : Blanks blanks) {c : Char}
    {cs left : List Char} (h : expect c (cs ++ blanks) = .ok left) :
    ∃ rest, left = rest ++ blanks ∧ expect c cs = .ok rest := by
  rw [expect, skip_append hblanks] at h
  rw [expect]
  cases hskip : skip cs with
  | nil =>
    rw [hskip] at h
    cases h
  | cons d rest =>
    rw [hskip] at h
    dsimp only [extend] at h ⊢
    split at h
    · rename_i hd
      cases h
      exact ⟨rest, rfl, if_pos hd⟩
    · cases h

/-- Such a reader that takes at least one character reads nothing where nothing is left. -/
theorem IgnoresBlanks.extend {item : Reader Cause Value} (h : IgnoresBlanks item)
    (hstrict : IsStrict item) {blanks : List Char} (hblanks : Blanks blanks) {cs left : List Char}
    {v : Value} (hread : item (extend blanks cs) = .ok (v, left)) :
    ∃ rest, left = rest ++ blanks ∧ item cs = .ok (v, rest) := by
  cases cs with
  | nil => exact absurd (hstrict _ _ _ hread) (Nat.not_lt_zero _)
  | cons c cs => exact h blanks hblanks (c :: cs) _ _ hread

/-! ## Values -/

theorem items_blanks {item : Reader Cause Value} (hitem : IgnoresBlanks item)
    (hstrict : IsStrict item) (n : Nat) : IgnoresBlanks (items item n) := by
  induction n with
  | zero => exact fun _ _ _ _ _ h => nomatch h
  | succ n ih =>
    intro blanks hblanks cs vs left h
    rw [items, skip_append hblanks] at h
    split at h
    · rename_i heq
      obtain ⟨rest, hskip, rfl⟩ := exists_of_extend heq
      cases h
      exact ⟨rest, rfl, items_closed hskip⟩
    · rename_i hne
      obtain ⟨⟨v, behind⟩, hfound, h⟩ := bind_eq_ok_iff.1 h
      obtain ⟨rest, rfl, hread⟩ := hitem.extend hstrict hblanks hfound
      have hopen : ∀ rest, skip cs ≠ ')' :: rest := fun rest heq => hne _ (by rw [heq]; rfl)
      dsimp only at h
      rw [skip_append hblanks] at h
      rw [items_open hopen, hread]
      split at h
      · rename_i heq
        obtain ⟨others, hskip, rfl⟩ := exists_of_extend heq
        obtain ⟨⟨vs', left'⟩, hothers, h⟩ := bind_eq_ok_iff.1 h
        cases h
        obtain ⟨rest', rfl, hothers'⟩ := ih blanks hblanks _ _ _ hothers
        refine ⟨rest', rfl, ?_⟩
        simp only [bind, Except.bind, hskip, hothers']
      · rename_i heq
        obtain ⟨others, hskip, rfl⟩ := exists_of_extend heq
        cases h
        refine ⟨others, rfl, ?_⟩
        simp only [bind, Except.bind, hskip]
      · cases h

theorem members_blanks {item : Reader Cause Value} (hitem : IgnoresBlanks item) (n : Nat) :
    IgnoresBlanks (members item n) := by
  induction n with
  | zero => exact fun _ _ _ _ _ h => nomatch h
  | succ n ih =>
    intro blanks hblanks cs pairs left h
    rw [members, skip_append hblanks] at h
    split at h
    · rename_i heq
      obtain ⟨rest, hskip, rfl⟩ := exists_of_extend heq
      cases h
      exact ⟨rest, rfl, members_closed hskip⟩
    · rename_i hne
      obtain ⟨⟨s, behindName⟩, hnamed, h⟩ := bind_eq_ok_iff.1 h
      obtain ⟨behindSign, hequals, h⟩ := bind_eq_ok_iff.1 h
      obtain ⟨⟨v, behind⟩, hfound, h⟩ := bind_eq_ok_iff.1 h
      obtain ⟨restName, rfl, hname⟩ := name_blanks hblanks hnamed
      obtain ⟨restSign, rfl, hexpect⟩ := expect_blanks hblanks hequals
      obtain ⟨rest, rfl, hread⟩ := hitem blanks hblanks _ _ _ hfound
      have hopen : ∀ rest, skip cs ≠ '\x7d' :: rest := fun rest heq => hne _ (by rw [heq]; rfl)
      dsimp only at h
      rw [skip_append hblanks] at h
      rw [members_open hopen]
      split at h
      · rename_i heq
        obtain ⟨others, hskip, rfl⟩ := exists_of_extend heq
        obtain ⟨⟨pairs', left'⟩, hothers, h⟩ := bind_eq_ok_iff.1 h
        cases h
        obtain ⟨rest', rfl, hothers'⟩ := ih blanks hblanks _ _ _ hothers
        refine ⟨rest', rfl, ?_⟩
        simp only [bind, Except.bind, hname, hexpect, hread, hskip, hothers']
      · rename_i heq
        obtain ⟨others, hskip, rfl⟩ := exists_of_extend heq
        cases h
        refine ⟨others, rfl, ?_⟩
        simp only [bind, Except.bind, hname, hexpect, hread, hskip]
      · cases h

/-- A value is read without the blanks behind it. -/
theorem value_blanks (fuel : Nat) : IgnoresBlanks (value fuel) := by
  induction fuel with
  | zero => exact fun _ _ _ _ _ h => nomatch h
  | succ fuel ih =>
    intro blanks hblanks cs v left h
    rw [value, skip_append hblanks] at h
    rw [value]
    cases hskip : skip cs with
    | nil =>
      rw [hskip] at h
      cases h
    | cons c rest =>
      rw [hskip] at h
      dsimp only [extend] at h ⊢
      have hlength : rest.length < (rest ++ blanks).length + 1 := by
        rw [List.length_append]
        omega
      split at h
      · rename_i hc
        obtain ⟨⟨pairs, behind⟩, hfound, h⟩ := bind_eq_ok_iff.1 h
        cases h
        obtain ⟨rest', rfl, hread⟩ := members_blanks ih _ blanks hblanks _ _ _ hfound
        rw [members_congr (value_isStrict fuel) (fun _ _ => rfl) hlength
          (Nat.lt_succ_self _)] at hread
        rw [if_pos hc, hread]
        exact ⟨rest', rfl, rfl⟩
      · rename_i hbrace
        rw [if_neg hbrace]
        split at h
        · rename_i hc
          obtain ⟨⟨vs, behind⟩, hfound, h⟩ := bind_eq_ok_iff.1 h
          cases h
          obtain ⟨rest', rfl, hread⟩ := items_blanks ih (value_isStrict fuel) _ blanks hblanks _ _ _
            hfound
          rw [items_congr (value_isStrict fuel) (fun _ _ => rfl) hlength
            (Nat.lt_succ_self _)] at hread
          rw [if_pos hc, hread]
          exact ⟨rest', rfl, rfl⟩
        · rename_i hparen
          rw [if_neg hparen]
          split at h
          · rename_i hquote
            obtain ⟨⟨s, behind⟩, hfound, h⟩ := bind_eq_ok_iff.1 h
            cases h
            obtain ⟨rest', rfl, hread⟩ :=
              quoted_blanks (by simpa [isQuote] using hquote) blanks hblanks _ _ _ hfound
            rw [if_pos hquote, hread]
            exact ⟨rest', rfl, rfl⟩
          · rename_i hquote
            obtain ⟨⟨chars, behind⟩, hfound, h⟩ := bind_eq_ok_iff.1 h
            cases h
            obtain ⟨rest', rfl, hread⟩ := word_blanks blanks hblanks (c :: rest) _ _ hfound
            rw [if_neg hquote, hread]
            exact ⟨rest', rfl, rfl⟩

/-- A property list is read without the blanks behind it. -/
theorem parse_blanks {blanks : List Char} (hblanks : Blanks blanks) {cs : List Char} {v : Value}
    (h : parse (cs ++ blanks) = .ok v) : parse cs = .ok v := by
  obtain ⟨left, hread, hleft⟩ := Reader.whole_eq_ok_iff.1 h
  obtain ⟨rest, rfl, hread'⟩ := value_blanks _ blanks hblanks cs _ _ hread
  rw [value_congr (n := cs.length + 1) (by rw [List.length_append]; omega) (by omega)] at hread'
  refine Reader.whole_eq_ok_iff.2 ⟨rest, hread', ?_⟩
  rw [skip_append hblanks] at hleft
  cases hskip : skip rest with
  | nil => rfl
  | cons c others =>
    rw [hskip] at hleft
    cases hleft

end RankedRules.PropertyList
