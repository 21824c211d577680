/-
The comments of a property list, and the search for a semicolon.

A scan that respects nesting knows quotes and brackets, and no comments. It passes over what a
reader of property lists takes, from outside of quotes to outside of quotes and with as many
brackets open, if none of the signs that it looks for stands in a comment.

* `PropertyList.comments` — the characters of a text that are in comments;
* `PropertyList.Quiet` — there are no quotes, brackets and semicolons among them;
* `PropertyList.Takes` — a front of a text is taken, and if the text is quiet, a scan passes over
  it;
* `PropertyList.value_takes` — what the reader of values takes;
* `PropertyList.Quiet.settled` — a whole property list that is quiet.
-/
import RankedRules.Proofs.PropertyList.Layout
import RankedRules.Proofs.Text.Settled

namespace RankedRules.PropertyList

open Scan

/-! ## Comments -/

/-- Where in the text of a property list a character stands. -/
inductive Place
  | between
  | word
  | quoted (quote : Char)
  | line
  | block

/-- The place behind a character in front of which there is no comment and no quoted string. -/
def Place.behind (c : Char) : Place :=
  if isQuote c then .quoted c else if isWordChar c then .word else .between

/-- The characters of the comments in a text that begins at a place. Two signs open a comment where
a token may begin; in a word they are a part of it. -/
def comments : Place → List Char → List Char
  | .between, '/' :: '/' :: rest => comments .line rest
  | .between, '/' :: '*' :: rest => comments .block rest
  | .between, c :: rest => comments (.behind c) rest
  | .word, c :: rest => comments (.behind c) rest
  | .quoted quote, '\\' :: _ :: rest => comments (.quoted quote) rest
  | .quoted quote, c :: rest => comments (if c = quote then .between else .quoted quote) rest
  | .line, '\n' :: rest => comments .between rest
  | .line, c :: rest => c :: comments .line rest
  | .block, '*' :: '/' :: rest => comments .between rest
  | .block, c :: rest => c :: comments .block rest
  | _, [] => []

/-- Neither a quote nor a bracket nor a semicolon. -/
def isQuiet (c : Char) : Bool :=
  !(isQuote c || isOpening c || isClosing c || c = ';')

/-- The comments of a text contain none of the signs that a scan for a semicolon looks for. -/
def Quiet (place : Place) (cs : List Char) : Prop :=
  ∀ c ∈ comments place cs, isQuiet c = true

instance (place : Place) (cs : List Char) : Decidable (Quiet place cs) :=
  inferInstanceAs (Decidable (∀ c ∈ comments place cs, isQuiet c = true))

theorem isPlain_of_isQuiet {c : Char} (h : isQuiet c = true) : IsPlain true c ∧ ';' ≠ c := by
  simp only [isQuiet, Bool.not_eq_true', Bool.or_eq_false_iff, decide_eq_false_iff_not] at h
  obtain ⟨⟨⟨hquote, hopening⟩, hclosing⟩, hsemicolon⟩ := h
  exact ⟨⟨hquote, hopening, hclosing⟩, Ne.symm hsemicolon⟩

theorem isQuiet_of_isWordChar {c : Char} (h : isWordChar c = true) : isQuiet c = true := by
  have hne : ∀ d, isWordChar d = false → c ≠ d := by
    rintro d hd rfl
    rw [h] at hd
    cases hd
  simp [isQuiet, isQuote, isOpening, isClosing, hne '"' rfl, hne '\'' rfl, hne '\x7b' rfl,
    hne '(' rfl, hne '\x7d' rfl, hne ')' rfl, hne ';' rfl]

/-- In front of a token that is no comment, the first character says what follows. -/
theorem comments_between {c : Char} {rest : List Char}
    (h : c = '/' → rest.head? ≠ some '/' ∧ rest.head? ≠ some '*') :
    comments .between (c :: rest) = comments (.behind c) rest := by
  rw [comments]
  · rintro behind rfl rfl
    exact (h rfl).1 rfl
  · rintro behind rfl rfl
    exact (h rfl).2 rfl

/-- Behind a word there is no comment in front of the next sign. -/
theorem comments_word {rest : List Char} (h : ∀ c ∈ rest.head?, isWordChar c = false) :
    comments .word rest = comments .between rest := by
  cases rest with
  | nil => rfl
  | cons c rest =>
    have hslash : c ≠ '/' := by
      rintro rfl
      exact absurd (h '/' rfl) (by decide)
    rw [comments_between fun hc => absurd hc hslash, comments]

theorem comments_quoted {quote : Char} (hquote : isQuote quote = true) {tail : List Char}
    (h : QuotedTail quote tail) (rest : List Char) :
    comments (.quoted quote) (tail ++ rest) = comments .between rest := by
  have hslash : quote ≠ '\\' := by
    rintro rfl
    cases hquote
  induction h with
  | close =>
    rw [List.singleton_append, comments, if_pos rfl]
    exact fun c behind hc => absurd hc hslash
  | escaped c _ ih => simpa [comments] using ih
  | plain hc hne _ ih =>
    rw [List.cons_append, comments, if_neg hne, ih]
    exact fun d behind hd => absurd hd hc

/-! ## What is taken from a text -/

/-- A front of `cs` with at least so many characters is taken, and `rest` is left. If the comments
are quiet, the search for a semicolon passes over the front. -/
def Takes (place : Place) (least depth : Nat) (cs rest : List Char) : Prop :=
  ∃ front, cs = front ++ rest ∧ least ≤ front.length ∧
    (Quiet place cs → Settled true ';' depth front ∧ Quiet .between rest)

namespace Takes

variable {place place' : Place} {m n depth : Nat} {cs cs' rest : List Char}

theorem refl (cs : List Char) : Takes .between 0 depth cs cs :=
  ⟨[], rfl, Nat.le_refl 0, fun h => ⟨.nil, h⟩⟩

theorem trans (h : Takes place m depth cs cs') (h' : Takes .between n depth cs' rest) :
    Takes place (m + n) depth cs rest := by
  obtain ⟨front, rfl, hm, hfront⟩ := h
  obtain ⟨front', rfl, hn, hfront'⟩ := h'
  refine ⟨front ++ front', by rw [List.append_assoc], ?_, fun hquiet => ?_⟩
  · rw [List.length_append]
    omega
  · obtain ⟨hsettled, hrest⟩ := hfront hquiet
    exact ⟨hsettled.append (hfront' hrest).1, (hfront' hrest).2⟩

theorem mono (h : Takes place n depth cs rest) (hm : m ≤ n) : Takes place m depth cs rest := by
  obtain ⟨front, hcs, hn, hfront⟩ := h
  exact ⟨front, hcs, Nat.le_trans hm hn, hfront⟩

/-- A front comes first. -/
theorem of_front (front : List Char)
    (hfront : Quiet place (front ++ cs) → Settled true ';' depth front ∧ Quiet place' cs)
    (h : Takes place' n depth cs rest) :
    Takes place (front.length + n) depth (front ++ cs) rest := by
  obtain ⟨taken, rfl, hn, htaken⟩ := h
  refine ⟨front ++ taken, by rw [List.append_assoc], ?_, fun hquiet => ?_⟩
  · rw [List.length_append]
    omega
  · obtain ⟨hsettled, hcs⟩ := hfront hquiet
    exact ⟨hsettled.append (htaken hcs).1, (htaken hcs).2⟩

theorem length_le (h : Takes place n depth cs rest) : rest.length + n ≤ cs.length := by
  obtain ⟨front, rfl, hn, -⟩ := h
  rw [List.length_append]
  omega

end Takes

/-- A quiet character leaves a scan as it was. -/
theorem settled_of_isQuiet {text : List Char} (h : ∀ c ∈ text, isQuiet c = true) (depth : Nat) :
    Settled true ';' depth text :=
  .of_plain fun c hc => ⟨(isPlain_of_isQuiet (h c hc)).1, .inl (isPlain_of_isQuiet (h c hc)).2⟩

theorem comments_blank {c : Char} (hc : Text.isBlank c = true) (rest : List Char) :
    comments .between (c :: rest) = comments .between rest := by
  have hslash : c ≠ '/' := Text.ne_of_isBlank hc (by decide)
  have hplain : IsPlain true c := isPlain_of_isBlank hc
  have hword : isWordChar c = false := by
    rw [isWordChar, hc]
    rfl
  rw [comments_between fun h => absurd h hslash, Place.behind, hplain.1, hword]
  rfl

theorem isQuiet_of_isBlank {c : Char} (h : Text.isBlank c = true) : isQuiet c = true := by
  have hplain : IsPlain true c := isPlain_of_isBlank h
  obtain ⟨hquote, hopening, hclosing⟩ := hplain
  rw [Bool.true_and] at hopening hclosing
  have hsemicolon : c ≠ ';' := Text.ne_of_isBlank h (by decide)
  simp [isQuiet, hquote, hopening, hclosing, hsemicolon]

/-- Quiet characters are passed over. -/
theorem Takes.pass {place place' : Place} {depth : Nat} (front : List Char) {cs rest : List Char}
    (hfront : Quiet place (front ++ cs) → (∀ c ∈ front, isQuiet c = true) ∧ Quiet place' cs)
    (h : Takes place' 0 depth cs rest) : Takes place 0 depth (front ++ cs) rest := by
  refine (Takes.of_front front (fun hquiet => ?_) h).mono (Nat.zero_le _)
  exact ⟨settled_of_isQuiet (hfront hquiet).1 _, (hfront hquiet).2⟩

/-- Blanks and comments are taken, from in front of them or from inside of a comment. -/
theorem skips_take (depth : Nat) : (∀ cs, Takes .between 0 depth cs (skip cs)) ∧
    (∀ cs, Takes .block 0 depth cs (skipBlock cs)) ∧
    ∀ cs, Takes .line 0 depth cs (skipLine cs) := by
  have hend : ∀ place, Takes place 0 depth [] [] := fun place =>
    ⟨[], rfl, Nat.le_refl 0, fun _ => ⟨.nil, by rintro c ⟨⟩⟩⟩
  refine skip.mutual_induct _ _ _ ?line ?block ?blank ?token ?done ?blockEnd ?blockMore ?blockDone
    ?lineEnd ?lineMore ?lineDone
  case line => exact fun rest h => .pass ['/', '/'] (fun hquiet => ⟨by decide, hquiet⟩) h
  case block => exact fun rest h => .pass ['/', '*'] (fun hquiet => ⟨by decide, hquiet⟩) h
  case blank =>
    intro c rest _ _ hblank h
    rw [skip_of_isBlank hblank]
    refine .pass [c] (fun hquiet => ?_) h
    rw [Quiet, List.singleton_append, comments_blank hblank] at hquiet
    exact ⟨List.forall_mem_singleton.2 (isQuiet_of_isBlank hblank), hquiet⟩
  case token =>
    intro c rest hline hblock hblank
    rw [skip_cons hline hblock, if_neg hblank]
    exact .refl _
  case blockEnd => exact fun rest h => .pass ['*', '/'] (fun hquiet => ⟨by decide, hquiet⟩) h
  case blockMore =>
    intro c rest hc h
    rw [skipBlock]
    · refine .pass [c] (fun hquiet => ?_) h
      rw [Quiet, List.singleton_append, comments] at hquiet
      · obtain ⟨hcquiet, hrest⟩ := List.forall_mem_cons.1 hquiet
        exact ⟨List.forall_mem_singleton.2 hcquiet, hrest⟩
      · exact hc
    · exact hc
  case lineEnd => exact fun rest h => .pass ['\n'] (fun hquiet => ⟨by decide, hquiet⟩) h
  case lineMore =>
    intro c rest hc h
    rw [skipLine]
    · refine .pass [c] (fun hquiet => ?_) h
      rw [Quiet, List.singleton_append, comments] at hquiet
      · obtain ⟨hcquiet, hrest⟩ := List.forall_mem_cons.1 hquiet
        exact ⟨List.forall_mem_singleton.2 hcquiet, hrest⟩
      · exact hc
    · exact hc
  case done => exact hend _
  case blockDone => exact hend _
  case lineDone => exact hend _

theorem skip_takes (cs : List Char) (depth : Nat) : Takes .between 0 depth cs (skip cs) :=
  (skips_take depth).1 cs

/-- Neither a blank nor a comment comes next. -/
def Stops (cs : List Char) : Prop :=
  ∀ c rest, cs = c :: rest → Text.isBlank c = false ∧
    (c = '/' → rest.head? ≠ some '/' ∧ rest.head? ≠ some '*')

theorem skips_stop : (∀ cs, Stops (skip cs)) ∧ (∀ cs, Stops (skipBlock cs)) ∧
    ∀ cs, Stops (skipLine cs) := by
  have hend : Stops [] := by
    rintro c rest ⟨⟩
  refine skip.mutual_induct _ _ _ ?line ?block ?blank ?token ?done ?blockEnd ?blockMore ?blockDone
    ?lineEnd ?lineMore ?lineDone
  case line => exact fun rest h => h
  case block => exact fun rest h => h
  case blank =>
    intro c rest _ _ hblank h
    rwa [skip_of_isBlank hblank]
  case token =>
    intro c rest hline hblock hblank
    rw [skip_cons hline hblock, if_neg hblank]
    rintro _ _ ⟨⟩
    refine ⟨Bool.eq_false_iff.2 hblank, fun hslash => ⟨fun hhead => ?_, fun hhead => ?_⟩⟩
    · obtain ⟨behind, hrest⟩ := List.head?_eq_some_iff.1 hhead
      exact hline behind hslash hrest
    · obtain ⟨behind, hrest⟩ := List.head?_eq_some_iff.1 hhead
      exact hblock behind hslash hrest
  case blockEnd => exact fun rest h => h
  case blockMore =>
    intro c rest hc h
    rwa [skipBlock]
    exact hc
  case lineEnd => exact fun rest h => h
  case lineMore =>
    intro c rest hc h
    rwa [skipLine]
    exact hc
  case done => exact hend
  case blockDone => exact hend
  case lineDone => exact hend

/-- What is left by skipping does not begin with a comment. -/
theorem no_comment_of_skip {cs : List Char} {c : Char} {rest : List Char}
    (h : skip cs = c :: rest) : c = '/' → rest.head? ≠ some '/' ∧ rest.head? ≠ some '*' :=
  (skips_stop.1 cs c rest h).2

/-! ## Tokens -/

/-- Separators and brackets are in no comment, and none of them changes where the text goes on. -/
theorem comments_sign {c : Char} (hc : c ∈ ['=', ';', ',', '\x7b', '\x7d', '(', ')'])
    (rest : List Char) : comments .between (c :: rest) = comments .between rest := by
  have hsign : ∀ d ∈ ['=', ';', ',', '\x7b', '\x7d', '(', ')'],
      d ≠ '/' ∧ isQuote d = false ∧ isWordChar d = false := by decide
  obtain ⟨hslash, hquote, hword⟩ := hsign c hc
  rw [comments_between fun h => absurd h hslash, Place.behind, hquote, hword]
  rfl

/-- A separator is taken. Inside of brackets, a semicolon is no end. -/
theorem separator_takes {c : Char} (hc : c ∈ ['=', ';', ',']) (cs : List Char) (depth : Nat) :
    Takes .between 1 (depth + 1) (c :: cs) cs := by
  have hplain : ∀ d ∈ ['=', ';', ','], isQuote d = false ∧ isOpening d = false ∧
      isClosing d = false := by decide
  obtain ⟨hquote, hopening, hclosing⟩ := hplain c hc
  refine Takes.of_front [c] (fun hquiet => ⟨?_, ?_⟩) (.refl cs)
  · refine .of_plain fun d hd => ?_
    rw [List.mem_singleton.1 hd]
    exact ⟨⟨hquote, hopening, hclosing⟩, .inr (Nat.succ_ne_zero _)⟩
  · have hmem : c ∈ ['=', ';', ',', '\x7b', '\x7d', '(', ')'] := List.mem_append_left _ hc
    rwa [Quiet, List.singleton_append, comments_sign hmem] at hquiet

/-- A quoted text is taken up to the quote that closes it. -/
theorem quotedChars_ok {quote : Char} {cs chars rest : List Char}
    (h : quotedChars quote cs = .ok (chars, rest)) :
    ∃ tail, cs = tail ++ rest ∧ QuotedTail quote tail := by
  induction cs using quotedChars.induct quote generalizing chars with
  | case1 => cases h
  | case2 => cases h
  | case3 c cs ih =>
    rw [quotedChars] at h
    obtain ⟨⟨found, left⟩, hfound, h⟩ := bind_eq_ok_iff.1 h
    cases h
    obtain ⟨tail, rfl, htail⟩ := ih hfound
    exact ⟨'\\' :: c :: tail, rfl, .escaped c htail⟩
  | case4 cs hend hescape =>
    rw [quotedChars, if_pos rfl] at h
    · cases h
      exact ⟨[quote], rfl, .close⟩
    · exact hend
    · exact hescape
  | case5 c cs hend hescape hne ih =>
    rw [quotedChars, if_neg hne] at h
    · obtain ⟨⟨found, left⟩, hfound, h⟩ := bind_eq_ok_iff.1 h
      cases h
      obtain ⟨tail, rfl, htail⟩ := ih hfound
      refine ⟨c :: tail, rfl, .plain ?_ hne htail⟩
      rintro rfl
      cases tail with
      | nil => cases htail
      | cons d tail => exact hescape d (tail ++ rest) rfl rfl
    · exact hend
    · exact hescape

theorem quoted_takes {quote : Char} (hquote : isQuote quote = true) {cs rest : List Char}
    {s : String} (h : quoted quote cs = .ok (s, rest)) (depth : Nat) :
    Takes .between 1 depth (quote :: cs) rest := by
  obtain ⟨⟨chars, behind⟩, hfound, h⟩ := bind_eq_ok_iff.1 h
  cases h
  obtain ⟨tail, rfl, htail⟩ := quotedChars_ok hfound
  refine ⟨quote :: tail, rfl, Nat.succ_pos _, fun hquiet => ⟨.quoted hquote htail, ?_⟩⟩
  have hslash : quote ≠ '/' := by
    rintro rfl
    cases hquote
  rw [Quiet, comments_between fun h => absurd h hslash, Place.behind, if_pos hquote,
    comments_quoted hquote htail] at hquiet
  exact hquiet

/-- The characters of a word are in no comment. -/
theorem comments_wordChars {chars : List Char} (h : ∀ c ∈ chars, isWordChar c = true)
    (rest : List Char) : comments .word (chars ++ rest) = comments .word rest := by
  induction chars with
  | nil => rfl
  | cons c chars ih =>
    obtain ⟨hc, hchars⟩ := List.forall_mem_cons.1 h
    rw [List.cons_append, comments, Place.behind,
      (isPlain_of_isQuiet (isQuiet_of_isWordChar hc)).1.1, hc]
    exact ih hchars

theorem word_takes {cs : List Char} {c : Char} {behind : List Char} (hskip : skip cs = c :: behind)
    {chars rest : List Char} (h : word (c :: behind) = .ok (chars, rest)) (depth : Nat) :
    Takes .between 1 depth (c :: behind) rest := by
  rw [word] at h
  split at h
  · cases h
  · rename_i hne
    cases h
    have hsplit : (c :: behind).takeWhile isWordChar ++ (c :: behind).dropWhile isWordChar =
        c :: behind := List.takeWhile_append_dropWhile
    have hall : ∀ d ∈ (c :: behind).takeWhile isWordChar, isWordChar d = true := fun d hd =>
      List.all_eq_true.1 List.all_takeWhile d hd
    refine ⟨_, hsplit.symm, List.length_pos_iff.2 hne, fun hquiet => ⟨?_, ?_⟩⟩
    · exact settled_of_isQuiet (fun d hd => isQuiet_of_isWordChar (hall d hd)) _
    · have hhead : ∀ d ∈ ((c :: behind).dropWhile isWordChar).head?, isWordChar d = false := by
        intro d hd
        have hnot := List.head?_dropWhile_not isWordChar (c :: behind)
        rwa [hd] at hnot
      have hword : comments .between (c :: behind) = comments .word (c :: behind) := by
        rw [comments_between (no_comment_of_skip hskip), comments]
      rw [Quiet, hword, ← hsplit, comments_wordChars hall, comments_word hhead] at hquiet
      exact hquiet

theorem name_takes {cs : List Char} {s : String} {rest : List Char}
    (h : name (skip cs) = .ok (s, rest)) (depth : Nat) : Takes .between 1 depth (skip cs) rest := by
  rw [name.eq_def] at h
  split at h
  · cases h
  · rename_i c behind hskip
    rw [hskip]
    split at h
    · rename_i hquote
      exact quoted_takes (by simpa [isQuote] using hquote) h depth
    · obtain ⟨⟨chars, left⟩, hfound, h⟩ := bind_eq_ok_iff.1 h
      cases h
      exact word_takes hskip hfound depth

theorem expect_takes {c : Char} (hc : c ∈ ['=', ';', ',']) {cs rest : List Char}
    (h : expect c cs = .ok rest) (depth : Nat) : Takes .between 1 (depth + 1) cs rest := by
  rw [expect] at h
  split at h
  · cases h
  · rename_i d behind hskip
    split at h
    · rename_i hd
      cases h
      subst hd
      have htakes := skip_takes cs (depth + 1)
      rw [hskip] at htakes
      exact (htakes.trans (separator_takes hc _ depth)).mono (by omega)
    · cases h

/-! ## Values -/

theorem items_takes {item : Reader Cause Value} {depth : Nat}
    (hitem : ∀ cs v rest, item cs = .ok (v, rest) → Takes .between 1 (depth + 1) cs rest) {n : Nat}
    {cs rest : List Char} {vs : List Value} (h : items item n cs = .ok (vs, rest)) :
    Takes .between 0 (depth + 1) cs (')' :: rest) := by
  induction n generalizing cs vs with
  | zero => cases h
  | succ n ih =>
    have hskip := skip_takes cs (depth + 1)
    rw [items] at h
    split at h
    · rename_i heq
      cases h
      rwa [heq] at hskip
    · obtain ⟨⟨v, behind⟩, hfound, h⟩ := bind_eq_ok_iff.1 h
      have hbehind := (hskip.trans (hitem _ _ _ hfound)).trans (skip_takes behind (depth + 1))
      dsimp only at h
      split at h
      · rename_i others heq
        rw [heq] at hbehind
        obtain ⟨⟨vs', left⟩, hothers, h⟩ := bind_eq_ok_iff.1 h
        cases h
        exact ((hbehind.trans (separator_takes (by decide) others depth)).trans (ih hothers)).mono
          (Nat.zero_le _)
      · rename_i heq
        cases h
        rw [heq] at hbehind
        exact hbehind.mono (Nat.zero_le _)
      · cases h

theorem members_takes {item : Reader Cause Value} {depth : Nat}
    (hitem : ∀ cs v rest, item cs = .ok (v, rest) → Takes .between 1 (depth + 1) cs rest) {n : Nat}
    {cs rest : List Char} {pairs : List (String × Value)}
    (h : members item n cs = .ok (pairs, rest)) :
    Takes .between 0 (depth + 1) cs ('\x7d' :: rest) := by
  induction n generalizing cs pairs with
  | zero => cases h
  | succ n ih =>
    have hskip := skip_takes cs (depth + 1)
    rw [members] at h
    split at h
    · rename_i heq
      cases h
      rwa [heq] at hskip
    · obtain ⟨⟨s, behindName⟩, hname, h⟩ := bind_eq_ok_iff.1 h
      obtain ⟨behindSign, hequals, h⟩ := bind_eq_ok_iff.1 h
      obtain ⟨⟨v, behind⟩, hfound, h⟩ := bind_eq_ok_iff.1 h
      have hsides :=
        (hskip.trans (name_takes hname _)).trans (expect_takes (by decide) hequals depth)
      have hbehind := (hsides.trans (hitem _ _ _ hfound)).trans (skip_takes behind (depth + 1))
      dsimp only at h
      split at h
      · rename_i others heq
        rw [heq] at hbehind
        obtain ⟨⟨pairs', left⟩, hothers, h⟩ := bind_eq_ok_iff.1 h
        cases h
        exact ((hbehind.trans (separator_takes (by decide) others depth)).trans (ih hothers)).mono
          (Nat.zero_le _)
      · rename_i heq
        cases h
        rw [heq] at hbehind
        exact hbehind.mono (Nat.zero_le _)
      · cases h

/-- Brackets are taken with what stands between them. -/
theorem brackets_takes {c d : Char} (hbrackets : c = '\x7b' ∧ d = '\x7d' ∨ c = '(' ∧ d = ')')
    {depth n : Nat} {cs rest : List Char} (h : Takes .between n (depth + 1) cs (d :: rest)) :
    Takes .between 1 depth (c :: cs) rest := by
  have hsigns : c ∈ ['=', ';', ',', '\x7b', '\x7d', '(', ')'] ∧
      d ∈ ['=', ';', ',', '\x7b', '\x7d', '(', ')'] ∧ (isQuote c = false ∧ isOpening c = true) ∧
      isQuote d = false ∧ isOpening d = false ∧ isClosing d = true := by
    rcases hbrackets with ⟨rfl, rfl⟩ | ⟨rfl, rfl⟩ <;> decide
  obtain ⟨hc, hd, hopening, hclosing⟩ := hsigns
  obtain ⟨inner, rfl, -, hinner⟩ := h
  refine ⟨c :: (inner ++ [d]), by simp, Nat.succ_pos _, fun hquiet => ?_⟩
  rw [Quiet, comments_sign hc] at hquiet
  obtain ⟨hsettled, hrest⟩ := hinner hquiet
  rw [Quiet, comments_sign hd] at hrest
  exact ⟨.nested hopening hclosing hsettled, hrest⟩

theorem value_takes {fuel : Nat} {cs rest : List Char} {v : Value}
    (h : value fuel cs = .ok (v, rest)) (depth : Nat) : Takes .between 1 depth cs rest := by
  induction fuel generalizing cs v rest depth with
  | zero => cases h
  | succ fuel ih =>
    have hskip := skip_takes cs depth
    rw [value] at h
    split at h
    · cases h
    · rename_i c behind heq
      rw [heq] at hskip
      refine (hskip.trans (n := 1) ?_).mono (by omega)
      split at h
      · rename_i hc
        obtain ⟨⟨pairs, left⟩, hfound, h⟩ := bind_eq_ok_iff.1 h
        cases h
        exact brackets_takes (.inl ⟨hc, rfl⟩)
          (members_takes (fun _ _ _ hread => ih hread (depth + 1)) hfound)
      · split at h
        · rename_i hc
          obtain ⟨⟨vs, left⟩, hfound, h⟩ := bind_eq_ok_iff.1 h
          cases h
          exact brackets_takes (.inr ⟨hc, rfl⟩)
            (items_takes (fun _ _ _ hread => ih hread (depth + 1)) hfound)
        · split at h
          · rename_i hquote
            obtain ⟨⟨s, left⟩, hfound, h⟩ := bind_eq_ok_iff.1 h
            cases h
            exact quoted_takes (by simpa [isQuote] using hquote) hfound depth
          · obtain ⟨⟨chars, left⟩, hfound, h⟩ := bind_eq_ok_iff.1 h
            cases h
            exact word_takes heq hfound depth

/-- A property list with quiet comments closes what it opens, with no semicolon outside. -/
theorem Quiet.settled {cs : List Char} (hquiet : Quiet .between cs) {v : Value}
    (h : parse cs = .ok v) : Settled true ';' 0 cs := by
  obtain ⟨rest, hread, hrest⟩ := Reader.whole_eq_ok_iff.1 h
  have hall := (value_takes hread 0).trans (skip_takes rest 0)
  rw [hrest] at hall
  obtain ⟨front, hcs, _, hfront⟩ := hall
  rw [List.append_nil] at hcs
  subst hcs
  exact (hfront hquiet).1

end RankedRules.PropertyList
