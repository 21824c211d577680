/-
Numbers read back from their texts.

The text of a double is read as a numeral with the same digits, or with zeros behind them that its
exponent takes back; so it stands for the double. A point or an exponent keeps it from being the
text of an integer.

* `Decimal.positional_read`, `Decimal.scientific_read` — the two ways of writing;
* `Number.IsReadable` — the numbers that texts have: integers of 64 bits and doubles;
* `Number.ofChars?_chars` — such a number is the one that its text is;
* `Number.isReadable_of_ofChars?` — and there are no others.
-/
import RankedRules.Proofs.Number.Numerals
import RankedRules.Proofs.Number.Rounding
import RankedRules.Proofs.Text.Classes
import RankedRules.Proofs.Text.Trim

namespace RankedRules

namespace Decimal

/-! ## Numerals in parts -/

/-- A numeral is read as its sign, its digits in front of the point and behind it, and its
exponent. -/
theorem ofChars?_parts {x : Decimal} {whole fraction tail rest : List Char} {exponent : Int}
    (hne : whole ≠ []) (hwhole : ∀ c ∈ whole, c.isDigit = true)
    (htail : ∀ c ∈ tail.head?, c.isDigit = false) (hsplit : splitFraction tail = (fraction, rest))
    (hexponent : exponent? rest = some exponent) :
    ofChars? (x.signChars ++ (whole ++ tail)) =
      some ⟨x.negative, digitsValue (whole ++ fraction), exponent - fraction.length⟩ := by
  have hsign : splitSign (x.signChars ++ (whole ++ tail)) = (x.negative, whole ++ tail) := by
    rw [signChars]
    split
    · rename_i hnegative
      rw [hnegative]
      rfl
    · rename_i hnegative
      rw [Bool.eq_false_iff.2 hnegative]
      cases whole with
      | nil => exact absurd rfl hne
      | cons c whole => exact splitSign_of_isDigit (hwhole c List.mem_cons_self) _
  obtain ⟨htake, hdrop⟩ := Text.takeWhile_append_of_stop hwhole htail
  have hempty : whole.isEmpty = false := List.isEmpty_eq_false_iff.2 hne
  simp only [ofChars?, hsign, htake, hdrop, hsplit, hempty, Bool.false_and, hexponent,
    Option.map_some]
  rfl

theorem splitFraction_point {fraction rest : List Char}
    (hfraction : ∀ c ∈ fraction, c.isDigit = true) (hrest : ∀ c ∈ rest.head?, c.isDigit = false) :
    splitFraction ('.' :: (fraction ++ rest)) = (fraction, rest) := by
  obtain ⟨htake, hdrop⟩ := Text.takeWhile_append_of_stop hfraction hrest
  rw [splitFraction, htake, hdrop]

/-- The same without an exponent, with a point. -/
theorem ofChars?_point (x : Decimal) {whole fraction : List Char} (hne : whole ≠ [])
    (hwhole : ∀ c ∈ whole, c.isDigit = true) (hfraction : ∀ c ∈ fraction, c.isDigit = true) :
    ofChars? (x.signChars ++ (whole ++ '.' :: fraction)) =
      some ⟨x.negative, digitsValue (whole ++ fraction), -fraction.length⟩ := by
  have htail : ∀ c ∈ ('.' :: fraction).head?, c.isDigit = false := by
    rintro c ⟨⟩
    rfl
  have hsplit : splitFraction ('.' :: fraction) = (fraction, []) := by
    have happend : splitFraction ('.' :: (fraction ++ [])) = (fraction, []) :=
      splitFraction_point hfraction (by rintro c ⟨⟩)
    rwa [List.append_nil] at happend
  rw [ofChars?_parts hne hwhole htail hsplit rfl, Int.zero_sub]

theorem isDigit_of_mem_zeros {count : Nat} {c : Char} (h : c ∈ List.replicate count '0') :
    c.isDigit = true := by
  rw [List.eq_of_mem_replicate h]
  rfl

theorem digitsValue_append_zeros (cs : List Char) (count : Nat) :
    digitsValue (cs ++ List.replicate count '0') = digitsValue cs * Nat.pow 10 count := by
  rw [digitsValue_eq_ofDigitChars, digitsValue_eq_ofDigitChars, Nat.ofDigitChars_append,
    Nat.ofDigitChars_replicate_zero, Nat.mul_comm, Nat.pow_eq]

theorem digitsValue_zeros_append (cs : List Char) (count : Nat) :
    digitsValue (List.replicate count '0' ++ cs) = digitsValue cs := by
  rw [digitsValue_eq_ofDigitChars, digitsValue_eq_ofDigitChars, Nat.ofDigitChars_append,
    Nat.ofDigitChars_replicate_zero, Nat.mul_zero]

/-! ## The two ways of writing -/

/-- Positional notation stands for the same double. -/
theorem positional_read (x : Decimal) :
    (ofChars? x.positional).bind toDouble? = x.toDouble? := by
  have hdigits : ∀ c ∈ digitChars x.digits, c.isDigit = true := fun c hc =>
    isDigit_of_mem_digitChars hc
  have hne := digitChars_ne_nil x.digits
  have hvalue := digitsValue_digitChars x.digits
  simp only [positional]
  generalize digitChars x.digits = digits at hdigits hne hvalue
  split
  · -- All digits are in front of the point, with the zeros that the exponent stands for.
    rename_i hexponent
    have hwhole : ∀ c ∈ digits ++ List.replicate x.exponent.toNat '0', c.isDigit = true := by
      intro c hc
      rcases List.mem_append.1 hc with hc | hc
      · exact hdigits c hc
      · exact isDigit_of_mem_zeros hc
    have hread := ofChars?_point x (List.append_ne_nil_of_left_ne_nil hne _) hwhole
      (show ∀ c ∈ ['0'], c.isDigit = true by simp)
    have hzeros : List.replicate x.exponent.toNat '0' ++ ['0'] =
        List.replicate (x.exponent.toNat + 1) '0' := List.replicate_succ'.symm
    rw [hread, Option.bind_some, List.append_assoc, hzeros, digitsValue_append_zeros, hvalue,
      toDouble?_shift]
    congr 2
    simp only [List.length_singleton]
    omega
  · rename_i hexponent
    split
    · -- The point is between the digits.
      rename_i hbetween
      have hpoint : digits.take ((digits.length : Int) + x.exponent).toNat ≠ [] := by
        simp only [ne_eq, List.take_eq_nil_iff, hne, or_false]
        omega
      have hfraction : ∀ c ∈ digits.drop ((digits.length : Int) + x.exponent).toNat,
          c.isDigit = true := fun c hc => hdigits c (List.mem_of_mem_drop hc)
      have hread := ofChars?_point x hpoint (fun c hc => hdigits c (List.mem_of_mem_take hc))
        hfraction
      rw [hread, Option.bind_some, List.take_append_drop, hvalue]
      congr 2
      simp only [List.length_drop]
      omega
    · -- All digits are behind the point and zeros.
      rename_i hbehind
      have hfraction :
          ∀ c ∈ List.replicate (-((digits.length : Int) + x.exponent)).toNat '0' ++ digits,
            c.isDigit = true := by
        intro c hc
        rcases List.mem_append.1 hc with hc | hc
        · exact isDigit_of_mem_zeros hc
        · exact hdigits c hc
      have hread := ofChars?_point x (show ['0'] ≠ [] by simp) (by simp) hfraction
      have hzeros : ['0'] ++ (List.replicate (-((digits.length : Int) + x.exponent)).toNat '0' ++
          digits) =
          List.replicate ((-((digits.length : Int) + x.exponent)).toNat + 1) '0' ++ digits := rfl
      rw [hzeros, digitsValue_zeros_append, hvalue] at hread
      refine (congrArg (Option.bind · toDouble?) hread).trans ?_
      rw [Option.bind_some]
      congr 2
      simp only [List.length_append, List.length_replicate]
      omega

theorem exponent?_power (power : Int) :
    exponent? ('e' :: (if power < 0 then '-' else '+') :: digitChars power.natAbs) =
      some power := by
  have hsplit : splitSign ((if power < 0 then '-' else '+') :: digitChars power.natAbs) =
      (decide (power < 0), digitChars power.natAbs) := by
    split
    · rename_i hneg
      rw [decide_eq_true hneg]
      rfl
    · rename_i hneg
      rw [decide_eq_false hneg]
      rfl
  have hletter : 'e' = 'e' ∨ 'e' = 'E' := .inl rfl
  rw [exponent?, if_pos hletter, integer?_of_splitSign hsplit]
  congr 1
  by_cases hneg : power < 0
  · rw [if_pos (decide_eq_true hneg)]
    omega
  · rw [if_neg (by simpa using hneg)]
    omega

/-- Scientific notation stands for the same double. -/
theorem scientific_read (x : Decimal) :
    (ofChars? x.scientific).bind toDouble? = x.toDouble? := by
  have hdigits : ∀ c ∈ digitChars x.digits, c.isDigit = true := fun c hc =>
    isDigit_of_mem_digitChars hc
  have hne := digitChars_ne_nil x.digits
  have hvalue := digitsValue_digitChars x.digits
  have hstop : ∀ power : List Char, ∀ c ∈ ('e' :: power).head?, c.isDigit = false := by
    rintro power c ⟨⟩
    rfl
  simp only [scientific]
  generalize digitChars x.digits = digits at hdigits hne hvalue
  match digits with
  | [] => exact absurd rfl hne
  | [first] =>
    have hread := ofChars?_parts (x := x) hne hdigits (hstop _) rfl
      (exponent?_power (([first].length : Int) - 1 + x.exponent))
    rw [List.append_nil, hvalue] at hread
    rw [List.append_assoc]
    refine (congrArg (Option.bind · toDouble?) hread).trans ?_
    rw [Option.bind_some]
    congr 2
    simp only [List.length_singleton, List.length_nil]
    omega
  | first :: next :: rest =>
    have hfirst : ∀ c ∈ [first], c.isDigit = true := fun c hc =>
      hdigits c (by simp_all)
    have hrest : ∀ c ∈ next :: rest, c.isDigit = true := fun c hc =>
      hdigits c (List.mem_cons_of_mem first hc)
    have hpoint : ∀ tail : List Char, ∀ c ∈ ('.' :: tail).head?, c.isDigit = false := by
      rintro tail c ⟨⟩
      rfl
    have hread := ofChars?_parts (x := x) (by simp) hfirst (hpoint _)
      (splitFraction_point hrest (hstop _))
      (exponent?_power (((first :: next :: rest).length : Int) - 1 + x.exponent))
    rw [show [first] ++ next :: rest = first :: next :: rest from rfl, hvalue] at hread
    rw [List.append_assoc]
    refine (congrArg (Option.bind · toDouble?) hread).trans ?_
    rw [Option.bind_some]
    congr 2
    simp only [List.length_cons]
    omega

/-! ## The characters of a numeral -/

/-- A digit or a minus sign, and then characters of some kind. -/
def Begins (allowed : Char → Bool) (cs : List Char) : Prop :=
  ∃ c rest, cs = c :: rest ∧ (c.isDigit = true ∨ c = '-') ∧ ∀ d ∈ rest, allowed d = true

theorem Begins.mono {allowed permitted : Char → Bool} {cs : List Char} (h : Begins allowed cs)
    (hall : ∀ d, allowed d = true → permitted d = true) : Begins permitted cs := by
  obtain ⟨c, rest, rfl, hc, hrest⟩ := h
  exact ⟨c, rest, rfl, hc, fun d hd => hall d (hrest d hd)⟩

theorem begins_of_unsigned {allowed : Char → Bool} {x : Decimal} {unsigned : List Char}
    (hfirst : ∃ c rest, unsigned = c :: rest ∧ c.isDigit = true)
    (hall : ∀ d ∈ unsigned, allowed d = true) : Begins allowed (x.signChars ++ unsigned) := by
  obtain ⟨c, rest, rfl, hc⟩ := hfirst
  rw [signChars]
  split
  · exact ⟨'-', c :: rest, rfl, .inr rfl, hall⟩
  · exact ⟨c, rest, rfl, .inl hc, fun d hd => hall d (List.mem_cons_of_mem c hd)⟩

theorem exists_first_digit (n : Nat) : ∃ c cs, digitChars n = c :: cs ∧ c.isDigit = true := by
  cases hdigits : digitChars n with
  | nil => exact absurd hdigits (digitChars_ne_nil n)
  | cons c cs => exact ⟨c, cs, rfl, isDigit_of_mem_digitChars (n := n) (by simp [hdigits])⟩

/-- A digit or a point. -/
def isPositionalChar (c : Char) : Bool := c.isDigit || decide (c = '.')

/-- A digit, a point, a sign or the letter of the exponent. -/
def isScientificChar (c : Char) : Bool :=
  c.isDigit || ['.', '-', '+', 'e'].contains c

theorem positional_begins (x : Decimal) : Begins isPositionalChar x.positional := by
  obtain ⟨first, others, hcons, hfirst⟩ := exists_first_digit x.digits
  have hdigit : ∀ c, c.isDigit = true → isPositionalChar c = true := by
    intro c hc
    rw [isPositionalChar, hc, Bool.true_or]
  have hdigits : ∀ c ∈ digitChars x.digits, isPositionalChar c = true := fun c hc =>
    hdigit c (isDigit_of_mem_digitChars hc)
  have hzeros : ∀ count, ∀ c ∈ List.replicate count '0', isPositionalChar c = true :=
    fun count c hc => hdigit c (isDigit_of_mem_zeros hc)
  simp only [positional]
  -- The cases are those of the notation: the point is behind the digits, between or in front.
  refine begins_of_unsigned ?_ ?_
  · split
    · exact ⟨first, _, by rw [hcons]; rfl, hfirst⟩
    · split
      · rename_i hbetween
        obtain ⟨k, hk⟩ : ∃ k, ((digitChars x.digits).length + x.exponent).toNat = k + 1 :=
          ⟨((digitChars x.digits).length + x.exponent).toNat - 1, by omega⟩
        exact ⟨first, _, by rw [hk, hcons, List.take_succ_cons]; rfl, hfirst⟩
      · exact ⟨'0', _, rfl, rfl⟩
  · intro c hc
    split at hc
    · simp only [List.mem_append, List.mem_cons, List.not_mem_nil, or_false] at hc
      rcases hc with (hc | hc) | rfl | rfl
      · exact hdigits c hc
      · exact hzeros _ c hc
      · rfl
      · rfl
    · split at hc
      · simp only [List.mem_append, List.mem_cons] at hc
        rcases hc with hc | rfl | hc
        · exact hdigits c (List.mem_of_mem_take hc)
        · rfl
        · exact hdigits c (List.mem_of_mem_drop hc)
      · simp only [List.mem_cons, List.cons_append, List.mem_append] at hc
        rcases hc with rfl | rfl | hc | hc
        · rfl
        · rfl
        · exact hzeros _ c hc
        · exact hdigits c hc

theorem exponent_notMem_positional (x : Decimal) : 'e' ∉ x.positional := by
  obtain ⟨c, rest, hchars, hfirst, hrest⟩ := positional_begins x
  intro h
  rw [hchars] at h
  rcases List.mem_cons.1 h with rfl | h
  · rcases hfirst with hdigit | hminus
    · cases hdigit
    · cases hminus
  · cases hrest 'e' h

theorem isScientificChar_of_isDigit {c : Char} (h : c.isDigit = true) :
    isScientificChar c = true := by
  rw [isScientificChar, h, Bool.true_or]

theorem isScientificChar_of_isPositionalChar {c : Char} (h : isPositionalChar c = true) :
    isScientificChar c = true := by
  simp only [isPositionalChar, Bool.or_eq_true, decide_eq_true_eq] at h
  rcases h with hdigit | rfl
  · exact isScientificChar_of_isDigit hdigit
  · rfl

/-- In front of the exponent there are only digits and a point behind the sign. -/
theorem exists_mantissa (x : Decimal) : ∃ mantissa power, x.scientific = mantissa ++ 'e' :: power ∧
    Begins isPositionalChar mantissa ∧ ∀ c ∈ power, isScientificChar c = true := by
  have hdigits : ∀ c ∈ digitChars x.digits, isPositionalChar c = true := fun c hc => by
    rw [isPositionalChar, isDigit_of_mem_digitChars hc, Bool.true_or]
  obtain ⟨first, others, hcons, hfirst⟩ := exists_first_digit x.digits
  refine ⟨_, _, rfl, begins_of_unsigned ?_ ?_, ?_⟩
  · rw [hcons]
    match others with
    | [] => exact ⟨first, _, rfl, hfirst⟩
    | next :: rest => exact ⟨first, _, rfl, hfirst⟩
  · rw [hcons] at hdigits ⊢
    obtain ⟨hone, hothers⟩ := List.forall_mem_cons.1 hdigits
    match others, hothers with
    | [], _ => exact List.forall_mem_singleton.2 hone
    | next :: rest, hothers =>
      exact List.forall_mem_cons.2 ⟨hone, List.forall_mem_cons.2 ⟨rfl, hothers⟩⟩
  · intro c hc
    rcases List.mem_cons.1 hc with rfl | hc
    · split <;> rfl
    · exact isScientificChar_of_isDigit (isDigit_of_mem_digitChars hc)

theorem scientific_begins (x : Decimal) : Begins isScientificChar x.scientific := by
  obtain ⟨mantissa, power, hscientific, hmantissa, hpower⟩ := exists_mantissa x
  obtain ⟨c, rest, rfl, hfirst, hrest⟩ := hmantissa
  refine ⟨c, rest ++ 'e' :: power, hscientific, hfirst, fun d hd => ?_⟩
  rcases List.mem_append.1 hd with hd | hd
  · exact isScientificChar_of_isPositionalChar (hrest d hd)
  · rcases List.mem_cons.1 hd with rfl | hd
    · rfl
    · exact hpower d hd

end Decimal

namespace Number

/-- A number that a text can be: an integer of 64 bits or any double. -/
def IsReadable : Number → Prop
  | .integer n => isSigned64 n = true
  | .double _ => True

theorem isReadable_of_ofChars? {cs : List Char} {n : Number} (h : ofChars? cs = some n) :
    n.IsReadable := by
  rw [ofChars?] at h
  split at h
  · rename_i m hm
    cases h
    exact (Option.filter_eq_some_iff.1 hm).2
  · obtain ⟨x, _, rfl⟩ := Option.map_eq_some_iff.1 h
    trivial

/-- The text of a double is no integer. -/
theorem integer?_text (x : Double) : Decimal.integer? x.text = none := by
  rw [Double.text]
  split
  · refine Decimal.integer?_eq_none (c := '.') ?_ rfl (by decide)
    simp only [Decimal.positional]
    split
    · simp
    · split <;> simp
  · refine Decimal.integer?_eq_none (c := 'e') ?_ rfl (by decide)
    simp [Decimal.scientific]

theorem integerChars_begins (n : Int) :
    Decimal.Begins Decimal.isPositionalChar (integerChars n) := by
  obtain ⟨c, cs, hchars, hfirst, hdigits⟩ := integerChars_eq_cons n
  refine ⟨c, cs, hchars, hfirst, fun d hd => ?_⟩
  rw [Decimal.isPositionalChar, hdigits d hd, Bool.true_or]

theorem chars_begins (n : Number) : Decimal.Begins Decimal.isScientificChar n.chars := by
  have hmono := @Decimal.isScientificChar_of_isPositionalChar
  cases n with
  | integer n => exact (integerChars_begins n).mono fun _ => hmono
  | double x =>
    rw [chars, Double.text]
    split
    · exact (Decimal.positional_begins _).mono fun _ => hmono
    · exact Decimal.scientific_begins _

theorem isScientificChar_of_mem_chars {n : Number} {c : Char} (h : c ∈ n.chars) :
    Decimal.isScientificChar c = true := by
  obtain ⟨first, rest, hchars, hfirst, hrest⟩ := chars_begins n
  rw [hchars] at h
  rcases List.mem_cons.1 h with rfl | h
  · rcases hfirst with hdigit | rfl
    · exact Decimal.isScientificChar_of_isDigit hdigit
    · rfl
  · exact hrest c h

/-- No blank is in the text of a number. -/
theorem chars_solid (n : Number) : Text.Solid n.chars := by
  obtain ⟨first, rest, hchars, _⟩ := chars_begins n
  refine .of_no_blank (by simp [hchars]) fun c hc => ?_
  have hc := isScientificChar_of_mem_chars hc
  simp only [Decimal.isScientificChar, Bool.or_eq_true, List.contains_eq_mem, List.mem_cons,
    List.not_mem_nil, or_false, decide_eq_true_eq] at hc
  rcases hc with hdigit | rfl | rfl | rfl | rfl
  · exact Text.isBlank_of_isDigit hdigit
  · decide
  · decide
  · decide
  · decide

/-- A double without an exponent has only digits and a point behind its sign. -/
theorem text_begins {x : Double} (h : 'e' ∉ x.text) :
    Decimal.Begins Decimal.isPositionalChar x.text := by
  rw [Double.text] at h ⊢
  split
  · exact Decimal.positional_begins _
  · rename_i hrange
    rw [if_neg hrange] at h
    exact absurd (by simp [Decimal.scientific]) h

/-- A double with an exponent has only digits and a point between its sign and the exponent. -/
theorem exists_mantissa {x : Double} (h : 'e' ∈ x.text) :
    ∃ mantissa power, x.text = mantissa ++ 'e' :: power ∧
      Decimal.Begins Decimal.isPositionalChar mantissa := by
  rw [Double.text] at h ⊢
  split
  · rename_i hrange
    rw [if_pos hrange] at h
    exact absurd h (Decimal.exponent_notMem_positional _)
  · obtain ⟨mantissa, power, hscientific, hmantissa, _⟩ := Decimal.exists_mantissa
      ((x.shortest .even).stripZeros 17)
    exact ⟨mantissa, power, hscientific, hmantissa⟩

/-- A number is the one that its text is. -/
theorem ofChars?_chars {n : Number} (h : n.IsReadable) : ofChars? n.chars = some n := by
  cases n with
  | integer n => exact ofChars?_integerChars h
  | double x =>
    have hread : (Decimal.ofChars? x.text).bind Decimal.toDouble? = some x := by
      rw [← x.shortest_toDouble? .even, ← Decimal.toDouble?_stripZeros 17]
      rw [Double.text]
      split
      · exact Decimal.positional_read _
      · exact Decimal.scientific_read _
    rw [chars, ofChars?, integer?_text, hread]
    rfl

end Number

end RankedRules
