/-
Decimal digits read back.

Numbers are written with the digits of the standard library, and reading them undoes that.

* `Decimal.isDigit_of_mem_digitChars`, `Decimal.digitsValue_digitChars` — the digits of a natural
  number, and the number that they denote;
* `Decimal.integer?_integerChars` — an integer is the integer that its text is;
* `Number.ofChars?_integerChars` — and the number, if it has 64 bits.
-/
import RankedRules.Number.Basic

namespace RankedRules

namespace Decimal

theorem isDigit_of_mem_digitChars {n : Nat} {c : Char} (h : c ∈ digitChars n) :
    c.isDigit = true :=
  Nat.isDigit_of_mem_toDigits (by decide) (by decide) h

theorem digitChars_ne_nil (n : Nat) : digitChars n ≠ [] :=
  Nat.toDigits_ne_nil

theorem digitsValue_eq_ofDigitChars (cs : List Char) :
    digitsValue cs = Nat.ofDigitChars 10 cs 0 :=
  Nat.ofDigitChars_eq_foldl.symm

@[simp] theorem digitsValue_digitChars (n : Nat) : digitsValue (digitChars n) = n := by
  rw [digitsValue_eq_ofDigitChars]
  exact Nat.ofDigitChars_ten_toDigits

/-- What begins with a digit has no sign. -/
theorem splitSign_of_isDigit {c : Char} (h : c.isDigit = true) (cs : List Char) :
    splitSign (c :: cs) = (false, c :: cs) := by
  rw [splitSign.eq_def]
  split
  · rename_i heq
    rw [(List.cons.inj heq).1] at h
    cases h
  · rename_i heq
    rw [(List.cons.inj heq).1] at h
    cases h
  · rfl

theorem splitSign_digitChars (n : Nat) : splitSign (digitChars n) = (false, digitChars n) := by
  cases hdigits : digitChars n with
  | nil => exact absurd hdigits (digitChars_ne_nil n)
  | cons c cs =>
    have hc : c.isDigit = true := isDigit_of_mem_digitChars (n := n) (by simp [hdigits])
    exact splitSign_of_isDigit hc cs

/-- A sign and the digits of a number are that number with the sign. -/
theorem integer?_of_splitSign {cs : List Char} {negative : Bool} {n : Nat}
    (h : splitSign cs = (negative, digitChars n)) :
    integer? cs = some (if negative then -(n : Int) else n) := by
  have hall : (digitChars n).all Char.isDigit = true :=
    List.all_eq_true.2 fun c hc => isDigit_of_mem_digitChars hc
  have hempty : (digitChars n).isEmpty = false :=
    List.isEmpty_eq_false_iff.2 (digitChars_ne_nil n)
  simp [integer?, h, hall, hempty]

/-- An integer is the integer that its text is. -/
@[simp] theorem integer?_integerChars (n : Int) : integer? (Number.integerChars n) = some n := by
  have hsplit : splitSign (Number.integerChars n) = (decide (n < 0), digitChars n.natAbs) := by
    rw [Number.integerChars]
    by_cases hneg : n < 0
    · simp [hneg, splitSign]
    · simp [hneg, splitSign_digitChars]
  rw [integer?_of_splitSign hsplit]
  congr 1
  by_cases hneg : n < 0
  · rw [if_pos (decide_eq_true hneg)]
    omega
  · rw [if_neg (by simpa using hneg)]
    omega

/-- What is no sign stands behind the sign. -/
theorem mem_splitSign {cs : List Char} {c : Char} (hmem : c ∈ cs) (hsign : ¬(c = '-' ∨ c = '+')) :
    c ∈ (splitSign cs).2 := by
  rw [splitSign.eq_def]
  split
  · exact (List.mem_cons.1 hmem).resolve_left fun h => hsign (.inl h)
  · exact (List.mem_cons.1 hmem).resolve_left fun h => hsign (.inr h)
  · exact hmem

/-- An integer has only digits behind its sign. -/
theorem integer?_eq_none {cs : List Char} {c : Char} (hmem : c ∈ cs) (hdigit : c.isDigit = false)
    (hsign : ¬(c = '-' ∨ c = '+')) : integer? cs = none := by
  have hall : (splitSign cs).2.all Char.isDigit = false := by
    rw [List.all_eq_false]
    exact ⟨c, mem_splitSign hmem hsign, by rw [hdigit]; decide⟩
  simp [integer?, hall]

theorem mem_dropWhile_isDigit {cs : List Char} {c : Char} (hmem : c ∈ cs)
    (hdigit : c.isDigit = false) : c ∈ cs.dropWhile Char.isDigit := by
  rw [← List.takeWhile_append_dropWhile (p := Char.isDigit) (l := cs), List.mem_append] at hmem
  refine hmem.resolve_left fun htake => ?_
  have hall := List.all_eq_true.1 List.all_takeWhile c htake
  rw [hdigit] at hall
  cases hall

theorem mem_splitFraction {cs : List Char} {c : Char} (hmem : c ∈ cs) (hdigit : c.isDigit = false)
    (hpoint : c ≠ '.') : c ∈ (splitFraction cs).2 := by
  rw [splitFraction.eq_def]
  split
  · exact mem_dropWhile_isDigit ((List.mem_cons.1 hmem).resolve_left hpoint) hdigit
  · exact hmem

/-- A numeral has only digits, signs, a point and the letter of the exponent. -/
theorem ofChars?_eq_none {cs : List Char} {c : Char} (hmem : c ∈ cs) (hdigit : c.isDigit = false)
    (hsign : c ∉ ['-', '+', '.', 'e', 'E']) : ofChars? cs = none := by
  simp only [List.mem_cons, List.not_mem_nil, or_false, not_or] at hsign
  obtain ⟨hminus, hplus, hpoint, hsmall, hcapital⟩ := hsign
  have hnone : ¬(c = '-' ∨ c = '+') := not_or.2 ⟨hminus, hplus⟩
  have hrest : c ∈ (splitFraction ((splitSign cs).2.dropWhile Char.isDigit)).2 :=
    mem_splitFraction (mem_dropWhile_isDigit (mem_splitSign hmem hnone) hdigit) hdigit hpoint
  have hexponent :
      exponent? (splitFraction ((splitSign cs).2.dropWhile Char.isDigit)).2 = none := by
    generalize (splitFraction ((splitSign cs).2.dropWhile Char.isDigit)).2 = rest at hrest
    cases rest with
    | nil => cases hrest
    | cons d rest =>
      rw [exponent?]
      split
      · rename_i hletter
        refine integer?_eq_none ((List.mem_cons.1 hrest).resolve_left ?_) hdigit hnone
        rintro rfl
        exact hletter.elim hsmall hcapital
      · rfl
  simp only [ofChars?, hexponent, Option.map_none]
  split <;> rfl

end Decimal

namespace Number

/-- An integer of 64 bits is the number that its text is. -/
theorem ofChars?_integerChars {n : Int} (h : isSigned64 n = true) :
    ofChars? (integerChars n) = some (.integer n) := by
  rw [ofChars?, Decimal.integer?_integerChars, Option.filter_some, if_pos h]

theorem ofChars?_eq_none {cs : List Char} {c : Char} (hmem : c ∈ cs) (hdigit : c.isDigit = false)
    (hsign : c ∉ ['-', '+', '.', 'e', 'E']) : ofChars? cs = none := by
  have hinteger : Decimal.integer? cs = none :=
    Decimal.integer?_eq_none hmem hdigit (by
      rintro (rfl | rfl)
      · exact hsign (by decide)
      · exact hsign (by decide))
  rw [ofChars?, hinteger, Decimal.ofChars?_eq_none hmem hdigit hsign]
  rfl

/-- The text of an integer is a digit or a minus sign and then digits. -/
theorem integerChars_eq_cons (n : Int) : ∃ c cs, integerChars n = c :: cs ∧
    (c.isDigit = true ∨ c = '-') ∧ ∀ d ∈ cs, d.isDigit = true := by
  rw [integerChars]
  split
  · exact ⟨'-', _, rfl, .inr rfl, fun d hd => Decimal.isDigit_of_mem_digitChars hd⟩
  · cases hdigits : Decimal.digitChars n.natAbs with
    | nil => exact absurd hdigits (Decimal.digitChars_ne_nil _)
    | cons c cs =>
      have hall : ∀ d ∈ c :: cs, d.isDigit = true := fun d hd =>
        Decimal.isDigit_of_mem_digitChars (hdigits ▸ hd)
      exact ⟨c, cs, rfl, .inl (hall c List.mem_cons_self),
        fun d hd => hall d (List.mem_cons_of_mem c hd)⟩

end Number

end RankedRules
