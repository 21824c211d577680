/-
The classes of characters do not overlap.

What reads a text stops where another class begins. So it matters that no blank is a letter or a
digit, in any script, and that none of the signs is a blank.

* `Text.isAlphanumeric_of_isBlank` — no blank is alphanumeric;
* `Text.toUpper_of_isBlank` — the case of a blank is not changed;
* `Text.ne_of_isBlank` — a blank is none of the signs that are not;
* `Text.isBlank_of_isDigit`, `Text.isBlank_of_isAlpha` — and no ASCII digit or letter;
* `Text.takeWhile_append_of_stop` — the run of a class ends where another class begins.
-/
import Mathlib.Data.List.TakeWhile
import RankedRules.Text.Alphanumeric
import RankedRules.Text.Blank

namespace RankedRules.Text

-- The two instances below are preferred to one that goes through all the characters there are.

/-- What holds of all characters of a text is decided by going through the text. -/
instance decidableForallMem (p : Char → Prop) [DecidablePred p] (text : List Char) :
    Decidable (∀ c ∈ text, p c) := List.decidableBAll p text

instance decidableForallMemOption (p : Char → Prop) [DecidablePred p] (first : Option Char) :
    Decidable (∀ c ∈ first, p c) := Option.decidableForallMem first

/-- The ranges of alphanumeric characters lie between the blanks. -/
theorem alphanumericRanges_beside_blanks : ∀ range ∈ alphanumericRanges,
    (range.2 < 0x09 ∨ 0x0d < range.1) ∧ (range.2 < 0x20 ∨ 0x20 < range.1) ∧
      (range.2 < 0x85 ∨ 0x85 < range.1) ∧ (range.2 < 0xa0 ∨ 0xa0 < range.1) ∧
      (range.2 < 0x1680 ∨ 0x1680 < range.1) ∧ (range.2 < 0x2000 ∨ 0x200a < range.1) ∧
      (range.2 < 0x2028 ∨ 0x2029 < range.1) ∧ (range.2 < 0x202f ∨ 0x202f < range.1) ∧
      (range.2 < 0x205f ∨ 0x205f < range.1) ∧ (range.2 < 0x3000 ∨ 0x3000 < range.1) := by
  decide +kernel

theorem isBlank_iff {c : Char} :
    isBlank c = true ↔
      0x09 ≤ c.toNat ∧ c.toNat ≤ 0x0d ∨ c.toNat = 0x20 ∨ c.toNat = 0x85 ∨ c.toNat = 0xa0 ∨
        c.toNat = 0x1680 ∨ 0x2000 ≤ c.toNat ∧ c.toNat ≤ 0x200a ∨ c.toNat = 0x2028 ∨
        c.toNat = 0x2029 ∨ c.toNat = 0x202f ∨ c.toNat = 0x205f ∨ c.toNat = 0x3000 := by
  simp only [isBlank, Bool.or_eq_true, Bool.and_eq_true, decide_eq_true_eq, beq_iff_eq, or_assoc]

theorem toNat_of_isDigit {c : Char} (h : c.isDigit = true) : 0x30 ≤ c.toNat ∧ c.toNat ≤ 0x39 := by
  simpa [Char.isDigit, UInt32.le_iff_toNat_le] using h

theorem toNat_of_isAlpha {c : Char} (h : c.isAlpha = true) :
    0x41 ≤ c.toNat ∧ c.toNat ≤ 0x5a ∨ 0x61 ≤ c.toNat ∧ c.toNat ≤ 0x7a := by
  have hcase : (c.isUpper || c.isLower) = true := h
  rcases Bool.or_eq_true_iff.1 hcase with hupper | hlower
  · have hrange : 'A'.val ≤ c.val ∧ c.val ≤ 'Z'.val := of_decide_eq_true hupper
    exact .inl ⟨UInt32.le_iff_toNat_le.1 hrange.1, UInt32.le_iff_toNat_le.1 hrange.2⟩
  · have hrange := Bool.and_eq_true_iff.1 hlower
    exact .inr ⟨UInt32.le_iff_toNat_le.1 (of_decide_eq_true hrange.1),
      UInt32.le_iff_toNat_le.1 (of_decide_eq_true hrange.2)⟩

theorem isBlank_of_isDigit {c : Char} (h : c.isDigit = true) : isBlank c = false := by
  have hrange := toNat_of_isDigit h
  rw [← Bool.not_eq_true, isBlank_iff]
  omega

theorem isBlank_of_isAlpha {c : Char} (h : c.isAlpha = true) : isBlank c = false := by
  have hrange := toNat_of_isAlpha h
  rw [← Bool.not_eq_true, isBlank_iff]
  omega

theorem isAlphanumeric_of_isBlank {c : Char} (h : isBlank c = true) : isAlphanumeric c = false := by
  have hdigit : c.isDigit = false := by
    cases hc : c.isDigit with
    | false => rfl
    | true =>
      rw [isBlank_of_isDigit hc] at h
      cases h
  have halpha : c.isAlpha = false := by
    cases hc : c.isAlpha with
    | false => rfl
    | true =>
      rw [isBlank_of_isAlpha hc] at h
      cases h
  rw [isAlphanumeric, Char.isAlphanum, halpha, hdigit, Bool.false_or, Bool.false_or]
  refine List.any_eq_false.2 fun range hrange => ?_
  have hbeside := alphanumericRanges_beside_blanks range hrange
  rw [isBlank_iff] at h
  simp only [Bool.and_eq_true, decide_eq_true_eq]
  omega

/-- A blank is a different character from any that is none. -/
theorem ne_of_isBlank {c d : Char} (h : isBlank c = true) (hd : isBlank d = false) : c ≠ d := by
  rintro rfl
  rw [h] at hd
  cases hd

theorem toUpper_of_isBlank {c : Char} (h : isBlank c = true) : c.toUpper = c := by
  have hcase : ¬('a'.val ≤ c.val ∧ c.val ≤ 'z'.val) := by
    rw [isBlank_iff] at h
    simp only [UInt32.le_iff_toNat_le, Char.toNat] at h ⊢
    have ha : 'a'.val.toNat = 0x61 := rfl
    have hz : 'z'.val.toNat = 0x7a := rfl
    omega
  exact dif_neg hcase

/-- What a number begins with is no quote. -/
theorem not_quote_of_isDigit {c : Char} (h : c.isDigit = true ∨ c = '-') :
    ¬(c = '"' ∨ c = '\'') := by
  rintro (rfl | rfl) <;> simp [Char.isDigit] at h

/-- A run of a class does not get longer by what does not belong to it. -/
theorem takeWhile_append_of_head {p : Char → Bool} {rest : List Char}
    (hrest : ∀ c ∈ rest.head?, p c = false) (cs : List Char) :
    (cs ++ rest).takeWhile p = cs.takeWhile p ∧
      (cs ++ rest).dropWhile p = cs.dropWhile p ++ rest := by
  induction cs with
  | nil =>
    cases rest with
    | nil => exact ⟨rfl, rfl⟩
    | cons c rest =>
      have hc : p c = false := hrest c rfl
      simp [hc]
  | cons c cs ih =>
    cases hc : p c with
    | false => simp [hc]
    | true => simp [hc, ih]

/-- The longest run of a class in front of what does not belong to it. -/
theorem takeWhile_append_of_stop {p : Char → Bool} {cs rest : List Char}
    (hcs : ∀ c ∈ cs, p c = true) (hrest : ∀ c ∈ rest.head?, p c = false) :
    (cs ++ rest).takeWhile p = cs ∧ (cs ++ rest).dropWhile p = rest := by
  obtain ⟨htake, hdrop⟩ := takeWhile_append_of_head hrest cs
  rw [htake, hdrop, List.takeWhile_eq_self_iff.2 hcs, List.dropWhile_eq_nil_iff.2 hcs]
  exact ⟨rfl, List.nil_append rest⟩

end RankedRules.Text
