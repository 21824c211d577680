/-
The language of a wildcard pattern.

A text has the form of a pattern if it can be cut into consecutive pieces, one for each character of
the pattern. A pattern with several stars can have many such cuts; the decision tries none of them,
but goes along the text and asks for each of its ends, and by induction on the pattern it is true
exactly if there is a cut. For a star this takes a second induction, on the text that the star may
take.

* `Wildcard.Takes`, `Wildcard.Cut` — the pieces that a character takes, and a whole cut;
* `Wildcard.form_iff_cut` — the form of a pattern is a cut;
* `Wildcard.form_star_iff`, `Wildcard.form_one_cons_iff` — what the first character of a pattern
  takes of the text;
* `Wildcard.decides_star_iff` — a star takes any run in front of what the rest decides;
* `Wildcard.decides_iff_cut` — the decision is right.
-/
import Mathlib.Data.List.Forall2
import RankedRules.Wildcard

namespace RankedRules.Wildcard

variable {same : Char → Char → Bool} {p c : Char} {pattern text : List Char}

/-- A piece that one character of a pattern takes: any run for a star, one character for a question
mark, and an equal character for any other. -/
inductive Takes (same : Char → Char → Bool) : Char → List Char → Prop
  | star (run : List Char) : Takes same '*' run
  | any (c : Char) : Takes same '?' [c]
  | one {p c : Char} (star : p ≠ '*') (any : p ≠ '?') (equal : same p c = true) : Takes same p [c]

/-- The text can be cut into consecutive pieces, one for each character of the pattern. -/
def Cut (same : Char → Char → Bool) (pattern text : List Char) : Prop :=
  ∃ pieces : List (List Char), pieces.flatten = text ∧ List.Forall₂ (Takes same) pattern pieces

theorem Cut.nil : Cut same [] [] := ⟨[], rfl, .nil⟩

theorem Cut.cons {piece : List Char} (h : Takes same p piece) (hrest : Cut same pattern text) :
    Cut same (p :: pattern) (piece ++ text) := by
  obtain ⟨pieces, rfl, hpieces⟩ := hrest
  exact ⟨piece :: pieces, rfl, .cons h hpieces⟩

/-- The form of a pattern is a cut along it. -/
theorem form_iff_cut : Form same pattern text ↔ Cut same pattern text := by
  constructor
  · intro h
    induction h with
    | nil => exact .nil
    | star run _ ih => exact .cons (.star run) ih
    | any c _ ih => exact .cons (.any c) ih
    | @one p c _ _ hstar hequal _ ih =>
      -- A question mark also has the form of itself; in a cut it takes any character.
      by_cases hany : p = '?'
      · subst hany
        exact .cons (.any c) ih
      · exact .cons (.one hstar hany hequal) ih
  · rintro ⟨pieces, rfl, hpieces⟩
    induction hpieces with
    | nil => exact .nil
    | cons htakes _ ih =>
      cases htakes with
      | star => exact .star _ ih
      | any c => exact .any c ih
      | one hstar _ hequal => exact .one hstar hequal ih

/-! ## The first character of a pattern -/

theorem form_star_iff : Form same ('*' :: pattern) text ↔
    ∃ run rest, text = run ++ rest ∧ Form same pattern rest := by
  constructor
  · intro h
    cases h with
    | star run h => exact ⟨run, _, rfl, h⟩
    | one hstar _ _ => exact absurd rfl hstar
  · rintro ⟨run, rest, rfl, h⟩
    exact .star run h

theorem not_form_one_nil (hp : p ≠ '*') : ¬Form same (p :: pattern) [] := by
  intro h
  generalize htext : [] = text at h
  cases h with
  | star _ _ => exact hp rfl
  | any _ _ => cases htext
  | one _ _ _ => cases htext

theorem form_one_cons_iff (hp : p ≠ '*') : Form same (p :: pattern) (c :: text) ↔
    (p = '?' ∨ same p c = true) ∧ Form same pattern text := by
  constructor
  · intro h
    generalize htext : c :: text = whole at h
    cases h with
    | star _ _ => exact absurd rfl hp
    | any d h =>
      obtain ⟨rfl, rfl⟩ := List.cons.inj htext
      exact ⟨.inl rfl, h⟩
    | one _ hequal h =>
      obtain ⟨rfl, rfl⟩ := List.cons.inj htext
      exact ⟨.inr hequal, h⟩
  · rintro ⟨rfl | hequal, h⟩
    · exact .any c h
    · exact .one hp hequal h

/-! ## The decision -/

/-- A star takes any run in front of what the rest of the pattern decides. -/
theorem decides_star_iff : decides same ('*' :: pattern) text = true ↔
    ∃ run rest, text = run ++ rest ∧ decides same pattern rest = true := by
  induction text with
  | nil =>
    rw [decides_star_nil]
    constructor
    · exact fun h => ⟨[], [], rfl, h⟩
    · rintro ⟨run, rest, hsplit, h⟩
      rwa [(List.append_eq_nil_iff.1 hsplit.symm).2] at h
  | cons c text ih =>
    rw [decides_star_cons, Bool.or_eq_true, ih]
    -- The run is empty, or it begins with `c` and the rest of it is in front of the same end.
    constructor
    · rintro (h | ⟨run, rest, rfl, h⟩)
      · exact ⟨[], c :: text, rfl, h⟩
      · exact ⟨c :: run, rest, rfl, h⟩
    · rintro ⟨run, rest, hsplit, h⟩
      cases run with
      | nil =>
        rw [List.nil_append] at hsplit
        exact .inl (hsplit ▸ h)
      | cons d run =>
        obtain ⟨rfl, rfl⟩ := List.cons.inj hsplit
        exact .inr ⟨run, rest, rfl, h⟩

/-- The decision is true exactly for the texts that have the form of the pattern. -/
theorem decides_iff_form : decides same pattern text = true ↔ Form same pattern text := by
  induction pattern generalizing text with
  | nil =>
    cases text with
    | nil => exact iff_of_true rfl .nil
    | cons c text =>
      rw [decides_nil_cons]
      exact iff_of_false Bool.false_ne_true nofun
  | cons p pattern ih =>
    by_cases hp : p = '*'
    · subst hp
      rw [decides_star_iff, form_star_iff]
      simp only [ih]
    · cases text with
      | nil =>
        rw [decides_one_nil same hp]
        exact iff_of_false Bool.false_ne_true (not_form_one_nil hp)
      | cons c text =>
        rw [decides_one_cons same hp, Bool.and_eq_true, Bool.or_eq_true, decide_eq_true_eq, ih,
          form_one_cons_iff hp]

theorem decides_iff_cut : decides same pattern text = true ↔ Cut same pattern text :=
  decides_iff_form.trans form_iff_cut

end RankedRules.Wildcard
