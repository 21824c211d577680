/-
When a computation that may fail succeeds, and when it fails.

What is known of a successful chain of computations is known of each of its parts, and what a chain
fails by, one of its parts fails by. The proofs about readers and evaluations take the chains apart
with these lemmas, in the order of the parts.

* `bind_eq_ok_iff` — a chain succeeds if both parts do;
* `bind_eq_error_iff` — a chain fails by what its first part, or else its second part fails by;
* `map_eq_ok_iff`, `map_eq_error_iff` — a change of the result has no influence on success;
* `mapM_eq_ok_iff`, `mapM_eq_error_iff` — when several computations succeed, and what they fail by;
* `Reader.whole_eq_ok_iff` — a whole text is read if nothing is left behind what is read of it.
-/
import Mathlib.Data.List.Forall2
import RankedRules.Text.Reader

namespace RankedRules

theorem bind_eq_ok_iff {ε α β : Type} {x : Except ε α} {f : α → Except ε β} {b : β} :
    x >>= f = .ok b ↔ ∃ a, x = .ok a ∧ f a = .ok b := by
  cases x with
  | error fault =>
    constructor
    · exact fun h => nomatch h
    · rintro ⟨a, ha, -⟩
      exact nomatch ha
  | ok a =>
    constructor
    · exact fun h => ⟨a, rfl, h⟩
    · rintro ⟨_, ⟨⟩, h⟩
      exact h

theorem bind_eq_error_iff {ε α β : Type} {x : Except ε α} {f : α → Except ε β} {error : ε} :
    x >>= f = .error error ↔ x = .error error ∨ ∃ a, x = .ok a ∧ f a = .error error := by
  cases x with
  | error fault =>
    constructor
    · exact fun h => .inl (congrArg Except.error (Except.error.inj h))
    · rintro (h | ⟨a, ha, -⟩)
      · exact congrArg Except.error (Except.error.inj h)
      · exact nomatch ha
  | ok a =>
    constructor
    · exact fun h => .inr ⟨a, rfl, h⟩
    · rintro (h | ⟨_, ⟨⟩, h⟩)
      · exact nomatch h
      · exact h

theorem map_eq_ok_iff {ε α β : Type} {x : Except ε α} {f : α → β} {b : β} :
    x.map f = .ok b ↔ ∃ a, x = .ok a ∧ f a = b := by
  cases x with
  | error fault =>
    constructor
    · exact fun h => nomatch h
    · rintro ⟨a, ha, -⟩
      exact nomatch ha
  | ok a =>
    constructor
    · exact fun h => ⟨a, rfl, Except.ok.inj h⟩
    · rintro ⟨_, ⟨⟩, rfl⟩
      rfl

theorem map_eq_error_iff {ε α β : Type} {x : Except ε α} {f : α → β} {error : ε} :
    x.map f = .error error ↔ x = .error error := by
  cases x with
  | error fault => exact Iff.of_eq (by rw [Except.map, Except.error.injEq, Except.error.injEq])
  | ok a =>
    constructor
    · exact fun h => nomatch h
    · exact fun h => nomatch h

/-- Several computations succeed if each of them does. -/
theorem mapM_eq_ok_iff {ε α β : Type} {f : α → Except ε β} {items : List α} {results : List β} :
    items.mapM f = .ok results ↔ List.Forall₂ (fun a b => f a = .ok b) items results := by
  induction items generalizing results with
  | nil =>
    rw [List.mapM_nil, List.forall₂_nil_left_iff]
    exact ⟨fun h => (Except.ok.inj h).symm, fun h => h ▸ rfl⟩
  | cons a rest ih =>
    rw [List.mapM_cons, bind_eq_ok_iff, List.forall₂_cons_left_iff]
    refine exists_congr fun b => ?_
    rw [bind_eq_ok_iff]
    constructor
    · rintro ⟨hb, others, hothers, hresults⟩
      exact ⟨others, hb, ih.1 hothers, (Except.ok.inj hresults).symm⟩
    · rintro ⟨others, hb, hothers, rfl⟩
      exact ⟨hb, others, ih.2 hothers, rfl⟩

/-- Several computations fail by what the first one that fails fails by. -/
theorem mapM_eq_error_iff {ε α β : Type} {f : α → Except ε β} {items : List α} {error : ε} :
    items.mapM f = .error error ↔ ∃ front a back, items = front ++ a :: back ∧
      (∀ earlier ∈ front, ∃ b, f earlier = .ok b) ∧ f a = .error error := by
  induction items with
  | nil => simp [pure, Except.pure]
  | cons a rest ih =>
    rw [List.mapM_cons, bind_eq_error_iff]
    constructor
    · rintro (ha | ⟨b, hb, hrest⟩)
      · exact ⟨[], a, rest, rfl, by simp, ha⟩
      · obtain ⟨front, failing, back, rfl, hfront, hfailing⟩ :=
          ih.1 ((bind_eq_error_iff.1 hrest).resolve_right fun ⟨_, _, h⟩ => nomatch h)
        exact ⟨a :: front, failing, back, rfl,
          List.forall_mem_cons.2 ⟨⟨b, hb⟩, hfront⟩, hfailing⟩
    · rintro ⟨front, failing, back, hsplit, hfront, hfailing⟩
      cases front with
      | nil =>
        obtain ⟨rfl, -⟩ := List.cons.inj hsplit
        exact .inl hfailing
      | cons first front =>
        obtain ⟨rfl, rfl⟩ := List.cons.inj hsplit
        obtain ⟨⟨b, hb⟩, hfront⟩ := List.forall_mem_cons.1 hfront
        refine .inr ⟨b, hb, bind_eq_error_iff.2 (.inl ?_)⟩
        exact ih.2 ⟨front, failing, back, rfl, hfront, hfailing⟩

theorem Reader.whole_eq_ok_iff {ε α : Type} {read : Reader ε α} {skip : List Char → List Char}
    {trailing : ε} {text : List Char} {a : α} :
    Reader.whole read skip trailing text = .ok a ↔
      ∃ rest, read text = .ok (a, rest) ∧ skip rest = [] := by
  rw [Reader.whole, bind_eq_ok_iff]
  constructor
  · rintro ⟨⟨found, rest⟩, hread, h⟩
    dsimp only at h
    split at h
    · rename_i hrest
      cases h
      exact ⟨rest, hread, hrest⟩
    · cases h
  · rintro ⟨rest, hread, hrest⟩
    refine ⟨(a, rest), hread, ?_⟩
    dsimp only
    rw [hrest]

end RankedRules
