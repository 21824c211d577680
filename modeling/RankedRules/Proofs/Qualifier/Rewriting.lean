/-
Rewriting conditions.

Members of a condition are evaluated in order and only as far as needed, and each of them may fail.
Still the laws of negation and combination hold as they are: a negation that is moved into a
combination, and a combination that is dissolved in one of its own kind, leave the order of the
members and the member that decides, so the truth value or the first error is the same.

* `Connective.dual` — what a connective becomes under a negation;
* `Qualifier.evaluateAll_append`, `Qualifier.evaluateAll_map_not` — several members, and negated
  ones;
* `Qualifier.Law` — the laws, as a relation between the condition in front and the one behind;
* `Qualifier.Surroundings`, `Qualifier.Rewrites` — what stands around a part of a condition, and a
  law used for the part;
* `Qualifier.evaluate_rewritten` — the laws, and what any number of them changes: nothing.
-/
import Mathlib.Logic.Relation
import RankedRules.Qualifier.Basic

namespace RankedRules

/-- What a connective becomes under a negation. -/
def Connective.dual : Connective → Connective
  | .all => .any
  | .any => .all

theorem Connective.neutral_dual (connective : Connective) :
    connective.dual.neutral = !connective.neutral := by
  cases connective <;> rfl

namespace Qualifier

/-! ## Members -/

section Evaluation

variable {m : Type → Type} [Monad m] [MonadExceptOf EvalError m] {look : Lookup m}
  {connective : Connective}

/-- A combination decides by its members. -/
theorem evaluate_compound (members : List Qualifier) :
    (compound connective members).evaluate look = evaluateAll look connective members := by
  rw [evaluate]

variable [LawfulMonad m]

/-- Members behind others are asked if the others do not decide. -/
theorem evaluateAll_append (front behind : List Qualifier) :
    evaluateAll look connective (front ++ behind) = (do
      let holds ← evaluateAll look connective front
      if holds = connective.neutral then evaluateAll look connective behind else pure holds) := by
  induction front with
  | nil => simp [evaluateAll]
  | cons q front ih =>
    rw [List.cons_append, evaluateAll, evaluateAll, bind_assoc]
    refine bind_congr fun holds => ?_
    -- A member that decides ends both sides, and what decides in front is not asked again.
    by_cases hneutral : holds = connective.neutral
    · rw [if_pos hneutral, if_pos hneutral, ih]
    · rw [if_neg hneutral, if_neg hneutral, pure_bind, if_neg hneutral]

/-- A single member decides alone. -/
theorem evaluateAll_singleton (q : Qualifier) :
    evaluateAll look connective [q] = q.evaluate look := by
  have hsame : ∀ holds : Bool,
      (if holds = connective.neutral then pure connective.neutral else pure holds : m Bool) =
        pure holds := by
    intro holds
    split
    · rename_i hneutral
      rw [hneutral]
    · rfl
  simp only [evaluateAll, hsame, bind_pure]

/-- The negations of members decide by the opposite of what the members decide by. -/
theorem evaluateAll_map_not (members : List Qualifier) :
    evaluateAll look connective.dual (members.map .not) = (do
      let holds ← evaluateAll look connective members
      pure !holds) := by
  induction members with
  | nil => rw [List.map_nil, evaluateAll, evaluateAll, pure_bind, connective.neutral_dual]
  | cons q members ih =>
    rw [List.map_cons, evaluateAll, evaluateAll, evaluate, bind_assoc, bind_assoc]
    refine bind_congr fun holds => ?_
    rw [pure_bind, connective.neutral_dual, ih]
    by_cases hneutral : holds = connective.neutral
    · rw [if_pos hneutral, if_pos (by rw [hneutral])]
    · rw [if_neg hneutral, if_neg (mt Bool.not_inj hneutral), pure_bind]

/-- A negated combination is the opposite combination of the negations. -/
theorem evaluate_not_compound (members : List Qualifier) :
    (not (compound connective members)).evaluate look =
      (compound connective.dual (members.map not)).evaluate look := by
  rw [evaluate, evaluate_compound, evaluate_compound, evaluateAll_map_not]

/-- Two negations are none. -/
theorem evaluate_not_not (q : Qualifier) : (not (not q)).evaluate look = q.evaluate look := by
  rw [evaluate, evaluate, bind_assoc]
  simp only [pure_bind, Bool.not_not, bind_pure]

/-- A combination inside of one of its own kind can be dissolved. -/
theorem evaluate_compound_compound (front inner behind : List Qualifier) :
    (compound connective (front ++ compound connective inner :: behind)).evaluate look =
      (compound connective (front ++ (inner ++ behind))).evaluate look := by
  have hinner : evaluateAll look connective (compound connective inner :: behind) =
      evaluateAll look connective (inner ++ behind) := by
    rw [← List.singleton_append, evaluateAll_append, evaluateAll_append, evaluateAll_singleton,
      evaluate_compound]
  rw [evaluate_compound, evaluate_compound, evaluateAll_append, evaluateAll_append, hinner]

/-- A member can be replaced by one that is evaluated alike. -/
theorem evaluateAll_congr {p q : Qualifier} (h : p.evaluate look = q.evaluate look)
    (front behind : List Qualifier) :
    evaluateAll look connective (front ++ p :: behind) =
      evaluateAll look connective (front ++ q :: behind) := by
  rw [evaluateAll_append, evaluateAll_append, evaluateAll, evaluateAll, h]

end Evaluation

/-! ## Laws and where they are used -/

/-- The laws of negation and combination. -/
inductive Law : Qualifier → Qualifier → Prop
  | negated (connective : Connective) (members : List Qualifier) :
      Law (not (compound connective members)) (compound connective.dual (members.map not))
  | twice (q : Qualifier) : Law (not (not q)) q
  | dissolved (connective : Connective) (front inner behind : List Qualifier) :
      Law (compound connective (front ++ compound connective inner :: behind))
        (compound connective (front ++ (inner ++ behind)))

/-- What stands around a part of a condition: nothing if the part is the whole condition, and else
negations and combinations with their other members. -/
inductive Surroundings
  | whole
  | negation (inner : Surroundings)
  | member (connective : Connective) (front : List Qualifier) (inner : Surroundings)
      (behind : List Qualifier)

/-- The condition with `q` as the part. -/
def Surroundings.fill (q : Qualifier) : Surroundings → Qualifier
  | .whole => q
  | .negation inner => not (inner.fill q)
  | .member connective front inner behind =>
    compound connective (front ++ inner.fill q :: behind)

/-- A law is used for one part of a condition. -/
inductive Rewrites : Qualifier → Qualifier → Prop
  | within (outer : Surroundings) {p q : Qualifier} (law : Law p q) :
      Rewrites (outer.fill p) (outer.fill q)

section Evaluation

variable {m : Type → Type} [Monad m] [LawfulMonad m] [MonadExceptOf EvalError m] {look : Lookup m}
  {p q : Qualifier}

theorem Law.evaluate_eq (h : Law p q) : p.evaluate look = q.evaluate look := by
  cases h with
  | negated connective members => exact evaluate_not_compound members
  | twice => exact evaluate_not_not q
  | dissolved connective front inner behind => exact evaluate_compound_compound front inner behind

/-- The whole is evaluated alike if the part is. -/
theorem Surroundings.evaluate_fill_congr (h : p.evaluate look = q.evaluate look)
    (outer : Surroundings) : (outer.fill p).evaluate look = (outer.fill q).evaluate look := by
  induction outer with
  | whole => exact h
  | negation inner ih => rw [fill, fill, evaluate, evaluate, ih]
  | member connective front inner behind ih =>
    rw [fill, fill, evaluate_compound, evaluate_compound]
    exact evaluateAll_congr ih front behind

theorem Rewrites.evaluate_eq (h : Rewrites p q) : p.evaluate look = q.evaluate look := by
  obtain ⟨outer, law⟩ := h
  exact outer.evaluate_fill_congr law.evaluate_eq

/-- Any number of laws, used in either direction for any parts, do not change what a condition is
evaluated to. -/
theorem evaluate_eq_of_eqvGen (h : Relation.EqvGen Rewrites p q) :
    p.evaluate look = q.evaluate look := by
  induction h with
  | rel _ _ hstep => exact hstep.evaluate_eq
  | refl _ => rfl
  | symm _ _ _ ih => exact ih.symm
  | trans _ _ _ _ _ ihfront ihbehind => exact ihfront.trans ihbehind

end Evaluation

/-- The laws hold for the truth value and for the error: a negation is moved into a combination, two
negations are none, and a combination is dissolved in one of its own kind. So a part of a condition
can be replaced by what the laws make of it. -/
theorem evaluate_rewritten (look : Lookup (Except EvalError)) :
    (∀ members : List Qualifier, (not (compound .all members)).evaluate look =
      (compound .any (members.map not)).evaluate look) ∧
    (∀ members : List Qualifier, (not (compound .any members)).evaluate look =
      (compound .all (members.map not)).evaluate look) ∧
    (∀ q : Qualifier, (not (not q)).evaluate look = q.evaluate look) ∧
    (∀ (connective : Connective) (front inner behind : List Qualifier),
      (compound connective (front ++ compound connective inner :: behind)).evaluate look =
        (compound connective (front ++ (inner ++ behind))).evaluate look) ∧
    ∀ (outer : Surroundings) (p q : Qualifier), Relation.EqvGen Rewrites p q →
      (outer.fill p).evaluate look = (outer.fill q).evaluate look := by
  refine ⟨?_, ?_, evaluate_not_not, ?_, ?_⟩
  · exact fun members => evaluate_not_compound members
  · exact fun members => evaluate_not_compound members
  · exact fun _ front inner behind => evaluate_compound_compound front inner behind
  · exact fun outer p q h => outer.evaluate_fill_congr (evaluate_eq_of_eqvGen h)

/-! ## A condition that cannot be evaluated -/

namespace Unsupported

def outer : Surroundings :=
  .member .all [.compare "page" .equal (.string "Main")] .whole []

/-- The error comes from the first member, wherever the negations stand. -/
def before : Qualifier :=
  not (compound .any [not (not (unsupported "SQL" 5)), constant true])

def after : Qualifier :=
  compound .all [not (unsupported "SQL" 5), not (constant true)]

theorem rewritten : Relation.EqvGen Rewrites before after := by
  have hmoved : Rewrites before (compound .all
      [not (not (not (unsupported "SQL" 5))), not (constant true)]) :=
    .within .whole (.negated .any [not (not (unsupported "SQL" 5)), constant true])
  have htwice : Rewrites
      (compound .all [not (not (not (unsupported "SQL" 5))), not (constant true)]) after :=
    .within (.member .all [] .whole [not (constant true)]) (.twice (not (unsupported "SQL" 5)))
  exact .trans _ _ _ (.rel _ _ hmoved) (.rel _ _ htwice)

end Unsupported

theorem evaluate_rewritten_unsupported :
    Relation.EqvGen Rewrites Unsupported.before Unsupported.after ∧
      (Unsupported.outer.fill Unsupported.before).evaluate
          (Lookup.ofEntries [("page", .string "Main")]) =
        (Unsupported.outer.fill Unsupported.after).evaluate
          (Lookup.ofEntries [("page", .string "Main")]) ∧
      (Unsupported.outer.fill Unsupported.after).evaluate
          (Lookup.ofEntries [("page", .string "Main")]) =
        .error (.unsupportedQualifier "SQL") := by
  obtain ⟨-, -, -, -, houter⟩ := evaluate_rewritten (Lookup.ofEntries [("page", .string "Main")])
  exact ⟨Unsupported.rewritten, houter _ _ _ Unsupported.rewritten, rfl⟩

end Qualifier

end RankedRules
