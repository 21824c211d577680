/-
Taking one value after the other.

The values of a path are asked for while another path takes one value after the other, all in the
same context. Nothing of an earlier value is left by the time of a later one, for of two writes at
one path only the later one counts, whatever objects the earlier one made on its way. So each value
is found as in a copy that has taken nothing else, and the first copy that fails is the failure of
all.

* `Context.pathTaking` — the value at a path in a copy that has taken a value;
* `Context.TakesAlike` — two contexts of which a write at a path makes the same;
* `Context.whileTaking_eq_mapM` — each value is found as in a copy;
* `Context.takePath_getLast` — and the last value stays;
* `Context.whileTaking_independent` — so the run succeeds exactly if all copies do.
-/
import Mathlib.Data.List.Forall2
import RankedRules.Proofs.Context.Writes

namespace RankedRules.Context

variable {c d taken : Context} {path valuePath : String} {segments : List String} {value : Value}

/-- The value at a path in a copy that has taken a value at another path. -/
def pathTaking (c : Context) (path valuePath : String) (value : Value) :
    Except EvalError (Option Value) := do
  let taken ← c.takePath value valuePath
  taken.path path

/-! ## One value -/

theorem pathTaking_eq (htaken : c.takePath value valuePath = .ok taken) (path : String) :
    c.pathTaking path valuePath value = taken.path path := by
  rw [pathTaking, htaken]
  rfl

/-- Taking a value, asking and going on with the others. -/
theorem whileTaking_cons (htaken : c.takePath value valuePath = .ok taken) (path : String)
    (rest : List Value) :
    (c.whileTaking path valuePath (value :: rest)).1 =
      taken.path path >>= fun found =>
        (taken.whileTaking path valuePath rest).1 >>= fun others => pure (found :: others) := by
  rw [whileTaking, htaken]
  simp only
  cases taken.path path with
  | error error => rfl
  | ok found =>
    simp only
    cases (taken.whileTaking path valuePath rest).1 <;> rfl

theorem whileTaking_last {found : Option Value}
    (htaken : c.takePath value valuePath = .ok taken) (hfound : taken.path path = .ok found)
    (rest : List Value) :
    (c.whileTaking path valuePath (value :: rest)).2 =
      (taken.whileTaking path valuePath rest).2 := by
  rw [whileTaking, htaken]
  simp only [hfound]

/-! ## No residue -/

/-- What a write at the path makes of one context, it makes of the other one. -/
def TakesAlike (valuePath : String) (c d : Context) : Prop :=
  ∀ value, d.takePath value valuePath = c.takePath value valuePath

/-- A context that has taken a value takes the next one as if it had not. -/
theorem takesAlike_of_takePath (hc : c.IsOrdered)
    (hpath : KeyPath.segments? valuePath = some segments)
    (htaken : c.takePath value valuePath = .ok taken) : TakesAlike valuePath c taken :=
  takePath_takePath hc hpath htaken

/-- In every context that takes values like `c`, each value is found as in a copy of `c`. -/
theorem TakesAlike.whileTaking_eq_mapM (h : TakesAlike valuePath c d) (hc : c.IsOrdered)
    (hpath : KeyPath.segments? valuePath = some segments) (path : String) (values : List Value) :
    (d.whileTaking path valuePath values).1 = values.mapM (c.pathTaking path valuePath) := by
  -- The copies are those of `c` all the time; the run goes on in another context after each value.
  induction values generalizing d with
  | nil => rfl
  | cons value rest ih =>
    obtain ⟨taken, htaken⟩ : ∃ taken, c.takePath value valuePath = .ok taken :=
      ⟨_, takePath_eq hpath c value⟩
    rw [whileTaking_cons ((h value).trans htaken), ih (takesAlike_of_takePath hc hpath htaken),
      List.mapM_cons, pathTaking_eq htaken]

/-- After a successful run the last value is stored, and no other one. -/
theorem TakesAlike.takePath_getLast (h : TakesAlike valuePath c d) (hc : c.IsOrdered)
    (hpath : KeyPath.segments? valuePath = some segments) {values : List Value}
    {results : List (Option Value)} {last : Value}
    (hresults : (d.whileTaking path valuePath values).1 = .ok results)
    (hlast : values.getLast? = some last) :
    c.takePath last valuePath = .ok (d.whileTaking path valuePath values).2 := by
  induction values generalizing d results with
  | nil => cases hlast
  | cons value rest ih =>
    obtain ⟨taken, htaken⟩ : ∃ taken, c.takePath value valuePath = .ok taken :=
      ⟨_, takePath_eq hpath c value⟩
    have htaken' := (h value).trans htaken
    rw [whileTaking_cons htaken', bind_eq_ok_iff] at hresults
    obtain ⟨found, hfound, hresults⟩ := hresults
    obtain ⟨others, hothers, -⟩ := bind_eq_ok_iff.1 hresults
    rw [whileTaking_last htaken' hfound]
    cases rest with
    | nil =>
      cases hlast
      exact htaken
    | cons next rest =>
      exact ih (takesAlike_of_takePath hc hpath htaken) hothers hlast

/-- While a path takes one value after the other, each value is found as in a copy that has taken
this one only. The run succeeds exactly if all copies do, and then with their results, and the last
value stays; otherwise it fails by what the first copy that fails fails by. -/
theorem whileTaking_independent (hc : c.IsOrdered)
    (hpath : KeyPath.segments valuePath = .ok segments) (path : String) (values : List Value) :
    (∀ results, (c.whileTaking path valuePath values).1 = .ok results ↔
      List.Forall₂ (fun value found => c.pathTaking path valuePath value = .ok found)
        values results) ∧
    (∀ results last, (c.whileTaking path valuePath values).1 = .ok results →
      values.getLast? = some last →
      c.takePath last valuePath = .ok (c.whileTaking path valuePath values).2) ∧
    ∀ error, (c.whileTaking path valuePath values).1 = .error error ↔
      ∃ front value back, values = front ++ value :: back ∧
        (∀ earlier ∈ front, ∃ found, c.pathTaking path valuePath earlier = .ok found) ∧
        c.pathTaking path valuePath value = .error error := by
  have hpath := segments?_of_segments hpath
  have halike : TakesAlike valuePath c c := fun _ => rfl
  rw [halike.whileTaking_eq_mapM hc hpath path values]
  refine ⟨fun results => mapM_eq_ok_iff, fun results last hresults hlast => ?_,
    fun error => mapM_eq_error_iff⟩
  rw [← halike.whileTaking_eq_mapM hc hpath path values] at hresults
  exact halike.takePath_getLast hc hpath hresults hlast

/-- A key that is read from a member of what is no object, is given for null, and reads itself for
one value of the member. -/
def turning : Context where
  model := some
    ⟨[⟨some (.compare "a.b" .equal (.string "x")), some (.reference "c" "c"), 200⟩,
      ⟨some (.compare "a.b" .equal .null), some (.assign "c" (.bool false)), 100⟩,
      ⟨some (.constant true), some (.reference "c" "a.b"), 0⟩]⟩
  stored := [("a", .string "y")]

theorem isOrdered_turning : turning.IsOrdered := by
  refine .object (List.pairwise_singleton _ _) fun member hmember => ?_
  rw [List.mem_singleton.1 hmember]
  exact .string "y"

/-- The copy that has an object with these members in place of the string. -/
def turned (members : List (String × Value)) : Context :=
  { turning with stored := [("a", .object members)] }

theorem whileTaking_independent_turning :
    turning.IsOrdered ∧ KeyPath.segments "a.b" = .ok ["a", "b"] ∧
    (turning.whileTaking "c" "a.b" [.object [("d", .null)], .null, .string "z"]).1 =
      .ok [some (.object [("d", .null)]), some (.bool false), some (.string "z")] ∧
    (turning.whileTaking "c" "a.b" [.object [("d", .null)], .null, .string "z"]).2 =
      turned [("b", .string "z")] ∧
    (turning.whileTaking "c" "a.b" [.null, .string "x", .string "z"]).1 =
      .error (.cyclicReference ["c", "c"]) := by
  have hpath : KeyPath.segments "a.b" = .ok ["a", "b"] := rfl
  have takesObject : turning.takePath (.object [("d", .null)]) "a.b" =
      .ok (turned [("b", .object [("d", .null)])]) := rfl
  have takesNull : turning.takePath .null "a.b" = .ok (turned []) := rfl
  have takesX : turning.takePath (.string "x") "a.b" = .ok (turned [("b", .string "x")]) := rfl
  have takesZ : turning.takePath (.string "z") "a.b" = .ok (turned [("b", .string "z")]) := rfl
  obtain ⟨hall, hlast, -⟩ := whileTaking_independent isOrdered_turning hpath "c"
    [.object [("d", .null)], .null, .string "z"]
  obtain ⟨-, -, hfailing⟩ := whileTaking_independent isOrdered_turning hpath "c"
    [.null, .string "x", .string "z"]
  have hresults := (hall [some (.object [("d", .null)]), some (.bool false),
    some (.string "z")]).2 (.cons (pathTaking_eq takesObject "c")
      (.cons (pathTaking_eq takesNull "c") (.cons (pathTaking_eq takesZ "c") .nil)))
  have hstored := hlast _ (.string "z") hresults rfl
  rw [takesZ] at hstored
  refine ⟨isOrdered_turning, hpath, hresults, (Except.ok.inj hstored).symm, (hfailing _).2 ?_⟩
  refine ⟨[.null], .string "x", [.string "z"], rfl, ?_, pathTaking_eq takesX "c"⟩
  exact List.forall_mem_singleton.2 ⟨some (.bool false), pathTaking_eq takesNull "c"⟩

end RankedRules.Context
