/-
Storing an inferred value changes no answer.

Whether a key has a value may depend on the keys in progress: it may be a cycle while some of them
are. Here keys are first evaluated without regard to the keys in progress, to a depth of nesting
beyond which all counts as a cycle. A key settles if this gives a result at some depth. Keys that
settle and keys that do not are kept apart by two facts.

* `Context.reader_related_unguarded` — a key whose value is no cycle, whatever is in progress,
  settles with that value;
* `Context.unguarded_related_reader` — a key that settles at a depth at which no key in progress
  does has the value it settles with. So a key that settles is never waited for by a key in
  progress that does not;
* `Context.value_take_value` — a context that stores the value of a key gives every key the value
  it had;
* `Context.path_take_value` — and every path.
-/
import RankedRules.Proofs.Inference.Present
import RankedRules.Proofs.Inference.Reads

namespace RankedRules

/-- The evaluation found a cycle. -/
def IsCycle {α : Type} (result : Except EvalError α) : Prop :=
  ∃ chain, result = .error (.cyclicReference chain)

theorem not_isCycle_ok {α : Type} (a : α) : ¬IsCycle (.ok a : Except EvalError α) := by
  rintro ⟨chain, hchain⟩
  exact nomatch hchain

/-- Two results are the same unless the first is a cycle. As cycles are passed on, this is a
simulation. -/
def Simulation.unlessCycle : Simulation (Except EvalError) (Except EvalError) where
  Related x y := IsCycle x ∨ x = y
  related_pure _ := .inr rfl
  related_throw _ _ := .inr rfl
  related_bind {_ _ x _ _ _} hxy hfg := by
    rcases hxy with ⟨chain, rfl⟩ | rfl
    · exact .inl ⟨chain, rfl⟩
    · cases x with
      | error error => exact .inr rfl
      | ok a => exact hfg a
  related_recover _ _ _ h := by
    rcases h with ⟨chain, rfl⟩ | rfl
    · exact .inl ⟨chain, rfl⟩
    · exact .inr rfl

namespace Context

/-- The value of a key without regard to the keys in progress. Beyond the depth all is a cycle. -/
def unguarded (c : Context) : Nat → Lookup (Except EvalError)
  | 0, _ => .error (.cyclicReference [])
  | depth + 1, key =>
    if key.isEmpty then
      .ok none
    else
      match c.storedValue key with
      | some value => .ok (some value)
      | none => fireFirst (c.unguarded depth) (c.rulesFor key)

variable {c : Context} {active : List String} {depth : Nat} {key : String}

theorem unguarded_of_empty (h : key = "") : c.unguarded (depth + 1) key = .ok none := by
  subst h
  rfl

theorem unguarded_of_stored (hkey : key ≠ "") {value : Value}
    (h : c.storedValue key = some value) : c.unguarded (depth + 1) key = .ok (some value) := by
  rw [unguarded, if_neg (by simpa using hkey), h]

theorem unguarded_of_unstored (hkey : key ≠ "") (h : c.storedValue key = none) :
    c.unguarded (depth + 1) key = fireFirst (c.unguarded depth) (c.rulesFor key) := by
  rw [unguarded, if_neg (by simpa using hkey), h]

/-! ## Settled keys -/

theorem unguarded_succ (depth : Nat) (key : String) :
    IsCycle (c.unguarded depth key) ∨ c.unguarded depth key = c.unguarded (depth + 1) key := by
  induction depth generalizing key with
  | zero => exact .inl ⟨[], rfl⟩
  | succ depth ih =>
    by_cases hkey : key = ""
    · exact .inr (by rw [unguarded_of_empty hkey, unguarded_of_empty hkey])
    cases hstored : c.storedValue key with
    | some value =>
      exact .inr (by rw [unguarded_of_stored hkey hstored, unguarded_of_stored hkey hstored])
    | none =>
      rw [unguarded_of_unstored hkey hstored, unguarded_of_unstored hkey hstored]
      exact Simulation.unlessCycle.fireFirst fun other _ => ih other

/-- A settled key keeps its value as the depth grows. -/
theorem unguarded_mono {more : Nat} (h : depth ≤ more) (key : String) :
    IsCycle (c.unguarded depth key) ∨ c.unguarded depth key = c.unguarded more key := by
  induction h with
  | refl => exact .inr rfl
  | step _ ih =>
    rcases ih with hcycle | heq
    · exact .inl hcycle
    · rw [heq]
      exact c.unguarded_succ _ key

theorem settled_mono {more : Nat} {value : Option Value} (h : c.unguarded depth key = .ok value)
    (hle : depth ≤ more) : c.unguarded more key = .ok value := by
  rcases c.unguarded_mono hle key with hcycle | heq
  · exact absurd (h ▸ hcycle) (not_isCycle_ok value)
  · rw [← heq, h]

/-- A key whose value is no cycle, whatever is in progress, settles with that value. -/
theorem reader_related_unguarded (h : c.room active key < depth) :
    IsCycle (c.reader active key) ∨ c.reader active key = c.unguarded depth key := by
  induction depth generalizing active key with
  | zero => exact absurd h (Nat.not_lt_zero _)
  | succ depth ih =>
    rcases c.reader_cases active key with ⟨hkey, hr⟩ | ⟨value, hkey, hstored, hr⟩ |
      ⟨front, back, -, -, hr⟩ | ⟨hkey, hstored, hfresh, hr⟩
    · exact .inr (by rw [hr, unguarded_of_empty hkey])
    · exact .inr (by rw [hr, unguarded_of_stored hkey hstored])
    · exact .inl ⟨_, hr⟩
    · rw [hr, unguarded_of_unstored hkey hstored]
      refine Simulation.unlessCycle.fireFirst fun other hother => ih ?_
      have := room_lt (hfresh other hother) (Reads.mem_mentioned hother)
      omega

/-- A key that settles at a depth at which no key in progress does has the value it settles
with. -/
theorem unguarded_related_reader
    (h : ∀ waiting ∈ active, IsCycle (c.unguarded depth waiting)) :
    IsCycle (c.unguarded depth key) ∨ c.unguarded depth key = c.reader active key := by
  induction depth generalizing active key with
  | zero => exact .inl ⟨[], rfl⟩
  | succ depth ih =>
    have hactive : ∀ waiting ∈ active, IsCycle (c.unguarded depth waiting) := by
      intro waiting hwaiting
      rcases c.unguarded_succ depth waiting with hcycle | heq
      · exact hcycle
      · rw [heq]
        exact h waiting hwaiting
    -- If the key settles at a smaller depth, that is enough; otherwise no key in progress, nor the
    -- key itself, settles at that depth, and the keys that are read can be put to it.
    by_cases hkeyCycle : IsCycle (c.unguarded depth key)
    · rcases c.reader_cases active key with ⟨hkey, hr⟩ | ⟨value, hkey, hstored, hr⟩ |
        ⟨front, back, -, hmem, hr⟩ | ⟨hkey, hstored, -, hr⟩
      · exact .inr (by rw [hr, unguarded_of_empty hkey])
      · exact .inr (by rw [hr, unguarded_of_stored hkey hstored])
      · exact .inl (h key (by simp [hmem]))
      · rw [hr, unguarded_of_unstored hkey hstored]
        refine Simulation.unlessCycle.fireFirst fun other _ => ih ?_
        exact List.forall_mem_append.2 ⟨hactive, by simpa using hkeyCycle⟩
    · rw [← (c.unguarded_succ depth key).resolve_left hkeyCycle]
      exact ih hactive

/-- Contexts over the same rules that store the same values under all keys but one differ no more,
without regard to the keys in progress, than they do at that key. -/
theorem unguarded_related_of_key {d : Context} (shift : Nat)
    (hrules : ∀ other, d.rulesFor other = c.rulesFor other)
    (hothers : ∀ other, other ≠ key → d.storedValue other = c.storedValue other)
    (hkey : ∀ depth, IsCycle (c.unguarded depth key) ∨
      c.unguarded depth key = d.unguarded (depth + shift) key) (depth : Nat) (other : String) :
    IsCycle (c.unguarded depth other) ∨
      c.unguarded depth other = d.unguarded (depth + shift) other := by
  induction depth generalizing other with
  | zero => exact .inl ⟨[], rfl⟩
  | succ depth ih =>
    by_cases hother : other = key
    · rw [hother]
      exact hkey _
    rw [Nat.succ_add]
    by_cases hempty : other = ""
    · exact .inr (by rw [unguarded_of_empty hempty, unguarded_of_empty hempty])
    cases hstored : c.storedValue other with
    | some value =>
      have hd : d.storedValue other = some value := by rw [hothers other hother, hstored]
      exact .inr (by rw [unguarded_of_stored hempty hstored, unguarded_of_stored hempty hd])
    | none =>
      have hd : d.storedValue other = none := by rw [hothers other hother, hstored]
      rw [unguarded_of_unstored hempty hstored, unguarded_of_unstored hempty hd, hrules]
      exact Simulation.unlessCycle.fireFirst fun k _ => ih k

/-! ## Storing the value of a settled key -/

/-- The second context is the first one with a value stored under a key that settles with it. -/
structure Materialises (c d : Context) (key : String) (value : Value) : Prop where
  model : d.model = c.model
  stored : d.storedValue key = some value
  others : ∀ other, other ≠ key → d.storedValue other = c.storedValue other
  settles : ∃ depth, c.unguarded depth key = .ok (some value)

namespace Materialises

variable {d : Context} {value : Value} (h : Materialises c d key value)

include h

theorem rulesFor_eq (other : String) : d.rulesFor other = c.rulesFor other := by
  rw [rulesFor, rulesFor, h.model]

theorem ne_empty : key ≠ "" := by
  intro hkey
  obtain ⟨depth, hdepth⟩ := h.settles
  cases depth with
  | zero => cases hdepth
  | succ depth =>
    rw [unguarded_of_empty hkey] at hdepth
    cases hdepth

/-- Where a key settles, it settles with the stored value as well. -/
theorem unguarded_related (depth : Nat) (other : String) :
    IsCycle (c.unguarded depth other) ∨ c.unguarded depth other = d.unguarded depth other := by
  obtain ⟨settled, hsettled⟩ := h.settles
  refine unguarded_related_of_key 0 h.rulesFor_eq h.others (fun depth => ?_) depth other
  cases depth with
  | zero => exact .inl ⟨[], rfl⟩
  | succ depth =>
    rw [Nat.add_zero, unguarded_of_stored h.ne_empty h.stored]
    rcases Nat.le_total settled (depth + 1) with hle | hle
    · exact .inr (settled_mono hsettled hle)
    · rw [← hsettled]
      exact c.unguarded_mono hle key

/-- Where a key settles with the stored value, it settles without it at a greater depth. -/
theorem exists_related_unguarded : ∃ settled, ∀ depth other, IsCycle (d.unguarded depth other) ∨
    d.unguarded depth other = c.unguarded (depth + settled) other := by
  obtain ⟨settled, hsettled⟩ := h.settles
  refine ⟨settled, unguarded_related_of_key settled (fun other => (h.rulesFor_eq other).symm)
    (fun other hother => (h.others other hother).symm) fun depth => ?_⟩
  cases depth with
  | zero => exact .inl ⟨[], rfl⟩
  | succ depth =>
    rw [unguarded_of_stored h.ne_empty h.stored]
    exact .inr (settled_mono hsettled (Nat.le_add_left settled (depth + 1))).symm

/-- A key that does not settle, does not settle with the stored value either. -/
theorem isCycle_of_isCycle {other : String} (hother : ∀ depth, IsCycle (c.unguarded depth other))
    (depth : Nat) : IsCycle (d.unguarded depth other) := by
  obtain ⟨settled, hsettled⟩ := h.exists_related_unguarded
  rcases hsettled depth other with hcycle | heq
  · exact hcycle
  · rw [heq]
    exact hother _

/-- While no key in progress settles, both contexts give every key the same value. -/
theorem reader_eq_reader (active : List String) (other : String)
    (hactive : ∀ waiting ∈ active, ∀ depth, IsCycle (c.unguarded depth waiting)) :
    d.reader active other = c.reader active other := by
  induction active, other using c.reader_induction with
  | step active other ih =>
    by_cases hsettles : ∀ depth, IsCycle (c.unguarded depth other)
    · -- The key does not settle, so it is not the stored one, and the keys that are read for it
      -- are looked up while it is in progress, which keeps the supposition.
      have hother : other ≠ key := by
        rintro rfl
        obtain ⟨settled, hsettled⟩ := h.settles
        exact not_isCycle_ok _ (hsettled ▸ hsettles settled)
      rw [reader_eq, reader_eq, h.others other hother]
      have hinfer : d.inferThrough (d.reader (active ++ [other])) active other =
          c.inferThrough (c.reader (active ++ [other])) active other := by
        refine inferThrough_congr (fun _ => by rw [h.model]) (h.rulesFor_eq other) ?_
        intro hfresh k hk
        exact ih hfresh k hk (List.forall_mem_append.2 ⟨hactive, by simpa using hsettles⟩)
      rw [hinfer]
    · -- The key settles at some depth, in both contexts with the same value. That is its value,
      -- because no key in progress settles at that depth.
      obtain ⟨depth, hdepth⟩ := not_forall.1 hsettles
      have hc := (unguarded_related_reader fun k hk => hactive k hk depth).resolve_left hdepth
      have hcd := (h.unguarded_related depth other).resolve_left hdepth
      rw [hcd] at hdepth
      have hd := (unguarded_related_reader fun k hk =>
        h.isCycle_of_isCycle (hactive k hk) depth).resolve_left hdepth
      rw [← hc, ← hd, hcd]

end Materialises

/-! ## Taking the value of a key -/

/-- The value of a key is not null, if null is not stored. -/
theorem value_not_null {value : Value} (h : c.value key = .ok (some value)) (hnull : c.NullFree) :
    key ≠ "" ∧ value.present = some value := by
  rw [Value.present_eq_some_iff]
  rcases c.reader_cases [] key with ⟨-, hr⟩ | ⟨stored, hkey, hstored, hr⟩ |
    ⟨front, back, -, -, hr⟩ | ⟨hkey, -, -, hr⟩
  · exact nomatch hr.symm.trans h
  · obtain rfl : stored = value := by simpa using hr.symm.trans h
    refine ⟨hkey, rfl, ?_⟩
    cases stored with
    | null => exact absurd hstored (hnull key)
    | _ => rfl
  · exact nomatch hr.symm.trans h
  · exact ⟨hkey, rfl, fireFirst_not_null (hr.symm.trans h)⟩

theorem model_take (c : Context) (value : Value) (key : String) :
    (c.take value key).model = c.model := by
  rw [take]
  split
  · rfl
  · split <;> rfl

theorem materialises_take {value : Value} (h : c.value key = .ok (some value))
    (hnull : c.NullFree) : Materialises c (c.take value key) key value := by
  obtain ⟨hkey, hvalue⟩ := value_not_null h hnull
  refine ⟨c.model_take value key, ?_, fun other hother => ?_, c.room [] key + 1, ?_⟩
  · rw [storedValue_take, if_pos ⟨rfl, hkey⟩, hvalue]
  · rw [storedValue_take, if_neg fun h => hother h.1]
  · rcases reader_related_unguarded (Nat.lt_succ_self (c.room [] key)) with hcycle | heq
    · change IsCycle (c.value key) at hcycle
      exact absurd (h ▸ hcycle) (not_isCycle_ok _)
    · rw [← heq]
      exact h

/-- A context that takes the value of a key gives every key the value it had. -/
theorem value_take_value {value : Value} (h : c.value key = .ok (some value))
    (hnull : c.NullFree) : (c.take value key).value = c.value :=
  funext fun other => (materialises_take h hnull).reader_eq_reader [] other (by simp)

/-- To store the value of a key cannot be observed: at every path there is the same value, the same
nothing or the same error as before. -/
theorem path_take_value {value : Value} (h : c.value key = .ok (some value)) (hnull : c.NullFree)
    (path : String) : (c.take value key).path path = c.path path := by
  rw [Context.path, value_take_value h hnull]
  rfl

/-- A key with a rule that cannot be evaluated and one that reads two other keys, beside two keys
that wait for each other. -/
def besideCycle : Context where
  model := some
    ⟨[⟨some (.compare "x..y" .equal .null), some (.assign "a" .null), 200⟩,
      ⟨some (.compare "b" .equal (.string "x")), some (.reference "a" "c.d"), 100⟩,
      ⟨some (.constant true), some (.assign "b" (.string "x")), 100⟩,
      ⟨some (.compareKeys "a" .equal "f"), some (.assign "e" .null), 100⟩,
      ⟨some (.constant true), some (.reference "f" "e"), 100⟩]⟩
  stored := [("c", .object [("d", .bool true)])]

theorem path_take_value_besideCycle :
    besideCycle.value "a" = .ok (some (.bool true)) ∧ besideCycle.NullFree ∧
      besideCycle.path "e" = .error (.cyclicReference ["e", "f", "e"]) ∧
      (besideCycle.take (.bool true) "a").path "e" = besideCycle.path "e" := by
  have hvalue : besideCycle.value "a" = .ok (some (.bool true)) := rfl
  have hnull : besideCycle.NullFree := by
    intro key hkey
    simp [storedValue, besideCycle, Entries.find?] at hkey
  exact ⟨hvalue, hnull, rfl, path_take_value hvalue hnull "e"⟩

end Context

end RankedRules
