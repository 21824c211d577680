/-
What the value of a key depends on.

The value of a key can only depend on the keys that are read for it, directly or through others. So
rules for other keys and values stored under other keys have no influence, and neither do the
errors that they would lead to.

* `Context.Needs` — the least set of keys that holds the requested one and all keys that the rules
  for one of its keys read;
* `Context.reader_eq_of_needs` — two contexts with the same rules and stored values for these keys
  give them the same values, whatever keys are in progress;
* `Context.answers_eq_of_needs` — and the same answers to all queries of the requested key.
-/
import RankedRules.Proofs.Inference.Reads

namespace RankedRules.Context

/-- The keys that are needed for a key: itself, and what the rules for a needed key read. -/
inductive Needs (c : Context) (key : String) : String → Prop
  | self : Needs c key key
  | read {needed other : String} : Needs c key needed → c.Reads needed other → Needs c key other

/-- Two contexts have the same rules and stored values for all keys that are needed for a key. -/
structure AgreeOnNeeds (c d : Context) (key : String) : Prop where
  stored : ∀ needed, c.Needs key needed → d.storedValue needed = c.storedValue needed
  rules : ∀ needed, c.Needs key needed → d.rulesFor needed = c.rulesFor needed

theorem isSome_model_of_reads {c : Context} {key other : String} (h : c.Reads key other) :
    c.model.isSome = true := by
  obtain ⟨rule, hrule, -⟩ := mem_keysRead.1 h
  obtain ⟨model, hmodel, -⟩ := mem_rulesFor.1 hrule
  rw [hmodel]
  rfl

variable {c d : Context} {key : String}

/-- A needed key has the same value in both contexts. While keys are in progress, both have a
model: without one nothing is read. -/
theorem reader_eq_of_needs (h : c.AgreeOnNeeds d key) (active : List String) (needed : String)
    (hneeded : c.Needs key needed) (hmodel : active ≠ [] → d.model.isSome = c.model.isSome) :
    d.reader active needed = c.reader active needed := by
  induction active, needed using c.reader_induction with
  | step active needed ih =>
    rw [reader_eq, reader_eq, h.stored needed hneeded]
    have hinfer : d.inferThrough (d.reader (active ++ [needed])) active needed =
        c.inferThrough (c.reader (active ++ [needed])) active needed := by
      refine inferThrough_congr (fun hmem => hmodel (List.ne_nil_of_mem hmem))
        (h.rules needed hneeded) fun hfresh other hother => ?_
      -- What is read is needed too, and as both contexts read it, both have a model.
      refine ih hfresh other hother (hneeded.read hother) fun _ => ?_
      have hother' : d.Reads needed other := by rwa [Reads, h.rules needed hneeded]
      rw [isSome_model_of_reads hother, isSome_model_of_reads hother']
    rw [hinfer]

/-- The rules for the requested key read the same values in both contexts. -/
theorem on_reader_of_needs (h : c.AgreeOnNeeds d key) :
    Simulation.equality.On (d.reader [key]) (c.reader [key]) (keysRead (c.rulesFor key)) := by
  intro other hother
  refine reader_eq_of_needs h [key] other (Needs.self.read hother) fun _ => ?_
  have hother' : d.Reads key other := by rwa [Reads, h.rules key .self]
  rw [isSome_model_of_reads hother, isSome_model_of_reads hother']

/-- Two contexts with the same rules and stored values for the keys that are needed for a key
answer all queries of that key alike, errors included. -/
theorem answers_eq_of_needs (h : c.AgreeOnNeeds d key) :
    d.value key = c.value key ∧ d.inferred key = c.inferred key ∧
      d.allValues key = c.allValues key := by
  refine ⟨reader_eq_of_needs h [] key .self (by simp), ?_, ?_⟩
  · exact inferThrough_congr (by simp) (h.rules key .self) fun _ => on_reader_of_needs h
  · by_cases hkey : key = ""
    · subst hkey
      rfl
    · rw [allValues, allValues, allThrough_of_notMem hkey (by simp),
        allThrough_of_notMem hkey (by simp), h.rules key .self]
      have hall := Simulation.equality.fireAll (on_reader_of_needs h)
      rw [show fireAll (d.reader [key]) (c.rulesFor key) = _ from hall]

/-- Rules for two keys, one of which reads the other and a stored key. -/
def alone : Context where
  model := some
    ⟨[⟨some (.compare "b" .equal (.string "x")), some (.reference "a" "c.d"), 100⟩,
      ⟨some (.constant true), some (.assign "b" (.string "x")), 100⟩]⟩
  stored := [("c", .object [("d", .bool true)])]

/-- The same with rules and a stored value for other keys in between, one of them a cycle. -/
def interleaved : Context where
  model := some
    ⟨[⟨some (.constant true), some (.reference "z" "z"), 1000⟩,
      ⟨some (.compare "b" .equal (.string "x")), some (.reference "a" "c.d"), 100⟩,
      ⟨some (.constant true), some (.assign "y" (.bool false)), 200⟩,
      ⟨some (.constant true), some (.assign "b" (.string "x")), 100⟩]⟩
  stored := [("c", .object [("d", .bool true)]), ("y", .bool true)]

theorem needs_alone {needed : String} (h : alone.Needs "a" needed) :
    needed = "a" ∨ needed = "b" ∨ needed = "c" := by
  induction h with
  | self => exact .inl rfl
  | read _ hother ih =>
    rcases ih with rfl | rfl | rfl
    · have hread : keysRead (alone.rulesFor "a") = ["b", "c"] := rfl
      rw [Reads, hread] at hother
      exact .inr (by simpa using hother)
    · exact absurd hother List.not_mem_nil
    · exact absurd hother List.not_mem_nil

theorem answers_eq_of_needs_interleaved :
    alone.AgreeOnNeeds interleaved "a" ∧ interleaved.value "a" = alone.value "a" ∧
      interleaved.inferred "a" = alone.inferred "a" ∧
      interleaved.allValues "a" = alone.allValues "a" := by
  have hagree : alone.AgreeOnNeeds interleaved "a" := by
    constructor
    · intro needed hneeded
      rcases needs_alone hneeded with rfl | rfl | rfl <;> rfl
    · intro needed hneeded
      rcases needs_alone hneeded with rfl | rfl | rfl <;> rfl
  exact ⟨hagree, answers_eq_of_needs hagree⟩

end RankedRules.Context
