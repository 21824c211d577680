/-
What inference reads, and why it ends.

While the rules for a key are evaluated, the keys that they read are looked up with that key in
progress. Nothing in this gets smaller, for the key paths come from the rules. But a key in progress
is not inferred again, and a key that is read is mentioned by the model: each nested inference uses
up one of finitely many keys.

* `Context.rulesFor` — the ranked rules for a key, `Context.Reads` — which keys they read;
* `Context.mentioned`, `Context.room` — the keys that any rule reads, and how many of them, or of
  the requested key, are not in progress;
* `Context.valueWithin_eq_of_room_lt` — beyond that number the depth of nesting has no influence;
* `Context.reader_eq` — so the value of a key satisfies the equation of unbounded recursion;
* `Context.reader_cases` — in each case that there is;
* `Context.reader_induction` — and what passes from the keys that are read to the key that is
  looked up holds of every key.
-/
import RankedRules.Proofs.Simulation
import Mathlib.Data.Finset.Card
import Mathlib.Data.List.TakeWhile

namespace RankedRules

/-! ## Equal lookups -/

/-- Equality of results, as a simulation: what is read determines the result. -/
def Simulation.equality : Simulation (Except EvalError) (Except EvalError) where
  Related := Eq
  related_pure _ := rfl
  related_throw _ _ := rfl
  related_bind {_ _ x y f g} hxy hfg := by
    rw [hxy, funext hfg]
  related_recover _ _ _ h := by rw [h]

namespace Context

/-! ## The rules for a key -/

/-- The ranked rules for a key, none without a model. -/
def rulesFor (c : Context) (key : String) : List Rule :=
  (c.model.bind (·.candidates? (some key))).getD []

/-- Whether a rule for `key` reads `other`. -/
def Reads (c : Context) (key other : String) : Prop :=
  other ∈ keysRead (c.rulesFor key)

/-- The keys that the rules of the model read. -/
def mentioned (c : Context) : Finset String :=
  match c.model with
  | none => ∅
  | some model => (keysRead model.rules).toFinset

theorem mem_keysRead {key : String} {rules : List Rule} :
    key ∈ keysRead rules ↔ ∃ rule ∈ rules, key ∈ KeyPath.firsts rule.paths := by
  simp [keysRead]

theorem mem_rulesFor {c : Context} {key : String} {rule : Rule} :
    rule ∈ c.rulesFor key ↔
      ∃ model, c.model = some model ∧ rule ∈ model.rules ∧ rule.isCandidate (some key) = true := by
  cases hm : c.model with
  | none => simp [rulesFor, hm]
  | some model =>
    rw [rulesFor, hm, Option.bind_some, Model.candidates?]
    cases hf : model.rules.filter (Rule.isCandidate (some key)) with
    | nil =>
      have : rule ∉ model.rules.filter (Rule.isCandidate (some key)) := by simp [hf]
      simpa using this
    | cons first rest =>
      have : rule ∈ Model.ranked (first :: rest) ↔
          rule ∈ model.rules.filter (Rule.isCandidate (some key)) := by
        rw [(Model.ranked_perm _).mem_iff, hf]
      simpa using this

theorem candidates?_ne_nil {model : Model} {key? : Option String} {rules : List Rule}
    (h : model.candidates? key? = some rules) : rules ≠ [] := by
  rw [Model.candidates?] at h
  cases hf : model.rules.filter (Rule.isCandidate key?) with
  | nil =>
    rw [hf] at h
    exact nomatch h
  | cons first rest =>
    rw [hf] at h
    rintro rfl
    have hperm := Model.ranked_perm (first :: rest)
    rw [Option.some.inj h] at hperm
    exact nomatch hperm.symm.eq_nil

theorem Reads.mem_mentioned {c : Context} {key other : String} (h : c.Reads key other) :
    other ∈ c.mentioned := by
  obtain ⟨rule, hrule, hpath⟩ := mem_keysRead.1 h
  obtain ⟨model, hmodel, hmem, -⟩ := mem_rulesFor.1 hrule
  rw [mentioned, hmodel]
  exact List.mem_toFinset.2 (mem_keysRead.2 ⟨rule, hmem, hpath⟩)

/-! ## The keys in progress -/

theorem cycle?_of_notMem {active : List String} {key : String} (h : key ∉ active) :
    cycle? active key = none := by
  have : active.dropWhile (· ≠ key) = [] := by
    rw [List.dropWhile_eq_nil_iff]
    exact fun k hk => decide_eq_true fun hkey => h (hkey ▸ hk)
  rw [cycle?, this]

/-- A key in progress is reported with the keys from its first occurrence on. -/
theorem cycle?_of_mem {active : List String} {key : String} (h : key ∈ active) :
    ∃ front back, active = front ++ key :: back ∧
      cycle? active key = some (key :: back ++ [key]) := by
  induction active with
  | nil => simp at h
  | cons first rest ih =>
    by_cases hfirst : first = key
    · exact ⟨[], rest, by simp [hfirst], by simp [cycle?, hfirst]⟩
    · obtain ⟨front, back, hrest, hcycle⟩ :=
        ih ((List.mem_cons.1 h).resolve_left (Ne.symm hfirst))
      refine ⟨first :: front, back, by simp [hrest], ?_⟩
      rw [cycle?, List.dropWhile_cons_of_pos (by simpa using hfirst)]
      exact hcycle

section Infer

variable {c : Context} {look : Lookup (Except EvalError)} {active : List String} {key : String}

theorem inferThrough_of_empty (h : key = "") : c.inferThrough look active key = .ok none := by
  subst h
  rfl

theorem inferThrough_of_no_model (h : c.model = none) :
    c.inferThrough look active key = .ok none := by
  rw [inferThrough, candidatesWithin, h]
  cases key.isEmpty <;> rfl

/-- A key that is not in progress gets the value of the first of its rules that applies. -/
theorem inferThrough_of_notMem (hkey : key ≠ "") (h : key ∉ active) :
    c.inferThrough look active key = fireFirst look (c.rulesFor key) := by
  rw [inferThrough, candidatesWithin, rulesFor, if_neg (by simpa using hkey)]
  cases c.model with
  | none => rfl
  | some model =>
    simp only [cycle?_of_notMem h, Option.bind_some]
    cases model.candidates? (some key) <;> rfl

/-- All values of a key that is not in progress come from its rules, if it has any. -/
theorem allThrough_of_notMem (hkey : key ≠ "") (h : key ∉ active) :
    c.allThrough look active key =
      if (c.rulesFor key).isEmpty then .ok none
      else fireAll look (c.rulesFor key) >>= fun values => .ok (some values) := by
  rw [allThrough, candidatesWithin, rulesFor, if_neg (by simpa using hkey)]
  cases c.model with
  | none => rfl
  | some model =>
    simp only [cycle?_of_notMem h, Option.bind_some]
    cases hc : model.candidates? (some key) with
    | none => rfl
    | some rules =>
      rw [Option.getD_some, if_neg (by simpa using candidates?_ne_nil hc)]
      rfl

/-- A key in progress is a cycle. -/
theorem inferThrough_of_cycle (hkey : key ≠ "") {model : Model} (hm : c.model = some model)
    {chain : List String} (h : cycle? active key = some chain) :
    c.inferThrough look active key = .error (.cyclicReference chain) := by
  rw [inferThrough, candidatesWithin, if_neg (by simpa using hkey), hm]
  simp only [h]
  rfl

end Infer

/-- Two contexts with the same rules for a key give it the same value, if what is read for it has
the same values. -/
theorem inferThrough_congr {c d : Context} {look other : Lookup (Except EvalError)}
    {active : List String} {key : String}
    (hmodel : key ∈ active → d.model.isSome = c.model.isSome)
    (hrules : d.rulesFor key = c.rulesFor key)
    (h : key ∉ active → ∀ k, c.Reads key k → other k = look k) :
    d.inferThrough other active key = c.inferThrough look active key := by
  by_cases hkey : key = ""
  · rw [inferThrough_of_empty hkey, inferThrough_of_empty hkey]
  by_cases hmem : key ∈ active
  · -- In progress, the key is a cycle in both or, without a model, nothing in both.
    have hsome := hmodel hmem
    obtain ⟨front, back, -, hcycle⟩ := cycle?_of_mem hmem
    cases hc : c.model with
    | none =>
      have hd : d.model = none := by simpa [hc] using hsome
      rw [inferThrough_of_no_model hc, inferThrough_of_no_model hd]
    | some model =>
      obtain ⟨model, hd⟩ := Option.isSome_iff_exists.1 (hsome.trans (by rw [hc]; rfl))
      rw [inferThrough_of_cycle hkey hc hcycle, inferThrough_of_cycle hkey hd hcycle]
  · rw [inferThrough_of_notMem hkey hmem, inferThrough_of_notMem hkey hmem, hrules]
    exact Simulation.equality.fireFirst (h hmem)

/-! ## The depth of nesting -/

/-- How many of the keys that can still be asked for are not in progress. -/
def room (c : Context) (active : List String) (key : String) : Nat :=
  (insert key c.mentioned \ active.toFinset).card

/-- Each nested inference uses up one key. -/
theorem room_lt {c : Context} {active : List String} {key other : String} (hkey : key ∉ active)
    (hother : other ∈ c.mentioned) : c.room (active ++ [key]) other < c.room active key := by
  refine Finset.card_lt_card ?_
  rw [Finset.ssubset_iff_of_subset]
  · exact ⟨key, by simp [hkey], by simp⟩
  · intro k hk
    simp only [Finset.mem_sdiff, Finset.mem_insert, List.mem_toFinset, List.mem_append,
      List.mem_singleton, not_or] at hk ⊢
    obtain ⟨rfl | hk, hactive, -⟩ := hk
    · exact ⟨.inr hother, hactive⟩
    · exact ⟨.inr hk, hactive⟩

theorem room_le (c : Context) (active : List String) (key : String) :
    c.room active key ≤ c.mentioned.card + 1 :=
  (Finset.card_le_card Finset.sdiff_subset).trans (Finset.card_insert_le _ _)

theorem room_lt_budget (c : Context) (active : List String) (key : String) :
    c.room active key < c.budget := by
  refine Nat.lt_of_le_of_lt (c.room_le active key) ?_
  rw [mentioned, budget]
  cases c.model with
  | none => decide
  | some model =>
    have := (keysRead model.rules).toFinset_card_le
    simp only
    omega

/-- With depth to spare, more of it has no influence. -/
theorem valueWithin_eq_of_room_lt {c : Context} : ∀ {depth more : Nat} {active : List String}
    {key : String}, c.room active key < depth → c.room active key < more →
    c.valueWithin depth active key = c.valueWithin more active key := by
  intro depth
  induction depth with
  | zero => exact fun h => absurd h (Nat.not_lt_zero _)
  | succ depth ih =>
    intro more active key hdepth hmore
    obtain ⟨more, rfl⟩ : ∃ n, more = n + 1 := ⟨more - 1, by omega⟩
    rw [valueWithin, valueWithin]
    split
    · rfl
    · split
      · rfl
      · -- What is read is looked up with less room, and one level deeper on both sides.
        refine inferThrough_congr (fun _ => rfl) rfl fun hkey other hother => ?_
        have := room_lt hkey hother.mem_mentioned
        exact ih (by omega) (by omega)

/-- The value of a key, as unbounded recursion gives it. -/
theorem reader_eq (c : Context) (active : List String) (key : String) :
    c.reader active key =
      if key.isEmpty then .ok none
      else
        match c.storedValue key with
        | some value => .ok (some value)
        | none => c.inferThrough (c.reader (active ++ [key])) active key := by
  have hroom := c.room_lt_budget active key
  rw [reader, valueWithin_eq_of_room_lt hroom (Nat.lt_succ_of_lt hroom), valueWithin]
  rfl

/-- How a key gets its value: the empty one has none, a stored one is there, one in progress is a
cycle, and for any other the rules are asked while the key is in progress. -/
theorem reader_cases (c : Context) (active : List String) (key : String) :
    (key = "" ∧ c.reader active key = .ok none) ∨
    (∃ value, key ≠ "" ∧ c.storedValue key = some value ∧
      c.reader active key = .ok (some value)) ∨
    (∃ front back, c.storedValue key = none ∧ active = front ++ key :: back ∧
      c.reader active key = .error (.cyclicReference (key :: back ++ [key]))) ∨
    (key ≠ "" ∧ c.storedValue key = none ∧ (∀ other, c.Reads key other → key ∉ active) ∧
      c.reader active key = fireFirst (c.reader (active ++ [key])) (c.rulesFor key)) := by
  rw [reader_eq]
  by_cases hkey : key = ""
  · exact .inl ⟨hkey, if_pos (by simp [hkey])⟩
  rw [if_neg (by simpa using hkey)]
  cases hstored : c.storedValue key with
  | some value => exact .inr (.inl ⟨value, hkey, rfl, rfl⟩)
  | none =>
    by_cases hmem : key ∈ active
    · cases hm : c.model with
      | none =>
        -- Without a model a key in progress is not noticed, but then there are no rules to ask.
        have hrules : c.rulesFor key = [] := by rw [rulesFor, hm]; rfl
        refine .inr (.inr (.inr ⟨hkey, rfl, ?_, ?_⟩))
        · intro other hother
          simp [Reads, hrules, keysRead] at hother
        · rw [hrules]
          exact inferThrough_of_no_model hm
      | some model =>
        obtain ⟨front, back, hactive, hcycle⟩ := cycle?_of_mem hmem
        have hinfer : c.inferThrough (c.reader (active ++ [key])) active key =
            .error (.cyclicReference (key :: back ++ [key])) :=
          inferThrough_of_cycle hkey hm hcycle
        exact .inr (.inr (.inl ⟨front, back, rfl, hactive, hinfer⟩))
    · exact .inr (.inr (.inr ⟨hkey, rfl, fun _ _ => hmem, inferThrough_of_notMem hkey hmem⟩))

/-- Induction along the keys that are read: to show something of a key while others are in
progress, it may be supposed of the keys that are read for it while it is in progress too. -/
theorem reader_induction (c : Context) {motive : List String → String → Prop}
    (step : ∀ active key,
      (key ∉ active → ∀ other, c.Reads key other → motive (active ++ [key]) other) →
      motive active key)
    (active : List String) (key : String) : motive active key := by
  -- The keys in progress get more and the key becomes another; only the room gets smaller.
  generalize hroom : c.room active key = room
  induction room using Nat.strong_induction_on generalizing active key with
  | _ room ih =>
    refine step active key fun hkey other hother => ?_
    subst hroom
    exact ih _ (room_lt hkey hother.mem_mentioned) _ _ rfl

end Context

end RankedRules
