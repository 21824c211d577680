/-
A reported cycle is a real one.

The keys in progress are a path: each was asked for because a rule for the key before it reads it.
And a key is looked up among the stored values before it is put to them, so all but perhaps the
first have no stored value. A key that is found among them closes a cycle of keys without stored
values, each of which is read by a rule for the one before. Cycles are passed on as they are, so
what a query reports is such a cycle.

* `Context.Depends` — a rule for the one key reads the other, and nothing is stored under it;
* `Context.CycleFrom` — a list of keys is a cycle of reads that can be reached from a key;
* `Context.Waiting` — the keys in progress are a path from the requested key to the one that is
  looked up, kept by one more inference (`Context.Waiting.enter`);
* `Context.reader_cycleFrom` — a cycle that is found behind such a path is real;
* `Context.cycle_reports_are_real` — so all queries report real cycles only, and none where the
  reads have no cycle.
-/
import RankedRules.Proofs.Inference.Reads
import Mathlib.Data.List.Chain

namespace RankedRules

open Relation

/-- All reported cycles satisfy `P`. An evaluation raises none of its own, so they do if all that
the lookup reports do. -/
def Simulation.reporting (P : List String → Prop) :
    Simulation (Except EvalError) (Except EvalError) where
  Related x _ := ∀ chain, x = .error (.cyclicReference chain) → P chain
  related_pure _ _ h := nomatch h
  related_throw _ hne chain h := absurd (Except.error.inj h) (hne chain)
  related_bind {_ _ x _ _ _} hx hf chain h := by
    cases x with
    | error error => exact hx chain (congrArg Except.error (Except.error.inj h))
    | ok a => exact hf a chain h
  related_recover _ x _ hx chain h := by
    cases x with
    | ok a => exact nomatch h
    | error error =>
      cases error with
      | cyclicReference found => exact hx chain (by rw [← h]; rfl)
      | unsupportedQualifier text => exact nomatch h
      | invalidKeyPath path => exact nomatch h

theorem on_reporting {P : List String → Prop} {look : Lookup (Except EvalError)}
    {keys : List String}
    (h : ∀ key ∈ keys, ∀ chain, look key = .error (.cyclicReference chain) → P chain) :
    (Simulation.reporting P).On look look keys :=
  h

namespace Context

/-- A rule for `key` reads `other`, which has no stored value. -/
def Depends (c : Context) (key other : String) : Prop :=
  c.Reads key other ∧ c.storedValue other = none

/-- A list of keys is a cycle: it begins and ends with one key, holds no key twice otherwise,
none that is stored, and each key is read by a rule for the one before. The reads lead to it from
`start`. -/
structure CycleFrom (c : Context) (start : String) (chain : List String) : Prop where
  closed : ∃ key back, chain = key :: back ++ [key]
  distinct : chain.dropLast.Nodup
  unstored : ∀ key ∈ chain, c.storedValue key = none
  reads : chain.IsChain c.Reads
  reachable : ∀ key ∈ chain, ReflTransGen c.Depends start key

/-- No key that the reads lead to from `start` leads back to itself. -/
def AcyclicFrom (c : Context) (start : String) : Prop :=
  ∀ key, ReflTransGen c.Depends start key → ¬TransGen c.Depends key key

variable {c : Context} {start key : String} {active chain : List String}

theorem CycleFrom.not_acyclicFrom (h : c.CycleFrom start chain) : ¬c.AcyclicFrom start := by
  obtain ⟨key, back, rfl⟩ := h.closed
  have hdepends : (key :: (back ++ [key])).IsChain c.Depends :=
    h.reads.imp_of_mem_tail_imp fun _ other _ hother hreads =>
      ⟨hreads, h.unstored other (List.mem_of_mem_tail hother)⟩
  intro hacyclic
  refine hacyclic key (h.reachable key (by simp)) ?_
  obtain ⟨next, rest, hnext⟩ := List.exists_cons_of_ne_nil (List.concat_ne_nil key back)
  rw [hnext] at hdepends
  refine TransGen.head' (List.isChain_cons_cons.1 hdepends).1 ?_
  refine List.relationReflTransGen_of_exists_isChain_cons rest hdepends.tail ?_
  simp [← hnext]

/-! ## The keys in progress -/

/-- The keys in progress are a path of reads from `start` to `key`, and all but the first have no
stored value. -/
structure Waiting (c : Context) (start : String) (active : List String) (key : String) : Prop where
  distinct : active.Nodup
  reads : (active ++ [key]).IsChain c.Reads
  unstored : ∀ waiting ∈ active.tail, c.storedValue waiting = none
  reachable : ∀ waiting ∈ active, ReflTransGen c.Depends start waiting
  reachable_key : c.storedValue key = none → ReflTransGen c.Depends start key

theorem waiting_start (c : Context) (start : String) : c.Waiting start [] start where
  distinct := .nil
  reads := .singleton start
  unstored := by simp
  reachable := by simp
  reachable_key _ := .refl

/-- The inference of one more key keeps the path. -/
theorem Waiting.enter {other : String} (h : c.Waiting start active key) (hfresh : key ∉ active)
    (hreachable : ReflTransGen c.Depends start key)
    (hstored : active ≠ [] → c.storedValue key = none) (hother : c.Reads key other) :
    c.Waiting start (active ++ [key]) other where
  distinct := List.nodup_append.2 ⟨h.distinct, List.nodup_singleton key, by grind⟩
  reads := List.isChain_append.2 ⟨h.reads, .singleton other, by simpa using hother⟩
  unstored waiting hwaiting := by
    cases active with
    | nil => simp at hwaiting
    | cons first rest =>
      rcases List.mem_append.1 hwaiting with hrest | hkey
      · exact h.unstored waiting hrest
      · rw [List.mem_singleton.1 hkey]
        exact hstored (List.cons_ne_nil first rest)
  reachable waiting hwaiting := by
    rcases List.mem_append.1 hwaiting with hactive | hkey
    · exact h.reachable waiting hactive
    · rwa [List.mem_singleton.1 hkey]
  reachable_key hnone := hreachable.tail ⟨hother, hnone⟩

/-- A key that is found among the keys in progress closes a cycle. -/
theorem Waiting.cycleFrom {front back : List String}
    (h : c.Waiting start (front ++ key :: back) key) (hstored : c.storedValue key = none) :
    c.CycleFrom start (key :: back ++ [key]) where
  closed := ⟨key, back, rfl⟩
  distinct := by
    rw [List.dropLast_concat]
    exact (List.nodup_append.1 h.distinct).2.1
  unstored waiting hwaiting := by
    by_cases hkey : waiting = key
    · rwa [hkey]
    have hback : waiting ∈ back := by simpa [hkey] using hwaiting
    -- The first of the keys in progress may be stored, but no key of `back` is the first.
    refine h.unstored waiting ?_
    cases front with
    | nil => exact hback
    | cons first rest => exact List.mem_append_right rest (List.mem_cons_of_mem key hback)
  reads := by
    have hreads := h.reads
    rw [List.append_assoc] at hreads
    exact hreads.right_of_append
  reachable waiting hwaiting := by
    by_cases hkey : waiting = key
    · rw [hkey]
      exact h.reachable_key hstored
    have hback : waiting ∈ back := by simpa [hkey] using hwaiting
    exact h.reachable waiting (List.mem_append_right front (List.mem_cons_of_mem key hback))

/-! ## Reports -/

/-- A cycle that is found while the keys in progress are a path of reads is real. -/
theorem reader_cycleFrom (h : c.Waiting start active key)
    (hcycle : c.reader active key = .error (.cyclicReference chain)) :
    c.CycleFrom start chain := by
  induction active, key using c.reader_induction generalizing chain with
  | step active key ih =>
    rcases c.reader_cases active key with ⟨-, hr⟩ | ⟨value, -, -, hr⟩ |
      ⟨front, back, hstored, rfl, hr⟩ | ⟨-, hstored, hfresh, hr⟩
    · exact nomatch hr.symm.trans hcycle
    · exact nomatch hr.symm.trans hcycle
    · obtain rfl : key :: back ++ [key] = chain := by simpa using hr.symm.trans hcycle
      exact h.cycleFrom hstored
    · -- The rules report no cycle but those of the keys that they read, one inference further.
      refine (Simulation.reporting _).fireFirst (on_reporting fun other hother found hfound => ?_)
        chain (hr.symm.trans hcycle)
      exact ih (hfresh other hother) other hother (h.enter (hfresh other hother)
        (h.reachable_key hstored) (fun _ => hstored) hother) hfound

/-- The keys that the rules for the requested key read report real cycles, whatever is stored under
that key. -/
theorem on_reader_reporting (c : Context) (start : String) :
    (Simulation.reporting (c.CycleFrom start)).On (c.reader [start]) (c.reader [start])
      (keysRead (c.rulesFor start)) :=
  on_reporting fun _ hother _ hchain =>
    reader_cycleFrom ((c.waiting_start start).enter (by simp) .refl (by simp) hother) hchain

theorem value_cycleFrom (h : c.value key = .error (.cyclicReference chain)) :
    c.CycleFrom key chain :=
  reader_cycleFrom (c.waiting_start key) h

theorem inferred_cycleFrom (h : c.inferred key = .error (.cyclicReference chain)) :
    c.CycleFrom key chain := by
  by_cases hkey : key = ""
  · exact nomatch (inferThrough_of_empty hkey).symm.trans h
  · exact (Simulation.reporting _).fireFirst (c.on_reader_reporting key) chain
      ((inferThrough_of_notMem hkey (by simp)).symm.trans h)

theorem allValues_cycleFrom (h : c.allValues key = .error (.cyclicReference chain)) :
    c.CycleFrom key chain := by
  by_cases hkey : key = ""
  · subst hkey
    exact nomatch h
  · rw [allValues, allThrough_of_notMem hkey (by simp)] at h
    split at h
    · exact nomatch h
    · have hfired := (Simulation.reporting _).fireAll (c.on_reader_reporting key)
      exact (Simulation.reporting _).related_bind hfired
        (fun values => (Simulation.reporting _).related_pure (some values)) chain h

theorem path_cycleFrom {path : String} (h : c.path path = .error (.cyclicReference chain)) :
    ∃ first ∈ KeyPath.first? path, c.CycleFrom first chain := by
  refine (Simulation.reporting fun chain => ∃ first ∈ KeyPath.first? path,
    c.CycleFrom first chain).path (on_reporting fun first hfirst found hfound => ?_) chain h
  have hmem : first ∈ KeyPath.first? path := by simpa [KeyPath.firsts] using hfirst
  exact ⟨first, hmem, value_cycleFrom hfound⟩

/-- The queries report a cycle only if its keys are read one for the other in a circle, and never if
the reads that the requested key leads to have no circle. -/
theorem cycle_reports_are_real (c : Context) :
    (∀ key chain, c.value key = .error (.cyclicReference chain) → c.CycleFrom key chain) ∧
    (∀ key chain, c.inferred key = .error (.cyclicReference chain) → c.CycleFrom key chain) ∧
    (∀ key chain, c.allValues key = .error (.cyclicReference chain) → c.CycleFrom key chain) ∧
    (∀ path chain, c.path path = .error (.cyclicReference chain) →
      ∃ first ∈ KeyPath.first? path, c.CycleFrom first chain) ∧
    (∀ key, c.AcyclicFrom key → ∀ chain,
      c.value key ≠ .error (.cyclicReference chain) ∧
      c.inferred key ≠ .error (.cyclicReference chain) ∧
      c.allValues key ≠ .error (.cyclicReference chain) ∧
      ∀ path, KeyPath.first? path = some key →
        c.path path ≠ .error (.cyclicReference chain)) := by
  refine ⟨fun _ _ => value_cycleFrom, fun _ _ => inferred_cycleFrom,
    fun _ _ => allValues_cycleFrom, fun _ _ => path_cycleFrom, fun key hacyclic chain => ?_⟩
  refine ⟨fun h => (value_cycleFrom h).not_acyclicFrom hacyclic,
    fun h => (inferred_cycleFrom h).not_acyclicFrom hacyclic,
    fun h => (allValues_cycleFrom h).not_acyclicFrom hacyclic, fun path hpath h => ?_⟩
  obtain ⟨first, hfirst, hcycle⟩ := path_cycleFrom h
  obtain rfl : key = first := by simpa [hpath] using hfirst
  exact hcycle.not_acyclicFrom hacyclic

/-- A key whose condition reads a key that is the value of the first one. -/
def circular : Context where
  model := some
    ⟨[⟨some (.compare "b.c" .equal .null), some (.assign "a" .null), 100⟩,
      ⟨some (.constant true), some (.compound [.assign "b" .null, .reference "b" "a"]), 100⟩]⟩

theorem cycle_reports_are_real_circular :
    circular.path "a.d" = .error (.cyclicReference ["a", "b", "a"]) ∧
      ∃ first ∈ KeyPath.first? "a.d", circular.CycleFrom first ["a", "b", "a"] :=
  ⟨rfl, circular.cycle_reports_are_real.2.2.2.1 "a.d" ["a", "b", "a"] rfl⟩

end Context

end RankedRules
