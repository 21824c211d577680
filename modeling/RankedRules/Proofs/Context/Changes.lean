/-
All that can happen to contexts.

Contexts are written to, get other models and are copied, in any order. Each of these keeps what is
stored clean: there is no entry under the empty key, and none holds null. Rules may assign null and
stored objects may have members that are null, but what a rule gives and what is found inside an
object passes the test for null on its way out. So no query finds null.

* `Context.Write`, `Context.Change` — what can be done to one context, and to one of several;
* `Context.run` — the contexts after some changes;
* `Context.Change.apply_keeps` — what every write keeps, every change keeps;
* `Context.IsClean` — no stored entry has the empty key or holds null;
* `Context.isClean_apply`, `Context.Change.isClean_apply` — a change keeps all contexts clean;
* `Context.isClean_of_mem_run`, `Context.IsClean.of_mem_run` — so all contexts that there ever are
  are clean;
* `Context.not_null_of_mem_run` — and no query of them finds null;
* `Context.path_take_of_mem_run` — and to store a value that one of them infers changes none of its
  answers.
-/
import RankedRules.Proofs.Entries
import RankedRules.Proofs.Inference.Materialise

namespace RankedRules

namespace Context

/-! ## Changes -/

/-- What can be done to one context. -/
inductive Write
  | take (value : Value) (key : String)
  | takePath (value : Value) (path : String)
  | reset
  | attach (model : Option Model)
  | whileTaking (path valuePath : String) (values : List Value)

/-- The context after a write. A write at a path that is invalid leaves it as it is. -/
def apply (c : Context) : Write → Context
  | .take value key => c.take value key
  | .takePath value path =>
    match c.takePath value path with
    | .ok taken => taken
    | .error _ => c
  | .reset => c.reset
  | .attach model => { c with model }
  | .whileTaking path valuePath values => (c.whileTaking path valuePath values).2

/-- What can be done to one of several contexts: it is written to, or a copy of it is added. -/
inductive Change
  | write (i : Nat) (w : Write)
  | clone (i : Nat)

/-- The contexts after a change. -/
def Change.apply (contexts : List Context) : Change → List Context
  | .write i w => contexts.modify i (Context.apply · w)
  | .clone i => contexts ++ contexts[i]?.toList

/-- The contexts after some changes. -/
def run (contexts : List Context) (changes : List Change) : List Context :=
  changes.foldl Change.apply contexts

/-- What a write keeps of one context, a change keeps of all. -/
theorem Change.apply_keeps {P : Context → Prop} {contexts : List Context} (change : Change)
    (h : ∀ c ∈ contexts, P c)
    (hwrite : ∀ i w, change = .write i w → ∀ c, P c → P (c.apply w)) :
    ∀ c ∈ change.apply contexts, P c := by
  intro c hc
  cases change with
  | write i w =>
    obtain ⟨j, hj⟩ := List.mem_iff_getElem?.1 hc
    rw [Change.apply, List.getElem?_modify] at hj
    obtain ⟨before, hbefore, rfl⟩ := Option.map_eq_some_iff.1 hj
    have hkept := h before (List.mem_of_getElem? hbefore)
    split
    · exact hwrite i w rfl before hkept
    · exact hkept
  | clone i =>
    change c ∈ contexts ++ contexts[i]?.toList at hc
    rcases List.mem_append.1 hc with hc | hc
    · exact h c hc
    · exact h c (List.mem_of_getElem? (Option.mem_toList.1 hc))

/-! ## Clean contexts -/

/-- Nothing is stored under the empty key, and no null is stored. -/
def IsClean (c : Context) : Prop :=
  ∀ entry ∈ c.stored, entry.1 ≠ "" ∧ entry.2.isNull = false

variable {c : Context} {contexts : List Context}

theorem isClean_of_no_stored (h : c.stored = []) : c.IsClean := by
  intro entry hentry
  rw [h] at hentry
  exact absurd hentry List.not_mem_nil

theorem IsClean.nullFree (h : c.IsClean) : c.NullFree := by
  intro key hkey
  exact nomatch (h _ (Entries.mem_of_find? hkey)).2

theorem IsClean.take (value : Value) (key : String) (h : c.IsClean) :
    (c.take value key).IsClean := by
  rw [Context.take]
  split
  · exact h
  · rename_i hkey
    split
    · intro entry hentry
      exact h entry ((Entries.erase_sublist key c.stored).subset hentry)
    · rename_i hvalue
      intro entry hentry
      rcases Entries.mem_insert hentry with rfl | hentry
      · exact ⟨by simpa using hkey, Bool.eq_false_iff.2 hvalue⟩
      · exact h entry hentry

/-- A write keeps a context clean. -/
theorem isClean_apply (h : c.IsClean) (w : Write) : (c.apply w).IsClean := by
  cases w with
  | take value key => exact h.take value key
  | takePath value path =>
    rw [apply]
    split
    · rename_i taken htaken
      exact takePath_keeps (fun _ => IsClean.take) h htaken
    · exact h
  | reset => exact isClean_of_no_stored rfl
  | attach model => exact h
  | whileTaking path valuePath values =>
    exact whileTaking_keeps (fun _ => IsClean.take) h path valuePath values

/-- A change keeps all contexts clean. -/
theorem Change.isClean_apply (h : ∀ c ∈ contexts, c.IsClean) (change : Change) :
    ∀ c ∈ change.apply contexts, c.IsClean :=
  change.apply_keeps h fun _ w _ _ hc => Context.isClean_apply hc w

/-- All contexts that come from clean ones are clean. -/
theorem isClean_of_mem_run (h : ∀ c ∈ contexts, c.IsClean) (changes : List Change) :
    ∀ c ∈ run contexts changes, c.IsClean := by
  induction changes generalizing contexts with
  | nil => exact h
  | cons change rest ih => exact ih (change.isClean_apply h)

/-- Whatever happens to contexts, starting from an empty one, they are clean. -/
theorem IsClean.of_mem_run {changes : List Change} (h : c ∈ run [{}] changes) : c.IsClean :=
  isClean_of_mem_run (List.forall_mem_singleton.2 (isClean_of_no_stored rfl)) changes c h

/-! ## Queries -/

/-- Null is never found while values are taken. -/
theorem whileTaking_not_null {path valuePath : String} {values : List Value}
    {results : List (Option Value)} (h : (c.whileTaking path valuePath values).1 = .ok results) :
    some .null ∉ results := by
  induction values generalizing c results with
  | nil =>
    cases h
    exact List.not_mem_nil
  | cons value rest ih =>
    rw [Context.whileTaking] at h
    split at h
    · cases h
    · rename_i taken _
      split at h
      · cases h
      · rename_i found hfound
        obtain ⟨others, hothers, rfl⟩ := map_eq_ok_iff.1 h
        intro hmem
        rcases List.mem_cons.1 hmem with rfl | hmem
        · have hnull : Value.null.isNull = false := Lookup.path_not_null hfound
          cases hnull
        · exact ih hothers hmem

/-- Whatever happens to contexts, starting from an empty one, nothing is ever stored under the empty
key, null is never stored, and no query finds null. -/
theorem not_null_of_mem_run {changes : List Change} (h : c ∈ run [{}] changes) :
    (∀ entry ∈ c.stored, entry.1 ≠ "" ∧ entry.2.isNull = false) ∧
    (∀ key, c.value key ≠ .ok (some .null) ∧ c.inferred key ≠ .ok (some .null)) ∧
    (∀ path, c.path path ≠ .ok (some .null)) ∧
    ∀ path valuePath values results,
      (c.whileTaking path valuePath values).1 = .ok results → some .null ∉ results := by
  have hclean : c.IsClean := .of_mem_run h
  refine ⟨hclean, fun key => ⟨?_, ?_⟩, ?_, ?_⟩
  · intro hvalue
    exact nomatch (value_not_null hvalue hclean.nullFree).2
  · intro hvalue
    exact nomatch inferThrough_not_null hvalue
  · intro path hvalue
    exact nomatch Lookup.path_not_null hvalue
  · intro path valuePath values results hresults
    exact whileTaking_not_null hresults

/-! ## Storing what is inferred -/

/-- A context that comes from an empty one can store the value that it gives a key: at every path it
then has the same value, the same nothing or the same error as before. -/
theorem path_take_of_mem_run {changes : List Change} (hmem : c ∈ run [{}] changes) {key : String}
    {value : Value} (h : c.value key = .ok (some value)) (path : String) :
    (c.take value key).path path = c.path path := by
  have hclean : c.IsClean := .of_mem_run hmem
  have hvalue : (c.take value key).value = c.value := value_take_value h hclean.nullFree
  rw [Context.path, hvalue]
  rfl

/-! ## A copy that goes its own way -/

namespace Copied

/-- Rules that assign null: in an action of several, in a nested rule, and over a stored object. -/
def model : Model :=
  ⟨[⟨some (.constant true),
      some (.compound [.assign "a" (.bool true), .assign "a" .null]), 100⟩,
    ⟨some (.constant true), some (.rule ⟨none, some (.assign "b" .null), 100⟩), 100⟩,
    ⟨some (.constant true), some (.reference "d" "c.e"), 100⟩]⟩

/-- An object with a member that is null is stored, the context is copied, and the copy gets the
rules while the original forgets the object. -/
def changes : List Change :=
  [.write 0 (.take (.object [("e", .null)]) "c"), .write 0 (.take .null "a"),
    .write 0 (.take (.bool true) ""), .clone 0, .write 1 (.attach (some model)),
    .write 0 .reset, .write 1 (.takePath .null "f.g"),
    .write 1 (.whileTaking "d" "b" [.bool true, .null])]

/-- The copy in the end. -/
def copy : Context where
  model := some model
  stored := [("c", .object [("e", .null)]), ("f", .object [])]

end Copied

theorem not_null_of_mem_run_copied :
    run [{}] Copied.changes = [{}, Copied.copy] ∧
      (∀ entry ∈ Copied.copy.stored, entry.1 ≠ "" ∧ entry.2.isNull = false) ∧
      Copied.copy.value "a" ≠ .ok (some .null) ∧ Copied.copy.value "b" ≠ .ok (some .null) ∧
      Copied.copy.inferred "d" ≠ .ok (some .null) ∧ Copied.copy.path "c.e" ≠ .ok (some .null) := by
  have hrun : run [{}] Copied.changes = [{}, Copied.copy] := rfl
  have hmem : Copied.copy ∈ run [{}] Copied.changes := by
    rw [hrun]
    exact List.mem_cons_of_mem _ List.mem_cons_self
  obtain ⟨hstored, hkeys, hpaths, -⟩ := not_null_of_mem_run hmem
  exact ⟨hrun, hstored, (hkeys "a").1, (hkeys "b").1, (hkeys "d").2, hpaths "c.e"⟩

end Context

end RankedRules
