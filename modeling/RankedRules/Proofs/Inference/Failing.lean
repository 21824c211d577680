/-
What inference fails by.

A condition that cannot be evaluated does not hold, so of its errors only cycles are seen. An action
fails by what it reads, and it reads key paths. So besides cycles there is one reason to fail: an
action of the model has a key path with an empty segment, and the error names that path.

* `Lookup.path_error`, `Action.fire_error`, `Qualifier.WellFormed.evaluate_error` — paths, actions
  and conditions of the grammar fail by what they read;
* `Rule.holds_error` — whether a rule applies is only uncertain because of a cycle;
* `Context.Explained` — the errors that inference can fail by;
* `Context.reader_explained` — it fails by no others, whatever keys are in progress;
* `Context.inferred_explained`, `Context.allValues_explained`, `Context.path_explained` — nor do the
  other queries, but for a path that has an empty segment itself.
-/
import RankedRules.Proofs.Inference.Reads
import RankedRules.Proofs.Qualifier.Written
import RankedRules.Proofs.Success

namespace RankedRules

variable {look : Lookup (Except EvalError)} {error : EvalError}

/-! ## Paths -/

/-- A path fails if it has an empty segment, or by what its first segment fails by. -/
theorem Lookup.path_error {path : String} (h : look.path path = .error error) :
    KeyPath.segments path = .error error ∨
      ∃ key ∈ KeyPath.firsts [path], look key = .error error := by
  rw [Lookup.path] at h
  split at h
  · rename_i segments hsegments
    cases segments with
    | nil => cases h
    | cons first rest =>
      have hfirst : first ∈ KeyPath.firsts [path] := by
        rw [KeyPath.segments] at hsegments
        split at hsegments
        · rename_i hsome
          cases hsegments
          simp [KeyPath.firsts, KeyPath.first?, hsome]
        · cases hsegments
      rcases bind_eq_error_iff.1 h with hlook | ⟨found, -, hfound⟩
      · exact .inr ⟨first, hfirst, hlook⟩
      · cases hfound
  · rename_i fault hsegments
    cases h
    exact .inl hsegments

/-- The segments of a path fail by no other error than that the path is invalid. -/
theorem KeyPath.segments_error {path : String} (h : KeyPath.segments path = .error error) :
    KeyPath.segments? path = none ∧ error = .invalidKeyPath path := by
  rw [KeyPath.segments] at h
  split at h
  · cases h
  · rename_i hnone
    cases h
    exact ⟨hnone, rfl⟩

/-! ## Actions -/

mutual

/-- An action fails by what one of its paths fails by. -/
theorem Action.fire_error : ∀ {action : Action}, action.fire look = .error error →
    ∃ path ∈ action.paths, look.path path = .error error
  | .assign _ _, h => nomatch h
  | .reference _ path, h => ⟨path, List.mem_singleton.2 rfl, h⟩
  | .compound _, h => Action.fireAll_error h
  | .rule _, h => Rule.fire_error h

theorem Action.fireAll_error : ∀ {members : List Action} {last : Option Value},
    Action.fireAll look last members = .error error →
    ∃ path ∈ Action.pathsOfAll members, look.path path = .error error
  | [], _, h => nomatch h
  | action :: rest, _, h => by
    rcases bind_eq_error_iff.1 h with hfire | ⟨value, -, hrest⟩
    · obtain ⟨path, hpath, hlook⟩ := Action.fire_error hfire
      exact ⟨path, List.mem_append_left _ hpath, hlook⟩
    · obtain ⟨path, hpath, hlook⟩ := Action.fireAll_error hrest
      exact ⟨path, List.mem_append_right _ hpath, hlook⟩

theorem Rule.fire_error : ∀ {rule : Rule}, rule.fire look = .error error →
    ∃ path ∈ rule.actionPaths, look.path path = .error error
  | ⟨_, none, _⟩, h => nomatch h
  | ⟨_, some action, _⟩, h => @Action.fire_error action h

end

/-! ## Conditions -/

namespace Qualifier

theorem mem_pathsOfAll {path : String} {members : List Qualifier} :
    path ∈ pathsOfAll members ↔ ∃ q ∈ members, path ∈ q.paths := by
  induction members with
  | nil => simp [pathsOfAll]
  | cons q rest ih => simp [pathsOfAll, ih]

theorem evaluateAll_error {connective : Connective} {members : List Qualifier}
    (h : evaluateAll look connective members = .error error) :
    ∃ q ∈ members, q.evaluate look = .error error := by
  induction members with
  | nil => exact nomatch h
  | cons q rest ih =>
    rcases bind_eq_error_iff.1 h with hfirst | ⟨holds, -, hrest⟩
    · exact ⟨q, List.mem_cons_self, hfirst⟩
    · split at hrest
      · exact List.exists_mem_cons_of_exists (ih hrest)
      · exact nomatch hrest

/-- A condition of the grammar supports evaluation: it fails by what one of its paths fails by. -/
theorem WellFormed.evaluate_error {IsLiteral : Value → Prop} {q : Qualifier}
    (hq : q.WellFormed IsLiteral) (h : q.evaluate look = .error error) :
    ∃ path ∈ q.paths, look.path path = .error error := by
  induction hq with
  | constant holds => exact nomatch h
  | @compare path value op hpath hvalue =>
    rcases bind_eq_error_iff.1 h with hlook | ⟨found, -, hfound⟩
    · exact ⟨path, by simp [paths], hlook⟩
    · exact nomatch hfound
  | @compareKeys left right op hleft hright =>
    rcases bind_eq_error_iff.1 h with hlook | ⟨foundLeft, -, h⟩
    · exact ⟨left, by simp [paths], hlook⟩
    rcases bind_eq_error_iff.1 h with hlook | ⟨foundRight, -, hfound⟩
    · exact ⟨right, by simp [paths], hlook⟩
    · exact nomatch hfound
  | not hinner ih =>
    rcases bind_eq_error_iff.1 h with hevaluate | ⟨holds, -, hholds⟩
    · exact ih hevaluate
    · exact nomatch hholds
  | compound connective hcount hmembers ih =>
    obtain ⟨member, hmember, hevaluate⟩ := evaluateAll_error h
    obtain ⟨path, hpath, hlook⟩ := ih member hmember hevaluate
    exact ⟨path, mem_pathsOfAll.2 ⟨member, hmember, hpath⟩, hlook⟩

/-- The paths of a condition of the grammar are key paths. -/
theorem WellFormed.isKeyPath {IsLiteral : Value → Prop} {q : Qualifier}
    (hq : q.WellFormed IsLiteral) {path : String} (h : path ∈ q.paths) : IsKeyPath path := by
  induction hq with
  | constant holds => exact absurd h List.not_mem_nil
  | compare op hpath hvalue =>
    rw [List.mem_singleton.1 h]
    exact hpath.toIsKeyPath
  | compareKeys op hleft hright =>
    rcases List.mem_cons.1 h with rfl | h
    · exact hleft.toIsKeyPath
    · rw [List.mem_singleton.1 h]
      exact hright.toIsKeyPath
  | not hinner ih => exact ih h
  | compound connective hcount hmembers ih =>
    obtain ⟨member, hmember, hpath⟩ := mem_pathsOfAll.1 h
    exact ih member hmember hpath

end Qualifier

/-- Of the errors of a condition only a cycle is one of the rule. -/
theorem Rule.holds_error {rule : Rule} (h : rule.holds look = .error error) :
    ∃ chain, error = .cyclicReference chain := by
  rw [Rule.holds] at h
  split at h
  · cases h
  · rename_i q _
    rw [EvalError.recover] at h
    cases hevaluate : q.evaluate look with
    | ok holds =>
      rw [hevaluate] at h
      cases h
    | error fault =>
      rw [hevaluate] at h
      cases fault with
      | cyclicReference chain => exact ⟨chain, (Except.error.inj h).symm⟩
      | unsupportedQualifier text => cases h
      | invalidKeyPath path => cases h

/-! ## Inference -/

namespace Context

variable {rules : List Rule}

theorem fireFirst_error (h : fireFirst look rules = .error error) :
    (∃ chain, error = .cyclicReference chain) ∨
      ∃ rule ∈ rules, rule.fire look = .error error := by
  induction rules with
  | nil => exact nomatch h
  | cons rule rest ih =>
    rcases bind_eq_error_iff.1 h with hholds | ⟨holds, -, hfire⟩
    · exact .inl (Rule.holds_error hholds)
    cases holds with
    | true => exact .inr ⟨rule, List.mem_cons_self, hfire⟩
    | false => exact (ih hfire).imp_right List.exists_mem_cons_of_exists

theorem fireAll_error (h : fireAll look rules = .error error) :
    (∃ chain, error = .cyclicReference chain) ∨
      ∃ rule ∈ rules, rule.fire look = .error error := by
  induction rules with
  | nil => exact nomatch h
  | cons rule rest ih =>
    rcases bind_eq_error_iff.1 h with hholds | ⟨holds, -, h⟩
    · exact .inl (Rule.holds_error hholds)
    cases holds with
    | true =>
      rcases bind_eq_error_iff.1 h with hfire | ⟨value, -, h⟩
      · exact .inr ⟨rule, List.mem_cons_self, hfire⟩
      rcases bind_eq_error_iff.1 h with hall | ⟨values, -, hvalues⟩
      · exact (ih hall).imp_right List.exists_mem_cons_of_exists
      · exact nomatch hvalues
    | false => exact (ih h).imp_right List.exists_mem_cons_of_exists

/-- An error that inference may fail by: a cycle, or that a path in the action of a rule has an
empty segment. -/
inductive Explained (c : Context) (error : EvalError) : Prop
  | cycle (h : ∃ chain, error = .cyclicReference chain)
  | invalid {model : Model} {rule : Rule} {path : String} (hmodel : c.model = some model)
      (hrule : rule ∈ model.rules) (hpath : path ∈ rule.actionPaths)
      (hsegments : KeyPath.segments path = .error error)

variable {c : Context} {active : List String} {key : String}

/-- A rule for a key fails by an explained error, if all that it reads does. -/
theorem fire_explained {rule : Rule} (hrule : rule ∈ c.rulesFor key)
    (hlook : ∀ other error, c.Reads key other → look other = .error error → c.Explained error)
    (h : rule.fire look = .error error) : c.Explained error := by
  obtain ⟨path, hpath, herror⟩ := Rule.fire_error h
  rcases Lookup.path_error herror with hsegments | ⟨other, hother, herror⟩
  · obtain ⟨model, hmodel, hmem, -⟩ := mem_rulesFor.1 hrule
    exact .invalid hmodel hmem hpath hsegments
  · refine hlook other error (mem_keysRead.2 ⟨rule, hrule, ?_⟩) herror
    have hsub : [path].Sublist rule.paths :=
      (List.singleton_sublist.2 hpath).trans (List.sublist_append_right _ _)
    exact (hsub.filterMap KeyPath.first?).subset hother

theorem fireFirst_explained
    (hlook : ∀ other error, c.Reads key other → look other = .error error → c.Explained error)
    (h : fireFirst look (c.rulesFor key) = .error error) : c.Explained error := by
  rcases fireFirst_error h with hcycle | ⟨rule, hrule, hfire⟩
  · exact .cycle hcycle
  · exact fire_explained hrule hlook hfire

/-- The value of a key fails by an explained error. -/
theorem reader_explained (c : Context) (active : List String) (key : String) (error : EvalError)
    (h : c.reader active key = .error error) : c.Explained error := by
  induction active, key using c.reader_induction generalizing error with
  | step active key ih =>
    rcases c.reader_cases active key with ⟨-, hnone⟩ | ⟨value, -, -, hvalue⟩ |
      ⟨front, back, -, -, hcycle⟩ | ⟨-, -, hfresh, hrules⟩
    · rw [hnone] at h
      exact nomatch h
    · rw [hvalue] at h
      exact nomatch h
    · rw [hcycle] at h
      exact .cycle ⟨_, (Except.error.inj h).symm⟩
    · rw [hrules] at h
      refine fireFirst_explained ?_ h
      intro other error hother
      exact ih (hfresh other hother) other hother error

theorem inferred_explained (h : c.inferred key = .error error) : c.Explained error := by
  by_cases hkey : key = ""
  · rw [inferred, inferThrough_of_empty hkey] at h
    exact nomatch h
  · rw [inferred, inferThrough_of_notMem hkey List.not_mem_nil] at h
    exact fireFirst_explained (fun other error _ => c.reader_explained [key] other error) h

theorem allValues_explained (h : c.allValues key = .error error) : c.Explained error := by
  by_cases hkey : key = ""
  · subst hkey
    exact nomatch h
  rw [allValues, allThrough_of_notMem hkey List.not_mem_nil] at h
  split at h
  · exact nomatch h
  rcases bind_eq_error_iff.1 h with hall | ⟨values, -, hvalues⟩
  · rcases fireAll_error hall with hcycle | ⟨rule, hrule, hfire⟩
    · exact .cycle hcycle
    · exact fire_explained hrule (fun other error _ => c.reader_explained [key] other error) hfire
  · exact nomatch hvalues

/-- A path fails by an explained error, or because it has an empty segment itself. -/
theorem path_explained {path : String} (h : (c.reader active).path path = .error error) :
    c.Explained error ∨ KeyPath.segments path = .error error := by
  rcases Lookup.path_error h with hsegments | ⟨key, -, hkey⟩
  · exact .inr hsegments
  · exact .inl (c.reader_explained active key error hkey)

/-- No explained error is about a condition. -/
theorem Explained.supported {text : String} (h : c.Explained error) :
    error ≠ .unsupportedQualifier text := by
  rintro rfl
  rcases h with ⟨chain, hchain⟩ | ⟨-, -, -, hsegments⟩
  · exact nomatch hchain
  · exact nomatch (KeyPath.segments_error hsegments).2

/-- If all paths in actions have segments, then only cycles are explained. -/
theorem Explained.isCycle (h : c.Explained error)
    (hvalid : ∀ model, c.model = some model → ∀ rule ∈ model.rules, ∀ path ∈ rule.actionPaths,
      (KeyPath.segments? path).isSome = true) :
    ∃ chain, error = .cyclicReference chain := by
  rcases h with hcycle | ⟨hmodel, hrule, hpath, hsegments⟩
  · exact hcycle
  · have hsome := hvalid _ hmodel _ hrule _ hpath
    rw [(KeyPath.segments_error hsegments).1] at hsome
    exact nomatch hsome

end Context

end RankedRules
