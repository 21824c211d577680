/-
Inference selects the best rule that applies.

The rules for a key are asked in rank order until one of them applies or has a cycle in its
condition. Said without the ranking: of the rules for the key that do either there is exactly one
that no other is ahead of, by priority, specificity and position in the model, and this one decides
the value.

* `Rule.Matches`, `Rule.RaisesCycle` — what the condition of a rule comes to;
* `Context.fireFirst_append` — rules that do not decide are passed over;
* `Model.Selected` — the rule that decides the value of a key, and its position;
* `Context.fireFirst_rulesFor` — the rules for a key give what the selected rule gives;
* `Context.inferred_selects` — so does inference, with the key in progress.
-/
import RankedRules.Proofs.Inference.Reads
import RankedRules.Proofs.Ranking

namespace RankedRules

variable {look : Lookup (Except EvalError)}

/-! ## What a condition comes to -/

namespace Rule

/-- The rule has a condition, and it holds. -/
def Matches (look : Lookup (Except EvalError)) (rule : Rule) : Prop :=
  ∃ q, rule.qualifier = some q ∧ q.evaluate look = .ok true

/-- The rule has a condition, and its evaluation ends in a cycle. -/
def RaisesCycle (look : Lookup (Except EvalError)) (rule : Rule) (chain : List String) : Prop :=
  ∃ q, rule.qualifier = some q ∧ q.evaluate look = .error (.cyclicReference chain)

/-- The rule lets no later one be asked: it applies or its condition ends in a cycle. -/
def Decides (look : Lookup (Except EvalError)) (rule : Rule) : Prop :=
  rule.Matches look ∨ ∃ chain, rule.RaisesCycle look chain

theorem holds_of_matches {rule : Rule} (h : rule.Matches look) : rule.holds look = .ok true := by
  obtain ⟨q, hq, heval⟩ := h
  rw [holds, hq]
  simp only [heval]
  rfl

theorem holds_of_raisesCycle {rule : Rule} {chain : List String}
    (h : rule.RaisesCycle look chain) :
    rule.holds look = .error (.cyclicReference chain) := by
  obtain ⟨q, hq, heval⟩ := h
  rw [holds, hq]
  simp only [heval]
  rfl

/-- Every other rule does not apply: it has no condition, or one that does not hold or cannot be
evaluated. -/
theorem holds_of_not_decides {rule : Rule} (h : ¬rule.Decides look) :
    rule.holds look = .ok false := by
  rw [holds]
  cases hq : rule.qualifier with
  | none => rfl
  | some q =>
    simp only
    cases heval : q.evaluate look with
    | ok result =>
      cases result with
      | true => exact absurd (.inl ⟨q, hq, heval⟩) h
      | false => rfl
    | error error =>
      cases error with
      | cyclicReference chain => exact absurd (.inr ⟨chain, q, hq, heval⟩) h
      | unsupportedQualifier text => rfl
      | invalidKeyPath path => rfl

end Rule

/-! ## Lists of rules -/

namespace Context

theorem fireFirst_of_matches {rule : Rule} (h : rule.Matches look) (back : List Rule) :
    fireFirst look (rule :: back) = rule.fire look := by
  rw [fireFirst, Rule.holds_of_matches h]
  rfl

theorem fireFirst_of_raisesCycle {rule : Rule} {chain : List String}
    (h : rule.RaisesCycle look chain) (back : List Rule) :
    fireFirst look (rule :: back) = .error (.cyclicReference chain) := by
  rw [fireFirst, Rule.holds_of_raisesCycle h]
  rfl

/-- Rules that do not decide are passed over. -/
theorem fireFirst_append {front : List Rule} (h : ∀ rule ∈ front, ¬rule.Decides look)
    (back : List Rule) : fireFirst look (front ++ back) = fireFirst look back := by
  induction front with
  | nil => rfl
  | cons rule front ih =>
    have hrule : rule.holds look = .ok false :=
      Rule.holds_of_not_decides (h rule List.mem_cons_self)
    rw [List.cons_append, fireFirst, hrule]
    exact ih fun other hother => h other (List.mem_cons_of_mem rule hother)

/-- Among rules with their positions, either none decides or there is a first one that does. -/
theorem exists_first_decides (look : Lookup (Except EvalError)) (rules : List (Rule × Nat)) :
    (∀ a ∈ rules, ¬a.1.Decides look) ∨
      ∃ front a back, rules = front ++ a :: back ∧ a.1.Decides look ∧
        ∀ b ∈ front, ¬b.1.Decides look := by
  induction rules with
  | nil => exact .inl (by simp)
  | cons a rest ih =>
    by_cases ha : a.1.Decides look
    · exact .inr ⟨[], a, rest, rfl, ha, by simp⟩
    rcases ih with hnone | ⟨front, b, back, rfl, hb, hfront⟩
    · exact .inl (List.forall_mem_cons.2 ⟨ha, hnone⟩)
    · exact .inr ⟨a :: front, b, back, rfl, hb, List.forall_mem_cons.2 ⟨ha, hfront⟩⟩

end Context

/-! ## The selected rule -/

/-- At position `i` of the model stands the rule that decides the value of a key: it is for the
key, it decides, and no rule for the key that is ahead of it does. -/
structure Model.Selected (model : Model) (look : Lookup (Except EvalError)) (key : String)
    (i : Nat) (rule : Rule) : Prop where
  position : model.rules[i]? = some rule
  targets : rule.targets key = true
  decides : rule.Decides look
  first : ∀ j other, model.rules[j]? = some other → other.targets key = true →
    Rule.Ahead (other, j) (rule, i) → ¬other.Decides look

/-- There are no two selected rules. -/
theorem Model.Selected.unique {model : Model} {key : String} {i j : Nat} {rule other : Rule}
    (h : model.Selected look key i rule) (h' : model.Selected look key j other) : j = i := by
  by_contra hne
  rcases Rule.ahead_or_ahead (a := (other, j)) (b := (rule, i)) hne with hahead | hahead
  · exact h.first j other h'.position h'.targets hahead h'.decides
  · exact h'.first i rule h.position h.targets hahead h.decides

namespace Context

/-- The rules for a key give nothing if none decides, and otherwise what the selected one gives:
its value if it applies, its cycle if there is one in its condition. -/
theorem fireFirst_rulesFor {c : Context} {model : Model} {key : String}
    (hmodel : c.model = some model) :
    ((∀ (i : Nat) (rule : Rule), model.rules[i]? = some rule → rule.targets key = true →
          ¬rule.Decides look) ∧
        fireFirst look (c.rulesFor key) = .ok none) ∨
      ∃ i rule, model.Selected look key i rule ∧
        (rule.Matches look → fireFirst look (c.rulesFor key) = rule.fire look) ∧
        ∀ chain, rule.RaisesCycle look chain →
          fireFirst look (c.rulesFor key) = .error (.cyclicReference chain) := by
  have hrules : c.rulesFor key = (model.candidatesAt key).map Prod.fst := by
    rw [rulesFor, hmodel]
    exact model.candidates_eq_map key
  rw [hrules]
  rcases exists_first_decides look (model.candidatesAt key) with
    hnone | ⟨front, ⟨rule, i⟩, back, hsplit, hdecides, hfront⟩
  · refine .inl ⟨fun i rule hrule htargets => ?_, ?_⟩
    · exact hnone (rule, i) (Model.mem_candidatesAt.2 ⟨hrule, htargets⟩)
    · have hpass : ∀ rule ∈ (model.candidatesAt key).map Prod.fst, ¬rule.Decides look := by
        intro rule hrule
        obtain ⟨a, ha, rfl⟩ := List.mem_map.1 hrule
        exact hnone a ha
      have hfire := fireFirst_append hpass []
      rw [List.append_nil] at hfire
      exact hfire
  · have hmem : (rule, i) ∈ model.candidatesAt key := by
      rw [hsplit]
      exact List.mem_append_right _ List.mem_cons_self
    obtain ⟨hposition, htargets⟩ := Model.mem_candidatesAt.1 hmem
    have hpass : ∀ other ∈ front.map Prod.fst, ¬other.Decides look := by
      intro other hother
      obtain ⟨b, hb, rfl⟩ := List.mem_map.1 hother
      exact hfront b hb
    have hfire : fireFirst look ((model.candidatesAt key).map Prod.fst) =
        fireFirst look (rule :: back.map Prod.fst) := by
      rw [hsplit, List.map_append, List.map_cons]
      exact fireFirst_append hpass _
    refine .inr ⟨i, rule, ⟨hposition, htargets, hdecides, ?_⟩, ?_, ?_⟩
    · intro j other hother htarget hahead
      have hcandidate := Model.mem_candidatesAt.2 ⟨hother, htarget⟩
      exact hfront (other, j) (Model.mem_of_ahead hsplit hcandidate hahead)
    · intro hmatches
      rw [hfire, fireFirst_of_matches hmatches]
    · intro chain hcycle
      rw [hfire, fireFirst_of_raisesCycle hcycle]

/-- Inference gives nothing if no rule for the key decides. Otherwise exactly one rule of the model
is selected, and inference gives what this one gives. Conditions and actions are evaluated with
the key in progress. -/
theorem inferred_selects {c : Context} {model : Model} {key : String}
    (hmodel : c.model = some model) (hkey : key ≠ "") :
    ((∀ (i : Nat) (rule : Rule), model.rules[i]? = some rule → rule.targets key = true →
          ¬rule.Decides (c.reader [key])) ∧
        c.inferred key = .ok none) ∨
      ((∃! i, ∃ rule, model.Selected (c.reader [key]) key i rule) ∧
        ∀ i rule, model.Selected (c.reader [key]) key i rule →
          (rule.Matches (c.reader [key]) → c.inferred key = rule.fire (c.reader [key])) ∧
          ∀ chain, rule.RaisesCycle (c.reader [key]) chain →
            c.inferred key = .error (.cyclicReference chain)) := by
  have hinferred : c.inferred key = fireFirst (c.reader [key]) (c.rulesFor key) :=
    inferThrough_of_notMem hkey (by simp)
  rw [hinferred]
  rcases fireFirst_rulesFor hmodel with
    hnone | ⟨i, rule, hselected, hmatches, hcycle⟩
  · exact .inl hnone
  · refine .inr ⟨⟨i, ⟨rule, hselected⟩, ?_⟩, ?_⟩
    · rintro j ⟨other, hother⟩
      exact hselected.unique hother
    · intro j other hother
      -- Of one position there is one rule only.
      obtain rfl : j = i := hselected.unique hother
      obtain rfl : rule = other :=
        Option.some.inj (hselected.position.symm.trans hother.position)
      exact ⟨hmatches, hcycle⟩

/-- Rules of one priority: one without a condition, a specific one that does not hold, a nested one
that does, and a later one of the same rank. -/
def tied : Context where
  model := some
    ⟨[⟨none, some (.assign "color" (.string "none")), 100⟩,
      ⟨some (.compound .all [.compare "page" .equal (.string "Other"), .constant true]),
        some (.assign "color" (.string "specific")), 100⟩,
      ⟨some (.compare "page" .equal (.string "Main")),
        some (.rule ⟨none, some (.reference "color" "theme"), 0⟩), 100⟩,
      ⟨some (.not (.constant false)), some (.assign "color" (.string "late")), 100⟩]⟩
  stored := [("page", .string "Main"), ("theme", .string "green")]

theorem inferred_selects_tied :
    ∃ model, tied.model = some model ∧ "color" ≠ "" ∧
      tied.inferred "color" = .ok (some (.string "green")) ∧
      (∃! i, ∃ rule, model.Selected (tied.reader ["color"]) "color" i rule) ∧
      ∀ i rule, model.Selected (tied.reader ["color"]) "color" i rule →
        rule.Matches (tied.reader ["color"]) →
          tied.inferred "color" = rule.fire (tied.reader ["color"]) := by
  refine ⟨_, rfl, by decide, rfl, ?_⟩
  rcases inferred_selects (show tied.model = some _ from rfl) (show "color" ≠ "" by decide) with
    ⟨-, hnone⟩ | ⟨hunique, houtcome⟩
  · exact nomatch Except.ok.inj hnone
  · exact ⟨hunique, fun i rule hselected => (houtcome i rule hselected).1⟩

end Context

end RankedRules
