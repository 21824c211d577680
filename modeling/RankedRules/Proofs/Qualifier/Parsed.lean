/-
What the qualifier parser can read.

The conditions that are read are well formed: their key paths are read as key paths again where they
stand, and their combinations have members enough. A key path on the left side is not `NOT`, since
the word would have been taken in front of the comparison.

* `Qualifier.keyPath_ok`, `Qualifier.operand_ok`, `Qualifier.comparison_ok` — what the readers of
  single conditions give;
* `Qualifier.wellFormed_of_expression`, `Qualifier.wellFormed_of_parse` — what is read is well
  formed.
-/
import RankedRules.Proofs.Qualifier.Reading

namespace RankedRules.Qualifier

open Text

/-! ## Single conditions -/

/-- A key path is the longest run of key characters behind the blanks. -/
theorem keyPath_ok {cs rest : List Char} {key : String} (h : keyPath cs = .ok (key, rest)) :
    IsKeyPath key ∧ trimStart cs = key.toList ++ rest ∧
      ∀ c ∈ rest.head?, isKeyChar c = false := by
  simp only [keyPath] at h
  split at h
  · cases h
  · rename_i hne
    split at h
    · cases h
    · rename_i hwell
      cases h
      rw [hasEmptySegment_iff] at hwell
      simp only [not_or] at hwell
      obtain ⟨hfirst, hlast, htwo⟩ := hwell
      refine ⟨⟨?_, ?_, ?_, ?_, ?_⟩, ?_, ?_⟩
      · rwa [String.toList_ofList]
      · rw [String.toList_ofList]
        intro c hc
        exact List.all_eq_true.1 List.all_takeWhile c hc
      · rwa [String.toList_ofList]
      · rwa [String.toList_ofList]
      · rwa [String.toList_ofList]
      · rw [String.toList_ofList, List.takeWhile_append_dropWhile]
      · intro c hc
        have hnot := List.head?_dropWhile_not isKeyChar (trimStart cs)
        rw [hc] at hnot
        exact hnot

/-- What a word on the right side means. -/
theorem wordOperand_ok {key : String} (hkey : IsKeyPath key)
    (hfirst : ∀ c ∈ key.toList.head?, c.isDigit = false) :
    (∃ v, wordOperand key = .literal v ∧ IsLiteral v) ∨
      wordOperand key = .path key ∧ IsRightKey key := by
  rw [wordOperand.eq_def]
  split
  · exact .inl ⟨_, rfl, .bool true⟩
  · exact .inl ⟨_, rfl, .bool true⟩
  · exact .inl ⟨_, rfl, .bool false⟩
  · exact .inl ⟨_, rfl, .bool false⟩
  · exact .inl ⟨_, rfl, .null⟩
  · exact .inl ⟨_, rfl, .null⟩
  · refine .inr ⟨rfl, { hkey with noDigitFirst := hfirst, noConstant := ?_ }⟩
    simp_all

/-- The right side of a comparison is a literal of the grammar or a key path. -/
theorem operand_ok {cs rest : List Char} {right : Operand} (h : operand cs = .ok (right, rest)) :
    (∃ v, right = .literal v ∧ IsLiteral v) ∨ ∃ key, right = .path key ∧ IsRightKey key := by
  simp only [operand] at h
  split at h
  · cases h
  · rename_i c others hcs
    split at h
    · split at h
      · cases h
        exact .inl ⟨_, rfl, .string _⟩
      · cases h
    · split at h
      · split at h
        · rename_i n hn
          cases h
          exact .inl ⟨_, rfl, .number (Number.isReadable_of_ofChars? hn)⟩
        · cases h
      · rename_i hnumber
        obtain ⟨⟨key, behind⟩, hread, h⟩ := bind_eq_ok_iff.1 h
        cases h
        obtain ⟨hkey, htrim, _⟩ := keyPath_ok hread
        -- What begins with a digit would have been read as a number.
        have hfirst : ∀ d ∈ key.toList.head?, d.isDigit = false := by
          have hblank : isBlank c = false := first_trimStart cs c (by rw [hcs]; rfl)
          rw [trimStart_of_not_blank hblank] at htrim
          intro d hd
          have hhead : (key.toList ++ behind).head? = some d := by
            rw [List.head?_append, hd, Option.some_or]
          rw [← htrim] at hhead
          cases hhead
          exact Bool.eq_false_iff.2 fun hdigit => hnumber (.inl hdigit)
        rcases wordOperand_ok hkey hfirst with ⟨v, hv, hliteral⟩ | ⟨hpath, hright⟩
        · exact .inl ⟨v, hv, hliteral⟩
        · exact .inr ⟨_, hpath, hright⟩

/-- A comparison in front of which no `NOT` has been taken is well formed. -/
theorem comparison_ok {cs rest : List Char} {q : Qualifier} (hword : keyword? "NOT" cs = none)
    (h : comparison cs = .ok (q, rest)) : q.WellFormed IsLiteral := by
  obtain ⟨⟨left, behindLeft⟩, hleft, h⟩ := bind_eq_ok_iff.1 h
  obtain ⟨⟨op, behindOp⟩, _, h⟩ := bind_eq_ok_iff.1 h
  obtain ⟨⟨right, behindRight⟩, hright, h⟩ := bind_eq_ok_iff.1 h
  obtain ⟨hkey, htrim, hstop⟩ := keyPath_ok hleft
  -- A key path `NOT` would have been the word in front of a condition.
  have hnot : ¬IsWord "NOT" left.toList := by
    intro hnot
    have hread := afterWord?_append hstop left.toList
    rw [hnot, ← htrim] at hread
    rw [keyword?, hread] at hword
    cases hword
  have hpath : IsLeftKey left := { hkey with noWord := hnot }
  rcases operand_ok hright with ⟨v, rfl, hliteral⟩ | ⟨key, rfl, hkey⟩
  · cases h
    exact .compare op hpath hliteral
  · cases h
    exact .compareKeys op hpath hkey

/-! ## Combinations -/

/-- A single condition or an expression in parentheses is well formed. -/
theorem primary_ok {nested : Reader Cause Qualifier} {cs rest : List Char} {q : Qualifier}
    (hnested : ∀ cs q rest, nested cs = .ok (q, rest) → q.WellFormed IsLiteral)
    (hword : keyword? "NOT" cs = none) (h : primary nested cs = .ok (q, rest)) :
    q.WellFormed IsLiteral := by
  rw [primary] at h
  split at h
  · obtain ⟨⟨q', behind⟩, hread, h⟩ := bind_eq_ok_iff.1 h
    dsimp only at h
    split at h
    · cases h
      exact hnested _ _ _ hread
    · cases h
  · split at h
    · cases h
      exact .constant true
    · cases h
      exact .constant false
    · -- The comparison is read from where the blanks end, and the word was looked for there, too.
      refine comparison_ok ?_ h
      rw [keyword?] at hword ⊢
      obtain ⟨front, hfront, hcs⟩ := exists_trimStart cs
      have happend := trimStart_append_of_blank hfront (trimStart cs)
      rw [← hcs] at happend
      rwa [← happend]

/-- A condition behind any number of `NOT` is well formed. -/
theorem negation_ok {nested : Reader Cause Qualifier} {n : Nat} {cs rest : List Char}
    {q : Qualifier} (hnested : ∀ cs q rest, nested cs = .ok (q, rest) → q.WellFormed IsLiteral)
    (hn : cs.length ≤ n) (h : negation (primary nested) n cs = .ok (q, rest)) :
    q.WellFormed IsLiteral := by
  induction n generalizing cs q rest with
  | zero =>
    have hnil : cs = [] := List.eq_nil_of_length_eq_zero (Nat.le_zero.1 hn)
    subst hnil
    exact primary_ok hnested rfl h
  | succ n ih =>
    cases hword : keyword? "NOT" cs with
    | none =>
      rw [negation_of_no_word hword] at h
      exact primary_ok hnested hword h
    | some behind =>
      have hle := length_keyword?_le hword
      rw [show "NOT".toList.length = 3 from rfl] at hle
      simp only [negation, hword] at h
      obtain ⟨⟨inner, left⟩, hread, h⟩ := bind_eq_ok_iff.1 h
      cases h
      exact .not (ih (by omega) hread)

/-- The members of a chain are what the reader of members reads, and there is at least one. -/
theorem chain_ok {P : Qualifier → Prop} {word : String} {member : Reader Cause Qualifier} {n : Nat}
    {cs rest : List Char} {members : List Qualifier}
    (hmember : ∀ cs q rest, member cs = .ok (q, rest) → P q)
    (h : chain word member n cs = .ok (members, rest)) : members ≠ [] ∧ ∀ q ∈ members, P q := by
  induction n generalizing cs members with
  | zero =>
    rw [chain] at h
    obtain ⟨⟨q, behind⟩, hread, h⟩ := bind_eq_ok_iff.1 h
    cases h
    exact ⟨by simp, List.forall_mem_singleton.2 (hmember _ _ _ hread)⟩
  | succ n ih =>
    rw [chain] at h
    obtain ⟨⟨q, behind⟩, hread, h⟩ := bind_eq_ok_iff.1 h
    have hfirst := hmember _ _ _ hread
    dsimp only at h
    split at h
    · obtain ⟨⟨others, left⟩, hothers, h⟩ := bind_eq_ok_iff.1 h
      cases h
      exact ⟨by simp, List.forall_mem_cons.2 ⟨hfirst, (ih hothers).2⟩⟩
    · cases h
      exact ⟨by simp, List.forall_mem_singleton.2 hfirst⟩

theorem combination_ok {connective : Connective} {member : Reader Cause Qualifier}
    {cs rest : List Char} {q : Qualifier}
    (hmember : ∀ cs q rest, member cs = .ok (q, rest) → q.WellFormed IsLiteral)
    (h : combination connective member cs = .ok (q, rest)) : q.WellFormed IsLiteral := by
  rw [combination] at h
  obtain ⟨⟨members, behind⟩, hread, h⟩ := bind_eq_ok_iff.1 h
  cases h
  obtain ⟨hne, hmembers⟩ := chain_ok hmember hread
  rcases members with - | ⟨first, - | ⟨second, others⟩⟩
  · exact absurd rfl hne
  · exact hmembers first List.mem_cons_self
  · exact .compound connective (by simp) hmembers

/-- Every condition that is read is well formed. -/
theorem wellFormed_of_expression {depth : Nat} {cs rest : List Char} {q : Qualifier}
    (h : expression depth cs = .ok (q, rest)) : q.WellFormed IsLiteral := by
  induction depth generalizing cs q rest with
  | zero => cases h
  | succ depth ih =>
    rw [expression_succ] at h
    refine combination_ok (fun cs q rest hall => ?_) h
    refine combination_ok (fun cs q rest hitem => ?_) hall
    exact negation_ok (fun _ _ _ hnested => ih hnested) (Nat.le_refl _) hitem

/-- Every condition that a whole text is is well formed. -/
theorem wellFormed_of_parse {cs : List Char} {q : Qualifier} (h : parse cs = .ok q) :
    q.WellFormed IsLiteral := by
  rw [parse] at h
  obtain ⟨rest, hread, _⟩ := Reader.whole_eq_ok_iff.1 h
  exact wellFormed_of_expression hread

end RankedRules.Qualifier
