/-
Texts that leave a scan as it was.

What a parser reads in one piece closes every quote that it opens, and a bracket with its contents
is closed as well. A scan that is outside of quotes in front of such a piece is outside of them
behind it, with as many brackets open. The pieces can be put together, so this is carried through a
parser token by token.

* `Scan.QuotedTail` — what stands behind an opening quote, up to the quote that closes it;
* `Scan.Settled` — a text that leaves a scan as it was, and in which a character is nowhere free;
* `Scan.Settled.append`, `Scan.Settled.of_plain`, `Scan.Settled.quoted`, `Scan.Settled.nested` — how
  such texts are made;
* `Scan.NoFree.respectNesting` — what is nowhere free outside quotes is not free outside brackets.
-/
import RankedRules.Proofs.Text.Passing

namespace RankedRules.Scan

variable {nesting : Bool} {n : Char} {s : State}

/-! ## Characters that are nowhere free -/

namespace NoFree

theorem nil (s : State) : NoFree nesting n s [] := by
  intro front behind hsplit
  simp at hsplit

theorem cons {c : Char} {text : List Char} (h : isFree nesting s c = false ∨ n ≠ c)
    (htext : NoFree nesting n (s.next nesting c) text) : NoFree nesting n s (c :: text) := by
  intro front behind hsplit
  cases front with
  | nil =>
    obtain ⟨rfl, rfl⟩ := List.cons.inj hsplit
    exact h.resolve_right fun hne => hne rfl
  | cons d front =>
    obtain ⟨rfl, rfl⟩ := List.cons.inj hsplit
    exact htext front behind rfl

theorem append {front behind : List Char} (hfront : NoFree nesting n s front)
    (hbehind : NoFree nesting n (s.after nesting front) behind) :
    NoFree nesting n s (front ++ behind) := by
  induction front generalizing s with
  | nil => exact hbehind
  | cons c front ih =>
    have hrest : NoFree nesting n (s.after nesting [c]) front := hfront.right
    refine .cons ?_ (ih hrest hbehind)
    by_cases hc : n = c
    · subst hc
      exact .inl (hfront [] front rfl)
    · exact .inr hc

end NoFree

/-! ## Quoted texts -/

/-- What stands behind an opening quote, up to the quote that closes it. A backslash keeps the next
character from closing it. -/
inductive QuotedTail (quote : Char) : List Char → Prop
  | close : QuotedTail quote [quote]
  | escaped (c : Char) {cs : List Char} (hcs : QuotedTail quote cs) :
      QuotedTail quote ('\\' :: c :: cs)
  | plain {c : Char} {cs : List Char} (hslash : c ≠ '\\') (hquote : c ≠ quote)
      (hcs : QuotedTail quote cs) : QuotedTail quote (c :: cs)

/-- Inside of quotes nothing is free, and behind them a scan is outside again. -/
theorem QuotedTail.settled {quote : Char} (hquote : isQuote quote = true) {cs : List Char}
    (h : QuotedTail quote cs) (depth : Nat) :
    (⟨some quote, false, depth⟩ : State).after nesting cs = outside depth ∧
      NoFree nesting n ⟨some quote, false, depth⟩ cs := by
  have hslash : quote ≠ '\\' := by
    rintro rfl
    cases hquote
  induction h with
  | close =>
    refine ⟨?_, .cons (.inl rfl) (.nil _)⟩
    show (⟨some quote, false, depth⟩ : State).next nesting quote = outside depth
    simp [State.next, hslash]
  | escaped c _ ih => exact ⟨ih.1, .cons (.inl rfl) (.cons (.inl rfl) ih.2)⟩
  | @plain c cs hc hne _ ih =>
    have hnext : (⟨some quote, false, depth⟩ : State).next nesting c =
        ⟨some quote, false, depth⟩ := by
      simp [State.next, hc, hne]
    refine ⟨?_, .cons (.inl rfl) (by rw [hnext]; exact ih.2)⟩
    rw [State.after, List.foldl_cons, hnext]
    exact ih.1

/-! ## Texts that leave a scan as it was -/

/-- A text behind which a scan is outside of quotes again, with as many brackets open as in front,
and in which `n` is nowhere free. -/
structure Settled (nesting : Bool) (n : Char) (depth : Nat) (text : List Char) : Prop where
  state : (outside depth).after nesting text = outside depth
  noFree : NoFree nesting n (outside depth) text

namespace Settled

variable {depth : Nat}

theorem nil : Settled nesting n depth [] := ⟨rfl, .nil _⟩

theorem append {front behind : List Char} (hfront : Settled nesting n depth front)
    (hbehind : Settled nesting n depth behind) : Settled nesting n depth (front ++ behind) := by
  refine ⟨?_, hfront.noFree.append ?_⟩
  · rw [after_append, hfront.state, hbehind.state]
  · rw [hfront.state]
    exact hbehind.noFree

/-- A text without quotes and brackets, in which `n` does not occur or brackets are open. -/
theorem of_plain {text : List Char} (h : ∀ c ∈ text, IsPlain nesting c ∧ (n ≠ c ∨ depth ≠ 0)) :
    Settled nesting n depth text := by
  refine ⟨after_of_plain (fun c hc => (h c hc).1) depth, ?_⟩
  induction text with
  | nil => exact .nil _
  | cons c text ih =>
    obtain ⟨hplain, hfree⟩ := h c List.mem_cons_self
    have hstop : isFree nesting (outside depth) c = false ∨ n ≠ c := by
      rcases hfree with hne | hdepth
      · exact .inr hne
      · exact .inl (by simp [isFree, hdepth])
    refine .cons hstop ?_
    rw [next_of_isPlain hplain]
    exact ih fun d hd => h d (List.mem_cons_of_mem c hd)

/-- Blanks are such a text. -/
theorem of_blanks (hn : Text.isBlank n = false) {text : List Char} (h : Text.Blanks text) :
    Settled nesting n depth text :=
  of_plain fun c hc => ⟨isPlain_of_isBlank (h c hc), .inl (Text.ne_of_isBlank (h c hc) hn).symm⟩

theorem quoted {quote : Char} (hquote : isQuote quote = true) {text : List Char}
    (h : QuotedTail quote text) : Settled nesting n depth (quote :: text) := by
  have hopen : (outside depth).next nesting quote = ⟨some quote, false, depth⟩ := by
    simp [State.next, hquote]
  obtain ⟨hstate, hfree⟩ : (⟨some quote, false, depth⟩ : State).after nesting text = outside depth ∧
      NoFree nesting n ⟨some quote, false, depth⟩ text := h.settled hquote depth
  refine ⟨?_, .cons (.inl (by simp [isFree, hquote])) (by rw [hopen]; exact hfree)⟩
  rw [State.after, List.foldl_cons, hopen]
  exact hstate

/-- Brackets with something between them that is settled. -/
theorem nested {c d : Char} (hc : isQuote c = false ∧ isOpening c = true)
    (hd : isQuote d = false ∧ isOpening d = false ∧ isClosing d = true) {inner : List Char}
    (h : Settled true n (depth + 1) inner) : Settled true n depth (c :: (inner ++ [d])) := by
  have hopen : (outside depth).next true c = outside (depth + 1) := by
    simp [State.next, hc.1, hc.2]
  have hclose : (outside (depth + 1)).next true d = outside depth := by
    simp [State.next, hd.1, hd.2.1, hd.2.2]
  have hinner : (outside (depth + 1)).after true (inner ++ [d]) = outside depth := by
    rw [after_append, h.state]
    exact hclose
  refine ⟨?_, .cons (.inl (by simp [isFree, hc.2])) ?_⟩
  · rw [State.after, List.foldl_cons, hopen]
    exact hinner
  · rw [hopen]
    refine h.noFree.append ?_
    rw [h.state]
    exact .cons (.inl (by simp [isFree, hd.2.2])) (.nil _)

end Settled

/-! ## Brackets -/

/-- What is nowhere free outside of quotes is not free outside of quotes and brackets either. -/
theorem NoFree.respectNesting {text : List Char} (h : NoFree false n {} text) :
    NoFree true n {} text := by
  intro front behind hsplit
  refine Bool.eq_false_iff.2 fun hfree => ?_
  have hnot := h front behind hsplit
  have hquote : (({} : State).after true front).quote = (({} : State).after false front).quote :=
    quote_after_congr rfl rfl front
  have hdepth : (({} : State).after false front).depth = 0 := depth_after_false {} front
  rw [isFree, hquote] at hfree
  rw [isFree, hdepth] at hnot
  simp only [Bool.and_eq_true] at hfree
  simp [hfree.1.1.1, hfree.1.2] at hnot

end RankedRules.Scan
