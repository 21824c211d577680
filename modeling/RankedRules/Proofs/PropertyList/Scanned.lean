/-
The search for the semicolon of a rule passes over property lists.

Brackets are closed where they have been opened, strings are quoted with their quotes escaped, and
the semicolons of objects are inside of their braces.

* `PropertyList.Printable.text_passes` — the text of a value is passed over at every depth.
-/
import RankedRules.Proofs.PropertyList.Reading
import RankedRules.Proofs.Text.Passing

namespace RankedRules.PropertyList

open Scan

/-- What contains none of the signs is passed over. -/
theorem passes_of_signs {cs : List Char}
    (h : ∀ c ∈ cs, c ∉ ['"', '\'', '(', ')', '\x7b', '\x7d', ';']) (depth : Nat) :
    Passes true [';'] (outside depth) cs (outside depth) := by
  refine .of_plain (fun c hc => ?_) depth
  have hc := h c hc
  simp only [List.mem_cons, List.not_mem_nil, or_false, not_or] at hc
  obtain ⟨hdouble, hsingle, hopen, hclose, hbrace, hbrace', hend⟩ := hc
  refine ⟨⟨?_, ?_, ?_⟩, Ne.symm hend⟩
  · rw [isQuote, decide_eq_false hdouble, decide_eq_false hsingle]
    rfl
  · rw [isOpening, decide_eq_false hbrace, decide_eq_false hopen]
    rfl
  · rw [isClosing, decide_eq_false hbrace', decide_eq_false hclose]
    rfl

theorem opening_passes {c : Char} (hc : c = '(' ∨ c = '\x7b') (depth : Nat) :
    Passes true [';'] (outside depth) [c] (outside (depth + 1)) := by
  rcases hc with rfl | rfl <;> exact .single (.inl (by simp [isFree, isOpening]))

theorem closing_passes {c : Char} (hc : c = ')' ∨ c = '\x7d') (depth : Nat) :
    Passes true [';'] (outside (depth + 1)) [c] (outside depth) := by
  rcases hc with rfl | rfl <;> exact .single (.inl (by simp [isFree]))

/-- Inside of brackets, a semicolon is not free. -/
theorem semicolon_passes (depth : Nat) :
    Passes true [';'] (outside (depth + 1)) [';', ' '] (outside (depth + 1)) := by
  have hend : Passes true [';'] (outside (depth + 1)) [';'] (outside (depth + 1)) :=
    .single (.inl (by simp [isFree]))
  exact hend.append (passes_of_signs (by decide) _)

theorem quote_passes (s : String) (depth : Nat) :
    Passes true [';'] (outside depth) (quote s).toList (outside depth) := by
  rw [quote_toList]
  refine .quoted rfl (fun c => ?_) s.toList depth
  rw [quoteChar]
  split
  · exact .inl ⟨_, rfl⟩
  · rename_i hquote
    split
    · exact .inl ⟨_, rfl⟩
    · rename_i hslash
      split
      · exact .inl ⟨_, rfl⟩
      · split
        · exact .inl ⟨_, rfl⟩
        · exact .inr ⟨rfl, hslash, hquote⟩

theorem number_passes (n : Number) (depth : Nat) :
    Passes true [';'] (outside depth) n.text.toList (outside depth) := by
  rw [Number.text, String.toList_ofList]
  refine passes_of_signs (fun c hc hsign => ?_) depth
  have hc := Number.isScientificChar_of_mem_chars hc
  have hnone : ∀ d ∈ ['"', '\'', '(', ')', '\x7b', '\x7d', ';'],
      Decimal.isScientificChar d = false := by decide
  rw [hnone c hsign] at hc
  cases hc

theorem itemTexts_passes {items : List Value} {depth : Nat}
    (h : ∀ v ∈ items, Passes true [';'] (outside depth) (text v).toList (outside depth)) :
    Passes true [';'] (outside depth) (Text.join ", " (itemTexts items)).toList
      (outside depth) := by
  induction items with
  | nil => exact .nil _
  | cons v others ih =>
    have hv := h v List.mem_cons_self
    cases others with
    | nil => exact hv
    | cons next others =>
      have hothers := ih fun w hw => h w (List.mem_cons_of_mem v hw)
      have hcomma : Passes true [';'] (outside depth) ", ".toList (outside depth) :=
        passes_of_signs (by decide) depth
      have hall := (hv.append hcomma).append hothers
      simpa [itemTexts, Text.join] using hall

theorem memberTexts_passes {members : List (String × Value)} {depth : Nat}
    (h : ∀ member ∈ members, Passes true [';'] (outside (depth + 1)) (text member.2).toList
      (outside (depth + 1))) :
    Passes true [';'] (outside (depth + 1)) (memberTexts members).toList
      (outside (depth + 1)) := by
  induction members with
  | nil => exact .nil _
  | cons member others ih =>
    obtain ⟨name, v⟩ := member
    have hv := h (name, v) List.mem_cons_self
    have hothers := ih fun w hw => h w (List.mem_cons_of_mem _ hw)
    have hequals : Passes true [';'] (outside (depth + 1)) " = ".toList (outside (depth + 1)) :=
      passes_of_signs (by decide) _
    have hall := (((quote_passes name _).append hequals).append hv).append
      ((semicolon_passes depth).append hothers)
    simpa [memberTexts] using hall

/-- The search for a semicolon passes over the text of a value. -/
theorem Printable.text_passes {v : Value} (h : Printable v) (depth : Nat) :
    Passes true [';'] (outside depth) (text v).toList (outside depth) := by
  induction h generalizing depth with
  | @number n hn => exact number_passes n depth
  | string s => exact quote_passes s depth
  | @array items hitems ih =>
    have hblank : Passes true [';'] (outside (depth + 1)) [' '] (outside (depth + 1)) :=
      passes_of_signs (by decide) _
    have hall := ((opening_passes (.inl rfl) depth).append hblank).append
      ((itemTexts_passes fun v hv => ih v hv (depth + 1)).append
        (hblank.append (closing_passes (.inl rfl) depth)))
    simpa [text] using hall
  | @object members hsorted hmembers ih =>
    have hblank : Passes true [';'] (outside (depth + 1)) [' '] (outside (depth + 1)) :=
      passes_of_signs (by decide) _
    have hall := ((opening_passes (.inr rfl) depth).append hblank).append
      ((memberTexts_passes fun member hmember => ih member hmember (depth + 1)).append
        (closing_passes (.inr rfl) depth))
    simpa [text] using hall

end RankedRules.PropertyList
