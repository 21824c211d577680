/-
Texts without the blanks at their ends.

* `Text.Blanks` — nothing but blanks;
* `Text.trim_append` — blanks around a text do not matter when it is trimmed;
* `Text.exists_trim` — and only blanks are trimmed;
* `Text.Solid`, `Text.Solid.trim_eq` — texts without blanks at their ends stay as they are.
-/
import Mathlib.Data.List.TakeWhile
import RankedRules.Text.Blank

namespace RankedRules.Text

/-- Nothing but blanks, or nothing at all. -/
def Blanks (cs : List Char) : Prop := ∀ c ∈ cs, isBlank c = true

theorem Blanks.nil : Blanks [] := by
  rintro c ⟨⟩

theorem Blanks.single {c : Char} (h : isBlank c = true) : Blanks [c] :=
  List.forall_mem_singleton.2 h

theorem Blanks.append {front behind : List Char} (hfront : Blanks front) (hbehind : Blanks behind) :
    Blanks (front ++ behind) := fun c hc => (List.mem_append.1 hc).elim (hfront c) (hbehind c)

theorem trimStart_of_not_blank {c : Char} (h : isBlank c = false) (cs : List Char) :
    trimStart (c :: cs) = c :: cs :=
  List.dropWhile_cons_of_neg (by simp [h])

theorem trimStart_eq_nil_iff {cs : List Char} : trimStart cs = [] ↔ Blanks cs :=
  List.dropWhile_eq_nil_iff

theorem trimStart_of_blanks {cs : List Char} (h : Blanks cs) : trimStart cs = [] :=
  trimStart_eq_nil_iff.2 h

/-- The blanks that a text starts with, and the rest. -/
theorem exists_trimStart (cs : List Char) : ∃ front, Blanks front ∧ cs = front ++ trimStart cs := by
  refine ⟨cs.takeWhile isBlank, ?_, List.takeWhile_append_dropWhile.symm⟩
  intro c hc
  exact List.all_eq_true.1 (List.all_takeWhile (l := cs)) c hc

theorem first_trimStart (cs : List Char) : ∀ c ∈ (trimStart cs).head?, isBlank c = false := by
  intro c hc
  have hnot := List.head?_dropWhile_not isBlank cs
  rw [← trimStart, hc] at hnot
  exact hnot

theorem trimStart_trimStart (cs : List Char) : trimStart (trimStart cs) = trimStart cs := by
  obtain ⟨front, hfront, hcs⟩ := exists_trimStart cs
  calc trimStart (trimStart cs) = trimStart (front ++ trimStart cs) :=
        (trimStart_append_of_blank hfront _).symm
    _ = trimStart cs := by rw [← hcs]

theorem trimEnd_append {behind : List Char} (h : Blanks behind) (cs : List Char) :
    trimEnd (cs ++ behind) = trimEnd cs := by
  have hreverse : ∀ c ∈ behind.reverse, isBlank c = true := fun c hc => h c (List.mem_reverse.1 hc)
  rw [trimEnd, List.reverse_append, List.dropWhile_append_of_pos hreverse, trimEnd]

theorem exists_trimEnd (cs : List Char) : ∃ behind, Blanks behind ∧ cs = trimEnd cs ++ behind := by
  obtain ⟨front, hfront, hreverse⟩ := exists_trimStart cs.reverse
  refine ⟨front.reverse, fun c hc => hfront c (List.mem_reverse.1 hc), ?_⟩
  have hcs := congrArg List.reverse hreverse
  rwa [List.reverse_reverse, List.reverse_append] at hcs

/-- The first character that is no blank stays. -/
theorem head?_trim {front : List Char} (hfront : Blanks front) {c : Char} (hc : isBlank c = false)
    (cs : List Char) : (trim (front ++ c :: cs)).head? = some c := by
  have hstart : trimStart (front ++ c :: cs) = c :: cs := by
    rw [trimStart_append_of_blank hfront, trimStart_of_not_blank hc]
  obtain ⟨behind, hbehind, hrest⟩ := exists_trimEnd (c :: cs)
  rw [trim, hstart]
  cases hend : trimEnd (c :: cs) with
  | nil =>
    rw [hend] at hrest
    have hblank := hbehind c (by rw [← List.nil_append behind, ← hrest]; exact List.mem_cons_self)
    rw [hc] at hblank
    cases hblank
  | cons d ds =>
    rw [hend] at hrest
    rw [(List.cons.inj hrest).1]
    rfl

/-- What is trimmed at its end ends with something else than a blank. -/
theorem last_trimEnd (cs : List Char) : ∀ c ∈ (trimEnd cs).getLast?, isBlank c = false := by
  intro c hc
  have hhead : (cs.reverse.dropWhile isBlank).head? = some c := by
    rwa [trimEnd, List.getLast?_reverse] at hc
  have hnot := List.head?_dropWhile_not isBlank cs.reverse
  rwa [hhead] at hnot

/-- Blanks around a text do not matter. -/
theorem trim_append {front behind : List Char} (hfront : Blanks front) (hbehind : Blanks behind)
    (cs : List Char) : trim (front ++ (cs ++ behind)) = trim cs := by
  have hstart : trimStart (cs ++ behind) =
      if (trimStart cs).isEmpty then trimStart behind else trimStart cs ++ behind :=
    List.dropWhile_append
  rw [trim, trimStart_append_of_blank hfront, hstart, trim]
  split
  · rename_i hempty
    rw [trimStart_of_blanks hbehind, List.isEmpty_iff.1 hempty]
  · rw [trimEnd_append hbehind]

/-- A blank in front of a text is trimmed. -/
theorem trim_cons {c : Char} (h : isBlank c = true) (cs : List Char) : trim (c :: cs) = trim cs := by
  simpa using trim_append (.single h) .nil cs

/-- A blank behind a text is trimmed. -/
theorem trim_concat {c : Char} (h : isBlank c = true) (cs : List Char) :
    trim (cs ++ [c]) = trim cs :=
  trim_append .nil (.single h) cs

/-- Only blanks are trimmed. -/
theorem exists_trim (cs : List Char) :
    ∃ front behind, Blanks front ∧ Blanks behind ∧ cs = front ++ (trim cs ++ behind) := by
  obtain ⟨front, hfront, hcs⟩ := exists_trimStart cs
  obtain ⟨behind, hbehind, hrest⟩ := exists_trimEnd (trimStart cs)
  exact ⟨front, behind, hfront, hbehind, by rw [trim, ← hrest, ← hcs]⟩

/-- What is no blank stays. -/
theorem mem_trim {c : Char} {cs : List Char} (hc : c ∈ cs) (hblank : isBlank c = false) :
    c ∈ trim cs := by
  obtain ⟨front, behind, hfront, hbehind, hcs⟩ := exists_trim cs
  have hnot : ∀ blanks, Blanks blanks → c ∉ blanks := fun blanks hblanks hmem => by
    rw [hblanks c hmem] at hblank
    cases hblank
  rw [hcs] at hc
  have hrest := (List.mem_append.1 hc).resolve_left (hnot front hfront)
  exact (List.mem_append.1 hrest).resolve_right (hnot behind hbehind)

/-! ## Texts that begin and end with something -/

/-- A text with something else than a blank at both ends. -/
structure Solid (cs : List Char) : Prop where
  nonempty : cs ≠ []
  first : ∀ c ∈ cs.head?, isBlank c = false
  last : ∀ c ∈ cs.getLast?, isBlank c = false

namespace Solid

theorem of_no_blank {cs : List Char} (hne : cs ≠ []) (h : ∀ c ∈ cs, isBlank c = false) :
    Solid cs :=
  ⟨hne, fun c hc => h c (List.mem_of_mem_head? hc), fun c hc => h c (List.mem_of_getLast? hc)⟩

/-- Whatever stands between two such texts. -/
theorem append {front behind : List Char} (hfront : Solid front) (hbehind : Solid behind)
    (between : List Char) : Solid (front ++ (between ++ behind)) := by
  obtain ⟨c, hc⟩ := Option.ne_none_iff_exists'.1 (mt List.head?_eq_none_iff.1 hfront.nonempty)
  obtain ⟨d, hd⟩ := Option.ne_none_iff_exists'.1 (mt List.getLast?_eq_none_iff.1 hbehind.nonempty)
  have hhead : (front ++ (between ++ behind)).head? = front.head? := by
    rw [List.head?_append, hc, Option.some_or]
  have hlast : (front ++ (between ++ behind)).getLast? = behind.getLast? := by
    rw [List.getLast?_append, List.getLast?_append, hd, Option.some_or, Option.some_or]
  refine ⟨by simp [hfront.nonempty], ?_, ?_⟩
  · rw [hhead]
    exact hfront.first
  · rw [hlast]
    exact hbehind.last

/-- Such a text stays as it is when it is trimmed. -/
theorem trim_eq {cs : List Char} (h : Solid cs) : trim cs = cs := by
  have hstart : ∀ cs : List Char, (∀ c ∈ cs.head?, isBlank c = false) →
      cs.dropWhile isBlank = cs := by
    intro cs h
    cases cs with
    | nil => rfl
    | cons c cs => exact trimStart_of_not_blank (h c rfl) cs
  have hreverse : ∀ c ∈ cs.reverse.head?, isBlank c = false := by
    rw [List.head?_reverse]
    exact h.last
  rw [trim, trimStart, hstart cs h.first, trimEnd, hstart _ hreverse, List.reverse_reverse]

theorem trim_append_blank {cs : List Char} (h : Solid cs) : trim (cs ++ [' ']) = cs := by
  rw [trim_concat rfl, h.trim_eq]

/-- A text stays solid with another one behind it that is trimmed at its end. -/
theorem append_trimEnd {front : List Char} (hfront : Solid front) (cs : List Char) :
    Solid (front ++ trimEnd cs) := by
  obtain ⟨c, hc⟩ := Option.ne_none_iff_exists'.1 (mt List.head?_eq_none_iff.1 hfront.nonempty)
  have hhead : (front ++ trimEnd cs).head? = front.head? := by
    rw [List.head?_append, hc, Option.some_or]
  refine ⟨by simp [hfront.nonempty], ?_, fun d hd => ?_⟩
  · rw [hhead]
    exact hfront.first
  · rw [List.getLast?_append] at hd
    cases hlast : (trimEnd cs).getLast? with
    | none =>
      rw [hlast, Option.none_or] at hd
      exact hfront.last d hd
    | some e =>
      rw [hlast, Option.some_or] at hd
      cases hd
      exact last_trimEnd cs d hlast

/-- What trimming leaves is such a text, if it leaves anything. -/
theorem of_trim {cs : List Char} (hne : trim cs ≠ []) : Solid (trim cs) := by
  refine ⟨hne, fun c hc => ?_, fun c hc => ?_⟩
  · obtain ⟨behind, _, hcs⟩ := exists_trimEnd (trimStart cs)
    have hhead : (trimStart cs).head? = some c := by
      rw [hcs, ← trim, List.head?_append, hc]
      rfl
    exact first_trimStart cs c hhead
  · exact last_trimEnd (trimStart cs) c hc

/-- Such an end of a text stays. -/
theorem suffix_trimStart {cs ending : List Char} (h : Solid ending) (hcs : ending <:+ cs) :
    ending <:+ trimStart cs := by
  obtain ⟨front, rfl⟩ := hcs
  obtain ⟨c, rest, rfl⟩ := List.exists_cons_of_ne_nil h.nonempty
  rw [trimStart, List.dropWhile_append]
  split
  · exact ⟨[], (trimStart_of_not_blank (h.first c rfl) rest).symm⟩
  · exact ⟨_, rfl⟩

theorem suffix_trim {cs ending : List Char} (h : Solid ending) (hcs : ending <:+ cs) :
    ending <:+ trim cs := by
  obtain ⟨front, hstart⟩ := h.suffix_trimStart hcs
  obtain ⟨behind, hbehind, htext⟩ := exists_trimEnd (front ++ ending)
  cases hlast : behind.getLast? with
  | none =>
    rw [List.getLast?_eq_none_iff.1 hlast, List.append_nil] at htext
    exact ⟨front, by rw [trim, ← hstart, ← htext]⟩
  | some d =>
    -- The last character would be a blank.
    have hd : d ∈ ending.getLast? := by
      have hsame := congrArg List.getLast? htext
      rw [List.getLast?_append, List.getLast?_append, hlast, Option.some_or,
        List.getLast?_eq_some_getLast h.nonempty, Option.some_or] at hsame
      rw [List.getLast?_eq_some_getLast h.nonempty, hsame]
      rfl
    have hblank := hbehind d (List.mem_of_getLast? hlast)
    rw [h.last d hd] at hblank
    cases hblank

end Solid

theorem trim_trim (cs : List Char) : trim (trim cs) = trim cs := by
  by_cases h : trim cs = []
  · rw [h]
    rfl
  · exact (Solid.of_trim h).trim_eq

end RankedRules.Text
