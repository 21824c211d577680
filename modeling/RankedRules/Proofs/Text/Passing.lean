/-
What a scan passes over.

A scan for a needle reads on over a text if the needle does not begin in it at a free character. The
text changes the state in which the scan goes on, and the needle is found in what follows or not at
all. Texts that are passed over can be put together.

* `Scan.Passes` — a text is passed over from one state to another;
* `Scan.Passes.append`, `Scan.Passes.of_plain` — texts one after the other, and texts without signs;
* `Scan.Passes.quoted` — a quoted text with its escapes, whatever it contains;
* `Scan.cut?_of_passes` — the needle is found behind what is passed over;
* `Scan.exists_cutFrom?`, `Scan.cutFrom?_append_of_some` — a free needle is not read over, and the
  first one stays the first in a longer text;
* `Scan.NoFree`, `Scan.noFree_iff` — a single character is nowhere free, and is not found;
* `Scan.State.IsProper` — what is true of every state of a scan;
* `Scan.NoFree.trim`, `Scan.quote_after_trim` — blanks at the ends do not matter.
-/
import RankedRules.Proofs.Text.Classes
import RankedRules.Proofs.Text.Trim
import RankedRules.Text.Scan

namespace RankedRules.Scan

variable {nesting : Bool} {needle : List Char}

/-- A scan in the state `s` reads on over the text and is in the state `t` behind it. -/
def Passes (nesting : Bool) (needle : List Char) (s : State) (text : List Char) (t : State) :
    Prop :=
  ∀ rest, cutFrom? nesting needle s (text ++ rest) =
    (cutFrom? nesting needle t rest).map fun (front, behind) => (text ++ front, behind)

/-- The state with nothing open but a number of brackets. -/
abbrev outside (depth : Nat) : State := ⟨none, false, depth⟩

namespace Passes

theorem nil (s : State) : Passes nesting needle s [] s := by
  intro rest
  simp

theorem append {s t u : State} {front behind : List Char} (hfront : Passes nesting needle s front t)
    (hbehind : Passes nesting needle t behind u) : Passes nesting needle s (front ++ behind) u := by
  intro rest
  rw [List.append_assoc, hfront, hbehind, Option.map_map]
  congr 1
  funext cut
  simp

/-- A character is passed over if it is not free or if no needle begins with it. -/
theorem single {s : State} {c : Char}
    (h : isFree nesting s c = false ∨ ∀ rest, needle.isPrefixOf (c :: rest) = false) :
    Passes nesting needle s [c] (s.next nesting c) := by
  intro rest
  have hstop : (isFree nesting s c && needle.isPrefixOf (c :: rest)) = false := by
    rcases h with hfree | hneedle
    · rw [hfree, Bool.false_and]
    · rw [hneedle, Bool.and_false]
  rw [List.singleton_append, cutFrom?, hstop]
  rfl

theorem cons {s t : State} {c : Char} {text : List Char}
    (h : isFree nesting s c = false ∨ ∀ rest, needle.isPrefixOf (c :: rest) = false)
    (htext : Passes nesting needle (s.next nesting c) text t) :
    Passes nesting needle s (c :: text) t :=
  (single h).append htext

end Passes

/-- A character that neither opens nor closes anything. -/
def IsPlain (nesting : Bool) (c : Char) : Prop :=
  isQuote c = false ∧ (nesting && isOpening c) = false ∧ (nesting && isClosing c) = false

theorem next_of_isPlain {c : Char} (h : IsPlain nesting c) (depth : Nat) :
    (outside depth).next nesting c = outside depth := by
  simp [State.next, h.1, h.2.1, h.2.2]

theorem isPrefixOf_of_ne {n c : Char} (h : n ≠ c) (needle rest : List Char) :
    (n :: needle).isPrefixOf (c :: rest) = false := by
  simp [List.isPrefixOf, h]

/-- A text without signs is passed over if the needle does not begin in it. -/
theorem Passes.of_plain {n : Char} {text : List Char}
    (h : ∀ c ∈ text, IsPlain nesting c ∧ n ≠ c) (depth : Nat) :
    Passes nesting (n :: needle) (outside depth) text (outside depth) := by
  induction text with
  | nil => exact .nil _
  | cons c text ih =>
    obtain ⟨hplain, hne⟩ := h c List.mem_cons_self
    refine .cons (.inr (isPrefixOf_of_ne hne needle)) ?_
    rw [next_of_isPlain hplain]
    exact ih fun d hd => h d (List.mem_cons_of_mem c hd)

/-- A text between quotes is passed over if each of its characters is escaped or needs no escape. -/
theorem Passes.quoted {quote : Char} (hquote : isQuote quote = true) {escape : Char → List Char}
    (hescape : ∀ c, (∃ d, escape c = ['\\', d]) ∨ escape c = [c] ∧ c ≠ '\\' ∧ c ≠ quote)
    (text : List Char) (depth : Nat) :
    Passes nesting needle (outside depth) (quote :: (text.flatMap escape ++ [quote]))
      (outside depth) := by
  have hfree : ∀ (s : State) (c : Char), s.quote = some quote → isFree nesting s c = false := by
    intro s c hs
    simp [isFree, hs]
  have hopen : (outside depth).next nesting quote = ⟨some quote, false, depth⟩ := by
    simp [State.next, hquote]
  have hclose : (⟨some quote, false, depth⟩ : State).next nesting quote = outside depth := by
    have hslash : quote ≠ '\\' := by
      rintro rfl
      cases hquote
    simp [State.next, hslash]
  refine .cons (.inl (by simp [isFree, hquote])) ?_
  rw [hopen]
  induction text with
  | nil =>
    refine .cons (.inl (hfree _ _ rfl)) ?_
    rw [hclose]
    exact .nil _
  | cons c text ih =>
    rw [List.flatMap_cons, List.append_assoc]
    refine Passes.append ?_ ih
    rcases hescape c with ⟨d, hc⟩ | ⟨hc, hslash, hne⟩
    · rw [hc]
      -- The backslash is taken back by the character behind it.
      exact .cons (.inl (hfree _ _ rfl)) (.single (.inl (hfree _ _ rfl)))
    · rw [hc]
      have hnext : (⟨some quote, false, depth⟩ : State).next nesting c =
          ⟨some quote, false, depth⟩ := by
        simp [State.next, hslash, hne]
      have hsingle : Passes nesting needle ⟨some quote, false, depth⟩ [c]
          ((⟨some quote, false, depth⟩ : State).next nesting c) := .single (.inl (hfree _ _ rfl))
      rwa [hnext] at hsingle

/-- The needle is found behind what is passed over. -/
theorem cut?_of_passes {front rest : List Char} {t : State} {c : Char}
    (hneedle : needle ≠ []) (hfront : Passes nesting needle {} front t)
    (hfree : isFree nesting t c = true) (hfound : needle.isPrefixOf (c :: rest) = true) :
    cut? nesting needle (front ++ c :: rest) = some (front, c :: rest) := by
  have hempty : needle.isEmpty = false := List.isEmpty_eq_false_iff.2 hneedle
  rw [cut?, hempty, if_neg (by decide), hfront, cutFrom?, hfree, hfound]
  simp

/-! ## What is found -/

/-- The state behind a text. -/
def State.after (nesting : Bool) (s : State) (text : List Char) : State :=
  text.foldl (State.next nesting) s

theorem after_append (s : State) (front behind : List Char) :
    s.after nesting (front ++ behind) = (s.after nesting front).after nesting behind :=
  List.foldl_append

/-- Where a needle is found it begins, at a free character. -/
theorem cutFrom?_eq_some {s : State} {text front rest : List Char}
    (h : cutFrom? nesting needle s text = some (front, rest)) :
    needle <+: rest ∧ ∀ c ∈ rest.head?, isFree nesting (s.after nesting front) c = true := by
  induction text generalizing s front with
  | nil => cases h
  | cons c text ih =>
    rw [cutFrom?] at h
    split at h
    · rename_i hfound
      cases h
      obtain ⟨hfree, hbegins⟩ := Bool.and_eq_true_iff.1 hfound
      refine ⟨List.isPrefixOf_iff_prefix.1 hbegins, ?_⟩
      rintro c ⟨⟩
      exact hfree
    · obtain ⟨⟨front', rest'⟩, hcut, heq⟩ := Option.map_eq_some_iff.1 h
      cases heq
      obtain ⟨hbegins, hfree⟩ := ih hcut
      exact ⟨hbegins, hfree⟩

/-- A needle that is found stays the first one in a longer text. -/
theorem cutFrom?_append_of_some {s : State} {text front rest : List Char}
    (h : cutFrom? nesting needle s text = some (front, rest)) (more : List Char) :
    cutFrom? nesting needle s (text ++ more) = some (front, rest ++ more) := by
  induction text generalizing s front with
  | nil => cases h
  | cons c text ih =>
    have hlength : needle.length ≤ (c :: text).length := by
      have hbegins := (cutFrom?_eq_some h).1.length_le
      rw [← cutFrom?_append h, List.length_append]
      omega
    have hsame : needle.isPrefixOf (c :: (text ++ more)) = needle.isPrefixOf (c :: text) := by
      rw [Bool.eq_iff_iff, List.isPrefixOf_iff_prefix, List.isPrefixOf_iff_prefix]
      constructor
      · exact fun hbegins => List.prefix_of_prefix_length_le hbegins
          (List.prefix_append (c :: text) more) hlength
      · exact fun hbegins => hbegins.trans (List.prefix_append (c :: text) more)
    rw [List.cons_append, cutFrom?, hsame]
    rw [cutFrom?] at h
    split at h
    · rename_i hfound
      cases h
      rw [if_pos hfound]
      rfl
    · rename_i hstop
      obtain ⟨⟨front', rest'⟩, hcut, heq⟩ := Option.map_eq_some_iff.1 h
      cases heq
      rw [if_neg hstop, ih hcut]
      rfl

/-- A scan does not read on over a free occurrence, so what it finds is not behind it. -/
theorem exists_cutFrom? {s : State} {c : Char} {front behind : List Char}
    (hfree : isFree nesting (s.after nesting front) c = true) (hbegins : needle <+: c :: behind) :
    ∃ first rest, cutFrom? nesting needle s (front ++ c :: behind) = some (first, rest) ∧
      first <+: front := by
  induction front generalizing s with
  | nil =>
    have hfound : (isFree nesting s c && needle.isPrefixOf (c :: behind)) = true :=
      Bool.and_eq_true_iff.2 ⟨hfree, List.isPrefixOf_iff_prefix.2 hbegins⟩
    refine ⟨[], c :: behind, ?_, List.nil_prefix⟩
    rw [List.nil_append, cutFrom?, if_pos hfound]
  | cons d front ih =>
    rw [List.cons_append, cutFrom?]
    split
    · exact ⟨[], _, rfl, List.nil_prefix⟩
    · obtain ⟨first, rest, hcut, hfirst⟩ := ih hfree
      refine ⟨d :: first, rest, ?_, List.cons_prefix_cons.2 ⟨rfl, hfirst⟩⟩
      rw [hcut]
      rfl

/-! ## Single characters -/

/-- The character `n` is nowhere free in a text. -/
def NoFree (nesting : Bool) (n : Char) (s : State) (text : List Char) : Prop :=
  ∀ front behind, text = front ++ n :: behind → isFree nesting (s.after nesting front) n = false

namespace NoFree

variable {n : Char} {s : State}

theorem left {front behind : List Char} (h : NoFree nesting n s (front ++ behind)) :
    NoFree nesting n s front := by
  rintro before rest rfl
  exact h before (rest ++ behind) (by simp)

theorem right {front behind : List Char} (h : NoFree nesting n s (front ++ behind)) :
    NoFree nesting n (s.after nesting front) behind := by
  rintro before rest rfl
  rw [← after_append]
  exact h (front ++ before) rest (by simp)

/-- What has no free `n` is passed over on the search for `n`. -/
theorem passes {text : List Char} (h : NoFree nesting n s text) :
    Passes nesting [n] s text (s.after nesting text) := by
  induction text generalizing s with
  | nil => exact .nil s
  | cons c text ih =>
    have hrest : NoFree nesting n (s.after nesting [c]) text := h.right
    refine .cons ?_ (ih hrest)
    by_cases hc : n = c
    · subst hc
      exact .inl (h [] text rfl)
    · exact .inr (isPrefixOf_of_ne hc [])

end NoFree

/-- In front of the first free `n` there is none, and there is one. -/
theorem noFree_of_cutFrom? {n : Char} {s : State} {text front rest : List Char}
    (h : cutFrom? nesting [n] s text = some (front, rest)) :
    NoFree nesting n s front ∧ isFree nesting (s.after nesting front) n = true ∧
      ∃ behind, rest = n :: behind := by
  obtain ⟨⟨behind, rfl⟩, hfree⟩ := cutFrom?_eq_some h
  refine ⟨fun before more hsplit => Bool.eq_false_iff.2 fun hearlier => ?_, hfree n rfl, behind,
    rfl⟩
  -- A free `n` in front of the one that is found would be found itself.
  obtain ⟨first, rest, hcut, hfirst⟩ :=
    exists_cutFrom? hearlier (List.prefix_append [n] (more ++ n :: behind))
  have htext : before ++ n :: (more ++ n :: behind) = text := by
    rw [← cutFrom?_append h, hsplit]
    simp
  have hsame : cutFrom? nesting [n] s text = some (first, rest) := htext ▸ hcut
  cases h.symm.trans hsame
  have hlength := hfirst.length_le
  rw [hsplit, List.length_append, List.length_cons] at hlength
  omega

/-- A scan for what is nowhere free finds nothing. -/
theorem NoFree.cutFrom?_eq_none {n : Char} {s : State} {text : List Char}
    (h : NoFree nesting n s text) : cutFrom? nesting [n] s text = none := by
  have hpasses := h.passes []
  rwa [List.append_nil, cutFrom?, Option.map_none] at hpasses

/-- A free `n` is found, and so is the first one, whatever follows. -/
theorem exists_cut_of_not_noFree {n : Char} {s : State} {text : List Char}
    (h : ¬NoFree nesting n s text) : ∃ front behind, text = front ++ n :: behind ∧
      ∀ more, cutFrom? nesting [n] s (text ++ more) = some (front, n :: (behind ++ more)) := by
  obtain ⟨before, more, rfl, hfree⟩ : ∃ front behind, text = front ++ n :: behind ∧
      isFree nesting (s.after nesting front) n = true := by
    simpa [NoFree] using h
  obtain ⟨front, rest, hcut, -⟩ := exists_cutFrom? hfree (List.prefix_append [n] more)
  obtain ⟨⟨behind, rfl⟩, -⟩ := cutFrom?_eq_some hcut
  exact ⟨front, behind, (cutFrom?_append hcut).symm, cutFrom?_append_of_some hcut⟩

theorem noFree_iff {n : Char} {s : State} {text : List Char} :
    NoFree nesting n s text ↔ cutFrom? nesting [n] s text = none := by
  refine ⟨NoFree.cutFrom?_eq_none, fun hnone => Classical.byContradiction fun hnot => ?_⟩
  obtain ⟨front, behind, _, hcut⟩ := exists_cut_of_not_noFree hnot
  have hfound := hcut []
  rw [List.append_nil, hnone] at hfound
  cases hfound

instance (n : Char) (s : State) (text : List Char) : Decidable (NoFree nesting n s text) :=
  decidable_of_iff _ noFree_iff.symm

/-! ## Blanks -/

theorem isPlain_of_isBlank {c : Char} (h : Text.isBlank c = true) : IsPlain nesting c := by
  have hne : ∀ d, Text.isBlank d = false → decide (c = d) = false := fun d hd =>
    decide_eq_false (Text.ne_of_isBlank h hd)
  have hquote : isQuote c = false := by
    rw [isQuote, hne '"' (by decide), hne '\'' (by decide)]
    rfl
  have hopening : isOpening c = false := by
    rw [isOpening, hne '\x7b' (by decide), hne '(' (by decide)]
    rfl
  have hclosing : isClosing c = false := by
    rw [isClosing, hne '\x7d' (by decide), hne ')' (by decide)]
    rfl
  exact ⟨hquote, by rw [hopening, Bool.and_false], by rw [hclosing, Bool.and_false]⟩

/-- What is open is one of the quotes, and nothing is escaped outside of quotes. -/
structure State.IsProper (s : State) : Prop where
  isQuote : ∀ quote ∈ s.quote, isQuote quote = true
  notEscaped : s.quote = none → s.escaped = false

theorem State.IsProper.start : ({} : State).IsProper :=
  ⟨by rintro quote ⟨⟩, fun _ => rfl⟩

theorem State.IsProper.next {s : State} (h : s.IsProper) (c : Char) :
    (s.next nesting c).IsProper := by
  obtain ⟨hquote, hescaped⟩ := h
  rw [State.next]
  split
  · rename_i quote hopen
    have hnotNone : s.quote ≠ none := by rw [hopen]; simp
    split
    · exact ⟨hquote, fun hnone => absurd hnone hnotNone⟩
    · rename_i hnot
      split
      · exact ⟨hquote, fun hnone => absurd hnone hnotNone⟩
      · split
        · exact ⟨by rintro quote ⟨⟩, fun _ => Bool.eq_false_iff.2 hnot⟩
        · exact ⟨hquote, hescaped⟩
  · rename_i hnone
    split
    · rename_i hc
      refine ⟨?_, fun hopen => by cases hopen⟩
      rintro quote ⟨⟩
      exact hc
    · split
      · exact ⟨hquote, hescaped⟩
      · split <;> exact ⟨hquote, hescaped⟩

theorem State.IsProper.after {s : State} (h : s.IsProper) (text : List Char) :
    (s.after nesting text).IsProper := by
  induction text generalizing s with
  | nil => exact h
  | cons c text ih => exact ih (h.next c)

/-- Where nothing is open, a scan is as at the start. -/
theorem State.IsProper.eq_start {s : State} (h : s.IsProper) (hquote : s.quote = none)
    (hdepth : s.depth = 0) : s = {} := by
  have hescaped := h.notEscaped hquote
  obtain ⟨quote, escaped, depth⟩ := s
  cases hquote
  cases hdepth
  cases hescaped
  rfl

/-- A blank does not close a quoted part, and changes nothing else. -/
theorem quote_next_of_isBlank {s : State} (hs : s.IsProper) {c : Char}
    (hc : Text.isBlank c = true) :
    (s.next nesting c).quote = s.quote ∧ (s.next nesting c).depth = s.depth := by
  have hplain : IsPlain nesting c := isPlain_of_isBlank hc
  rw [State.next]
  split
  · rename_i quote hquote
    have hne : c ≠ quote := by
      rintro rfl
      have hproper := hs.isQuote c hquote
      rw [hplain.1] at hproper
      cases hproper
    rw [if_neg hne]
    split
    · exact ⟨rfl, rfl⟩
    · split <;> exact ⟨rfl, rfl⟩
  · rename_i hquote
    rw [if_neg (by rw [hplain.1]; decide), if_neg (by rw [hplain.2.1]; decide),
      if_neg (by rw [hplain.2.2]; decide)]
    exact ⟨rfl, rfl⟩

/-- Blanks do not close a quoted part. -/
theorem quote_after_blanks {s : State} (hs : s.IsProper) {blanks : List Char}
    (h : ∀ c ∈ blanks, Text.isBlank c = true) : (s.after nesting blanks).quote = s.quote := by
  induction blanks generalizing s with
  | nil => rfl
  | cons c blanks ih =>
    exact (ih (hs.next c) fun d hd => h d (List.mem_cons_of_mem c hd)).trans
      (quote_next_of_isBlank hs (h c List.mem_cons_self)).1

/-- Brackets do not matter for what is quoted. -/
theorem quote_after_congr {s t : State} (hquote : s.quote = t.quote)
    (hescaped : s.escaped = t.escaped) (text : List Char) :
    (s.after true text).quote = (t.after false text).quote := by
  induction text generalizing s t with
  | nil => exact hquote
  | cons c text ih =>
    -- Inside of quotes the two scans do the same, outside of them only the depths differ.
    have hnext : (s.next true c).quote = (t.next false c).quote ∧
        (s.next true c).escaped = (t.next false c).escaped := by
      rw [State.next, State.next, ← hquote, ← hescaped]
      split
      · split
        · exact ⟨rfl, rfl⟩
        · split
          · exact ⟨rfl, rfl⟩
          · split
            · exact ⟨rfl, rfl⟩
            · exact ⟨hquote, hescaped⟩
      · split
        · exact ⟨rfl, rfl⟩
        · simp only [Bool.true_and, Bool.false_and, Bool.false_eq_true, if_false]
          split
          · exact ⟨hquote, hescaped⟩
          · split <;> exact ⟨hquote, hescaped⟩
    exact ih hnext.1 hnext.2

/-- Where brackets are not respected, none are open. -/
theorem depth_after_false (s : State) (text : List Char) :
    (s.after false text).depth = s.depth := by
  induction text generalizing s with
  | nil => rfl
  | cons c text ih =>
    have hnext : (s.next false c).depth = s.depth := by
      rw [State.next]
      split
      · split
        · rfl
        · split
          · rfl
          · split <;> rfl
      · split
        · rfl
        · simp
    exact (ih _).trans hnext

theorem after_of_plain {text : List Char} (h : ∀ c ∈ text, IsPlain nesting c) (depth : Nat) :
    (outside depth).after nesting text = outside depth := by
  induction text with
  | nil => rfl
  | cons c text ih =>
    rw [State.after, List.foldl_cons, next_of_isPlain (h c List.mem_cons_self)]
    exact ih fun d hd => h d (List.mem_cons_of_mem c hd)

/-- What is nowhere free in a text is nowhere free when it is trimmed. -/
theorem NoFree.trim {n : Char} {text : List Char} (h : NoFree nesting n {} text) :
    NoFree nesting n {} (Text.trim text) := by
  obtain ⟨front, behind, hfront, _, htext⟩ := Text.exists_trim text
  have hplain : ({} : State).after nesting front = {} :=
    after_of_plain (fun c hc => isPlain_of_isBlank (hfront c hc)) 0
  rw [htext] at h
  have hright := h.right
  rw [hplain] at hright
  exact hright.left

/-- The blanks at the ends of a text do not matter for what is open behind it. -/
theorem quote_after_trim (text : List Char) :
    (({} : State).after nesting text).quote =
      (({} : State).after nesting (Text.trim text)).quote := by
  obtain ⟨front, behind, hfront, hbehind, htext⟩ := Text.exists_trim text
  have hplain : ({} : State).after nesting front = {} :=
    after_of_plain (fun c hc => isPlain_of_isBlank (hfront c hc)) 0
  have hafter : ({} : State).after nesting text =
      (({} : State).after nesting (Text.trim text)).after nesting behind := by
    rw [htext, after_append, hplain, after_append, ← htext]
  rw [hafter, quote_after_blanks (State.IsProper.start.after _) hbehind]

end RankedRules.Scan
