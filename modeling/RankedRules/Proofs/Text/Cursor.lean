/-
Reading with positions.

A reader works on what is left of a text. A cursor keeps the whole text and a position in it, takes
slices of the text at positions that it has computed, and has a number of steps. It can stop for two
more reasons than a reader: a slice does not begin and end between two characters, or the steps are
used up. A cursor agrees with a reader if it does what the reader does, and so never stops for these
two reasons.

* `Text.IsBoundary` — a position between two characters or at one of the ends;
* `Text.from?`, `Text.upTo?` — the slices behind and in front of a position, which exist exactly at
  the boundaries (`Text.from?_eq_some`, `Text.upTo?_eq_some`);
* `Halt`, `Cursor` — why a cursor stops, and the type of cursors;
* `Agrees` — a cursor does what a reader does, `Agrees.bind` carries it from step to step.
-/
import Mathlib.Data.String.Basic
import RankedRules.ParseError
import RankedRules.Proofs.Success
import RankedRules.Proofs.Text.Trim

namespace RankedRules

namespace Text

/-! ## Boundaries -/

/-- A position in bytes at which no character is cut apart. -/
def IsBoundary (text : List Char) (pos : Nat) : Prop :=
  (String.Pos.Raw.mk pos).IsValid (String.ofList text)

/-- The rest `cs` of the text begins at a position. -/
def At (text : List Char) (pos : Nat) (cs : List Char) : Prop :=
  ∃ front, text = front ++ cs ∧ pos = byteSize front

theorem byteSize_eq_utf8Len (cs : List Char) : byteSize cs = String.utf8Len cs := by
  induction cs with
  | nil => rfl
  | cons c cs ih => rw [byteSize, String.utf8Len_cons, ih, Nat.add_comm]

theorem byteSize_ne_zero {cs : List Char} (h : cs ≠ []) : byteSize cs ≠ 0 := by
  cases cs with
  | nil => exact absurd rfl h
  | cons c cs =>
    have hpos := c.utf8Size_pos
    rw [byteSize]
    omega

theorem rawEndPos_ofList (cs : List Char) : (String.ofList cs).rawEndPos = ⟨byteSize cs⟩ := by
  rw [byteSize_eq_utf8Len, ← String.utf8ByteSize_ofList]
  rfl

theorem byteSize_toList (s : String) : byteSize s.toList = s.utf8ByteSize := by
  rw [byteSize_eq_utf8Len, ← String.utf8ByteSize_ofList, String.ofList_toList]

theorem isBoundary_iff {text : List Char} {pos : Nat} :
    IsBoundary text pos ↔ ∃ cs, At text pos cs := by
  rw [IsBoundary, String.Pos.Raw.isValid_iff_exists_append]
  constructor
  · rintro ⟨front, rest, htext, hpos⟩
    have hsplit : text = front.toList ++ rest.toList := by
      rw [← String.toList_append, ← htext, String.toList_ofList]
    have hend := rawEndPos_ofList front.toList
    rw [String.ofList_toList, ← hpos] at hend
    exact ⟨rest.toList, front.toList, hsplit, congrArg String.Pos.Raw.byteIdx hend⟩
  · rintro ⟨rest, front, rfl, rfl⟩
    exact ⟨String.ofList front, String.ofList rest, String.ofList_append, (rawEndPos_ofList _).symm⟩

theorem At.isBoundary {text cs : List Char} {pos : Nat} (h : At text pos cs) :
    IsBoundary text pos :=
  isBoundary_iff.2 ⟨cs, h⟩

theorem At.le {text cs : List Char} {pos : Nat} (h : At text pos cs) : pos ≤ byteSize text := by
  obtain ⟨front, rfl, rfl⟩ := h
  rw [byteSize_append]
  exact Nat.le_add_right _ _

theorem At.eq_of_nil {text : List Char} {pos : Nat} (h : At text pos []) : pos = byteSize text := by
  obtain ⟨front, rfl, rfl⟩ := h
  rw [List.append_nil]

theorem At.lt {text cs : List Char} {pos : Nat} (h : At text pos cs) (hne : cs ≠ []) :
    pos < byteSize text := by
  obtain ⟨front, rfl, rfl⟩ := h
  have hsize := byteSize_ne_zero hne
  rw [byteSize_append]
  omega

theorem At.start (text : List Char) : At text 0 text :=
  ⟨[], rfl, rfl⟩

/-- Behind a part that is read, the position is its size further on. -/
theorem At.advance {text front cs : List Char} {pos : Nat} (h : At text pos (front ++ cs)) :
    At text (pos + byteSize front) cs := by
  obtain ⟨before, rfl, rfl⟩ := h
  exact ⟨before ++ front, by rw [List.append_assoc], by rw [byteSize_append]⟩

theorem At.next {text cs : List Char} {c : Char} {pos : Nat} (h : At text pos (c :: cs)) :
    At text (pos + c.utf8Size) cs :=
  (show At text pos ([c] ++ cs) from h).advance

/-- The position at which a rest begins. -/
theorem At.offsetIn_eq {text cs : List Char} {pos : Nat} (h : At text pos cs) :
    offsetIn text cs = pos := by
  obtain ⟨front, rfl, rfl⟩ := h
  exact offsetIn_append front cs

/-! ## Slices -/

/-- The text behind a position, if a character begins there or the text ends. -/
def from? : List Char → Nat → Option (List Char)
  | cs, 0 => some cs
  | [], _ + 1 => none
  | c :: cs, pos + 1 => if pos + 1 < c.utf8Size then none else from? cs (pos + 1 - c.utf8Size)

/-- The text in front of a position, if a character begins there or the text ends. -/
def upTo? : List Char → Nat → Option (List Char)
  | _, 0 => some []
  | [], _ + 1 => none
  | c :: cs, pos + 1 =>
    if pos + 1 < c.utf8Size then none
    else (upTo? cs (pos + 1 - c.utf8Size)).map (c :: ·)

/-- A text that begins with a character, from a position behind it. -/
theorem from?_cons (c : Char) (cs : List Char) (pos : Nat) :
    from? (c :: cs) (c.utf8Size + pos) = from? cs pos := by
  obtain ⟨n, hn⟩ : ∃ n, c.utf8Size + pos = n + 1 :=
    ⟨c.utf8Size + pos - 1, by have := c.utf8Size_pos; omega⟩
  rw [hn, from?, ← hn, if_neg (by omega), Nat.add_sub_cancel_left]

theorem upTo?_cons (c : Char) (cs : List Char) (pos : Nat) :
    upTo? (c :: cs) (c.utf8Size + pos) = (upTo? cs pos).map (c :: ·) := by
  obtain ⟨n, hn⟩ : ∃ n, c.utf8Size + pos = n + 1 :=
    ⟨c.utf8Size + pos - 1, by have := c.utf8Size_pos; omega⟩
  rw [hn, upTo?, ← hn, if_neg (by omega), Nat.add_sub_cancel_left]

theorem from?_append (front rest : List Char) :
    from? (front ++ rest) (byteSize front) = some rest := by
  induction front with
  | nil => cases rest <;> rfl
  | cons c front ih => rw [List.cons_append, byteSize, from?_cons, ih]

theorem upTo?_append (front rest : List Char) :
    upTo? (front ++ rest) (byteSize front) = some front := by
  induction front with
  | nil => cases rest <;> rfl
  | cons c front ih => rw [List.cons_append, byteSize, upTo?_cons, ih, Option.map_some]

/-- There is a slice behind a position exactly if it is a boundary. -/
theorem from?_eq_some {text rest : List Char} {pos : Nat} :
    from? text pos = some rest ↔ At text pos rest := by
  constructor
  · intro h
    induction text, pos using from?.induct with
    | case1 cs =>
      rw [from?] at h
      cases h
      exact .start _
    | case2 pos => cases h
    | case3 c cs pos hlt =>
      rw [from?, if_pos hlt] at h
      cases h
    | case4 c cs pos hlt ih =>
      rw [from?, if_neg hlt] at h
      obtain ⟨front, rfl, hpos⟩ := ih h
      refine ⟨c :: front, rfl, ?_⟩
      rw [byteSize]
      omega
  · rintro ⟨front, rfl, rfl⟩
    exact from?_append front rest

/-- There is a slice in front of a position exactly if it is a boundary. -/
theorem upTo?_eq_some {text front : List Char} {pos : Nat} :
    upTo? text pos = some front ↔ ∃ rest, text = front ++ rest ∧ pos = byteSize front := by
  constructor
  · intro h
    induction text, pos using upTo?.induct generalizing front with
    | case1 cs =>
      rw [upTo?] at h
      cases h
      exact ⟨cs, rfl, rfl⟩
    | case2 pos => cases h
    | case3 c cs pos hlt =>
      rw [upTo?, if_pos hlt] at h
      cases h
    | case4 c cs pos hlt ih =>
      rw [upTo?, if_neg hlt] at h
      obtain ⟨front', hfront, rfl⟩ := Option.map_eq_some_iff.1 h
      obtain ⟨rest, rfl, hpos⟩ := ih hfront
      refine ⟨rest, rfl, ?_⟩
      rw [byteSize]
      omega
  · rintro ⟨rest, rfl, rfl⟩
    exact upTo?_append front rest

end Text

/-! ## Cursors -/

/-- Why a cursor stops: an error in the text, a slice that cuts a character apart or lies outside
the text, or steps that are used up. -/
inductive Halt
  | error (e : ParseError)
  | badSlice
  | unfinished
  deriving DecidableEq

/-- A function from a position to a value and the position behind it. -/
abbrev Cursor (α : Type) := Nat → Except Halt (α × Nat)

/-- A slice that must exist. -/
def slice (cs? : Option (List Char)) : Except Halt (List Char) :=
  match cs? with
  | some cs => .ok cs
  | none => .error .badSlice

theorem ok_bind {ε α β : Type} (a : α) (f : α → Except ε β) : (Except.ok a >>= f) = f a :=
  rfl

theorem slice_from {text cs : List Char} {pos : Nat} (h : Text.At text pos cs) :
    slice (Text.from? text pos) = .ok cs := by
  rw [Text.from?_eq_some.2 h]
  rfl

theorem slice_upTo {front rest : List Char} :
    slice (Text.upTo? (front ++ rest) (Text.byteSize front)) = .ok front := by
  rw [Text.upTo?_append]
  rfl

/-- A result that can only fail by an error in the text. -/
def Halt.ofResult {α : Type} : Except ParseError α → Except Halt α
  | .ok a => .ok a
  | .error e => .error (.error e)

section

open Text

variable {ε α β : Type} {stands : Nat → List Char → Prop} {wrap : Nat → ε → ParseError}
  {text : List Char}

/-- A cursor has the value of a reader and stands where the reader's rest begins, or it stops with
the error of the reader, at the position of that rest. -/
def Agrees (stands : Nat → List Char → Prop) (wrap : Nat → ε → ParseError) (text : List Char)
    (read : Except (Fault ε) (α × List Char)) (found : Except Halt (α × Nat)) : Prop :=
  match read with
  | .ok (a, rest) => ∃ pos, found = .ok (a, pos) ∧ stands pos rest
  | .error fault => ∃ pos, found = .error (.error (wrap pos fault.cause)) ∧ At text pos fault.rest

namespace Agrees

theorem ok {a : α} {rest : List Char} {pos : Nat} (h : stands pos rest) :
    Agrees stands wrap text (.ok (a, rest)) (.ok (a, pos)) :=
  ⟨pos, rfl, h⟩

theorem error {cause : ε} {rest : List Char} {pos : Nat} (h : At text pos rest) :
    Agrees stands wrap text (.error ⟨cause, rest⟩ : Except (Fault ε) (α × List Char))
      (.error (.error (wrap pos cause))) :=
  ⟨pos, rfl, h⟩

/-- Steps that agree one by one agree together. What the first one is known to return can be used
for the second. -/
theorem bind {read : Except (Fault ε) (α × List Char)} {found : Except Halt (α × Nat)}
    {next : α × List Char → Except (Fault ε) (β × List Char)}
    {next' : α × Nat → Except Halt (β × Nat)}
    (h : Agrees stands wrap text read found)
    (hnext : ∀ a rest pos, read = .ok (a, rest) → stands pos rest →
      Agrees stands wrap text (next (a, rest)) (next' (a, pos))) :
    Agrees stands wrap text (read >>= next) (found >>= next') := by
  cases read with
  | error fault =>
    obtain ⟨pos, rfl, hat⟩ := h
    exact ⟨pos, rfl, hat⟩
  | ok pair =>
    obtain ⟨pos, rfl, hstands⟩ := h
    exact hnext pair.1 pair.2 pos rfl hstands

/-- A whole text is read to the same end, if the cursor stops with the same error where the reader
has something left. The position of an error is that of the rest at which it was noticed. -/
theorem whole {read : Reader ε α} {skip : List Char → List Char} {trailing : ε}
    {found : Except Halt (α × Nat)} {finish : α × Nat → Except Halt α}
    (h : Agrees stands wrap text (read text) found)
    (hend : ∀ a pos rest, stands pos rest → skip rest = [] → finish (a, pos) = .ok a)
    (htrailing : ∀ a pos rest, stands pos rest → skip rest ≠ [] →
      ∃ pos', finish (a, pos) = .error (.error (wrap pos' trailing)) ∧ At text pos' (skip rest)) :
    (found >>= finish) = Halt.ofResult ((Reader.whole read skip trailing text).mapError
        fun fault => wrap (fault.offset text) fault.cause) ∧
      ∀ fault, Reader.whole read skip trailing text = .error fault →
        At text (fault.offset text) fault.rest := by
  have herror : ∀ (fault : Fault ε) pos, At text pos fault.rest → fault.offset text = pos :=
    fun fault pos hat => hat.offsetIn_eq
  rw [Reader.whole]
  cases hread : read text with
  | error fault =>
    rw [hread] at h
    obtain ⟨pos, rfl, hat⟩ := h
    have hoffset := herror fault pos hat
    subst hoffset
    refine ⟨rfl, ?_⟩
    rintro _ ⟨⟩
    exact hat
  | ok pair =>
    rw [hread] at h
    obtain ⟨pos, rfl, hstands⟩ := h
    rw [ok_bind, ok_bind]
    dsimp only
    split
    · rename_i hnil
      refine ⟨hend _ _ _ hstands hnil, ?_⟩
      rintro _ ⟨⟩
    · rename_i hne
      obtain ⟨pos', hfinish, hat⟩ := htrailing pair.1 pos pair.2 hstands hne
      have hoffset := herror ⟨trailing, skip pair.2⟩ pos' hat
      subst hoffset
      refine ⟨hfinish, ?_⟩
      rintro _ ⟨⟩
      exact hat

end Agrees

end

end RankedRules
