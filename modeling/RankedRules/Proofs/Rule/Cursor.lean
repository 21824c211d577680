/-
Actions and rules: reading with positions.

The readers of actions and rules search their texts for the signs between the parts and take the
parts apart at the positions that they find. Here they do so with slices that are checked, and the
parts are read with positions, too. The results are the same, whatever the text is.

* `Scan.Cursor.find`, `Scan.Cursor.find_eq` — a search that slices the text at each character;
* `Action.Cursor.parse`, `Rule.Cursor.parse` — actions and rules, read with positions;
* `ParseError.IsPlaced` — an error of a part stands at a boundary of the text of that part;
* `Rule.read_without_halt` — every text is read to an end, and errors are placed.
-/
import RankedRules.Proofs.PropertyList.Cursor
import RankedRules.Proofs.Qualifier.Cursor
import RankedRules.Proofs.Text.Passing

namespace RankedRules

open Text

/-! ## Searching -/

namespace Scan

namespace Cursor

variable (text : List Char) (nesting : Bool) (needle : List Char)

/-- The position of the first free occurrence among the characters from a position on. -/
def findFrom : State → Nat → List Char → Except Halt (Option Nat)
  | _, _, [] => .ok none
  | s, pos, c :: rest =>
    if isFree nesting s c then do
      let behind ← slice (from? text pos)
      if needle.isPrefixOf behind then .ok (some pos)
      else findFrom (s.next nesting c) (pos + c.utf8Size) rest
    else findFrom (s.next nesting c) (pos + c.utf8Size) rest

/-- The position of the first free occurrence in the text. -/
def find : Except Halt (Option Nat) :=
  if needle.isEmpty then .ok (some 0) else findFrom text nesting needle {} 0 text

end Cursor

theorem Cursor.findFrom_eq {text : List Char} (nesting : Bool) (needle : List Char) {s : State}
    {pos : Nat} {cs : List Char} (h : At text pos cs) :
    Cursor.findFrom text nesting needle s pos cs =
      .ok ((cutFrom? nesting needle s cs).map fun (front, _) => pos + byteSize front) := by
  induction cs generalizing s pos with
  | nil => rfl
  | cons c cs ih =>
    have hnext : Cursor.findFrom text nesting needle (s.next nesting c) (pos + c.utf8Size) cs =
        .ok (((cutFrom? nesting needle (s.next nesting c) cs).map
          fun (front, rest) => (c :: front, rest)).map fun (front, _) => pos + byteSize front) := by
      rw [ih h.next, Option.map_map]
      congr 2
      funext found
      simp only [Function.comp_apply, byteSize, Nat.add_assoc]
    rw [Cursor.findFrom, cutFrom?]
    by_cases hfree : isFree nesting s c = true
    · rw [if_pos hfree, slice_from h, ok_bind, hfree, Bool.true_and]
      split
      · rfl
      · exact hnext
    · rw [if_neg hfree, Bool.eq_false_iff.2 hfree, Bool.false_and]
      exact hnext

theorem Cursor.find_eq (text : List Char) (nesting : Bool) (needle : List Char) :
    Cursor.find text nesting needle = .ok (find? nesting needle text) := by
  rw [Cursor.find, find?, cut?]
  split
  · rfl
  · rw [Cursor.findFrom_eq nesting needle (.start text)]
    simp only [Nat.zero_add]

/-- The slices in front of and behind a needle that is found. -/
theorem slices_of_cut? {nesting : Bool} {n : Char} {needle text front rest : List Char}
    (h : cut? nesting (n :: needle) text = some (front, rest)) :
    slice (upTo? text (byteSize front)) = .ok front ∧
      slice (from? text (byteSize front + byteSize (n :: needle))) =
        .ok (rest.drop (n :: needle).length) := by
  obtain ⟨behind, rfl⟩ := (cutFrom?_eq_some h).1
  rw [← cut?_append h, List.drop_left]
  refine ⟨slice_upTo, slice_from ?_⟩
  exact At.advance ⟨front, rfl, rfl⟩

end Scan

/-! ## Parts read with positions -/

namespace Qualifier.Cursor

/-- The qualifier of a rule. A text that is only a constant is not read. -/
def parseText (text : List Char) : Except Halt Qualifier :=
  let text := trim text
  if text = "*true*".toList then .ok (.constant true)
  else if text = "*false*".toList then .ok (.constant false)
  else parse text

end Qualifier.Cursor

namespace RightSide.Cursor

/-- What the text on the right side of an assignment is. -/
def parse (text : List Char) : Except Halt RightSide :=
  let text := trim text
  match text.head? with
  | none => .ok (.literal (.string ""))
  | some c =>
    if c = '"' ∨ c = '\'' then do
      let inner ← slice (from? text 1)
      .ok (.literal (.string (String.ofList (unquote c inner))))
    else if c.isDigit ∨ c = '-' then Halt.ofResult (number text)
    else if c = '\x7b' ∨ c = '(' then do
      .ok (.literal (← PropertyList.Cursor.parse text))
    else Halt.ofResult (word (String.ofList text))

end RightSide.Cursor

namespace Action.Cursor

/-- The position of a character. -/
def indexOf? (c : Char) : List Char → Option Nat
  | [] => none
  | d :: cs => if d = c then some 0 else (indexOf? c cs).map (d.utf8Size + ·)

/-- The class name in parentheses that a text starts with, if it does, and the rest. -/
def splitCast (text : List Char) : Except Halt (Option String × List Char) :=
  match text with
  | '(' :: inner =>
    match indexOf? ')' inner with
    | none => .error (.error (.unclosedTypeCast (String.ofList text)))
    | some stop => do
      let name ← slice (upTo? inner stop)
      let rest ← slice (from? inner (stop + 1))
      .ok (some (String.ofList name), trimStart rest)
  | _ => .ok (none, text)

/-- The key and the right side of an assignment. An equals sign does not count at the start. -/
def splitAssignment (text : List Char) : Except Halt (String × List Char) := do
  match (← Scan.Cursor.find text false ['=']).filter (1 ≤ ·) with
  | none => .error (.error (.missingAssignment (String.ofList text)))
  | some split => do
    let key := trim (← slice (upTo? text split))
    let right := trim (← slice (from? text (split + 1)))
    if key.isEmpty then .error (.error (.missingAssignment (String.ofList text)))
    else .ok (String.ofList key, right)

/-- The assignment of a right side to a key, in a form that is given or found out. -/
def ofSides (form? : Option Form) (key : String) (right : List Char) : Except Halt Action :=
  match form? with
  | some .constant => .ok (.assign key (.string (String.ofList right)))
  | some .reference => do
    .ok (.reference key (← Halt.ofResult (RightSide.checkedPath (String.ofList right))))
  | none => do
    match ← RightSide.Cursor.parse right with
    | .literal value => .ok (.assign key value)
    | .path path => .ok (.reference key path)

/-- The action that a text is. -/
def parse (text : List Char) (className : Option String) : Except Halt Action := do
  let text := trim text
  if text.isEmpty then .error (.error (.missingAssignment "")) else
    let (cast, text) ← splitCast text
    let form? := (cast.or className).bind Form.ofClass?
    let (key, right) ← splitAssignment text
    ofSides form? key right

end Action.Cursor

namespace Rule.Cursor

/-- The action and the priority behind an arrow. -/
def parseRight (text : List Char) : Except Halt (Action × Int) := do
  let (action, priority) ←
    match ← Scan.Cursor.find text true [';'] with
    | some split => do
      let front ← slice (upTo? text split)
      let behind ← slice (from? text (split + 1))
      .ok (front, Priority.parse behind)
    | none => .ok (text, Priority.normal)
  .ok (← Action.Cursor.parse action none, priority)

/-- The rule that a text is. -/
def parse (text : List Char) : Except Halt Rule := do
  if text.all isBlank then .error (.error .empty)
  else
    match (← Scan.Cursor.find text false ['=', '>']).filter (3 ≤ ·) with
    | none => .error (.error (.missingArrow (String.ofList text)))
    | some arrow => do
      let qualifier ← Qualifier.Cursor.parseText (trim (← slice (upTo? text arrow)))
      let (action, priority) ← parseRight (← slice (from? text (arrow + 2)))
      .ok ⟨some qualifier, some action, priority⟩

end Rule.Cursor

/-! ## The same results -/

theorem ofResult_bind {α β : Type} (result : Except ParseError α) (next : α → Except ParseError β) :
    Halt.ofResult (result >>= next) = Halt.ofResult result >>= fun a => Halt.ofResult (next a) := by
  cases result <;> rfl

theorem Qualifier.Cursor.parse_eq (text : List Char) :
    Qualifier.Cursor.parse text = Halt.ofResult (Qualifier.parseChars text) := by
  rw [(Qualifier.parse_agrees text).1, Qualifier.parseChars]
  cases Qualifier.parse text <;> rfl

theorem Qualifier.Cursor.parseText_eq (text : List Char) :
    Qualifier.Cursor.parseText (trim text) = Halt.ofResult (Qualifier.parseText text) := by
  rw [Qualifier.Cursor.parseText, Qualifier.parseText, trim_trim]
  generalize trim text = ds
  by_cases htrue : ds = "*true*".toList
  · rw [if_pos htrue, htrue]
    rfl
  · rw [if_neg htrue]
    by_cases hfalse : ds = "*false*".toList
    · rw [if_pos hfalse, hfalse]
      rfl
    · rw [if_neg hfalse]
      exact parse_eq ds

theorem RightSide.Cursor.parse_eq (text : List Char) :
    RightSide.Cursor.parse text = Halt.ofResult (RightSide.parse text) := by
  rw [RightSide.Cursor.parse, RightSide.parse]
  cases trim text with
  | nil => rfl
  | cons c rest =>
    dsimp only [List.head?_cons]
    by_cases hquote : c = '"' ∨ c = '\''
    · rw [if_pos hquote, if_pos hquote]
      have hinner : slice (from? (c :: rest) 1) = .ok rest := by
        rcases hquote with rfl | rfl <;> exact slice_from (At.start _).next
      rw [hinner]
      rfl
    · rw [if_neg hquote, if_neg hquote]
      by_cases hnumber : c.isDigit = true ∨ c = '-'
      · rw [if_pos hnumber, if_pos hnumber]
      · rw [if_neg hnumber, if_neg hnumber]
        by_cases hlist : c = '\x7b' ∨ c = '('
        · rw [if_pos hlist, if_pos hlist, (PropertyList.parse_agrees _).1, propertyList]
          cases PropertyList.parse (c :: rest) <;> rfl
        · rw [if_neg hlist, if_neg hlist]

theorem Action.Cursor.indexOf?_append {c : Char} {front : List Char} (h : c ∉ front)
    (rest : List Char) :
    Action.Cursor.indexOf? c (front ++ c :: rest) = some (byteSize front) := by
  induction front with
  | nil => exact if_pos rfl
  | cons d front ih =>
    obtain ⟨hd, hfront⟩ := not_or.1 (mt List.mem_cons.2 h)
    rw [List.cons_append, Action.Cursor.indexOf?, if_neg (Ne.symm hd), ih hfront]
    rfl

theorem Action.Cursor.indexOf?_eq_none {c : Char} {cs : List Char} (h : c ∉ cs) :
    Action.Cursor.indexOf? c cs = none := by
  induction cs with
  | nil => rfl
  | cons d cs ih =>
    obtain ⟨hd, hcs⟩ := not_or.1 (mt List.mem_cons.2 h)
    rw [Action.Cursor.indexOf?, if_neg (Ne.symm hd), ih hcs]
    rfl

theorem Action.Cursor.splitCast_open (inner : List Char) :
    Action.Cursor.splitCast ('(' :: inner) = Halt.ofResult (Action.splitCast ('(' :: inner)) := by
  have hpass : ∀ name : List Char, ')' ∉ name → ∀ c ∈ name, decide (c ≠ ')') = true :=
    fun name hname c hc => decide_eq_true fun heq => hname (heq ▸ hc)
  rw [Action.Cursor.splitCast, Action.splitCast]
  by_cases hclosed : ')' ∈ inner
  · obtain ⟨name, rest, rfl, hname⟩ := List.eq_append_cons_of_mem hclosed
    have hrest : At (name ++ ')' :: rest) (byteSize name + 1) rest :=
      At.next (c := ')') ⟨name, rfl, rfl⟩
    rw [indexOf?_append hname, List.dropWhile_append_of_pos (hpass name hname),
      List.takeWhile_append_of_pos (hpass name hname)]
    dsimp only
    rw [slice_upTo, slice_from hrest]
    simp [Halt.ofResult, ok_bind]
  · have hnone : inner.dropWhile (· ≠ ')') = [] := by
      rw [← List.append_nil inner, List.dropWhile_append_of_pos (hpass inner hclosed)]
      rfl
    rw [indexOf?_eq_none hclosed, hnone]
    rfl

theorem Action.Cursor.splitCast_eq (text : List Char) :
    Action.Cursor.splitCast text = Halt.ofResult (Action.splitCast text) := by
  by_cases hopen : text.head? = some '('
  · obtain ⟨inner, rfl⟩ := List.head?_eq_some_iff.1 hopen
    exact splitCast_open inner
  · have hne : ∀ inner, text = '(' :: inner → False := fun inner htext =>
      hopen (by rw [htext]; rfl)
    rw [Action.Cursor.splitCast, Action.splitCast]
    · rfl
    · exact hne
    · exact hne

theorem Action.Cursor.splitAssignment_eq (text : List Char) :
    Action.Cursor.splitAssignment text = Halt.ofResult (Action.splitAssignment text) := by
  rw [Action.Cursor.splitAssignment, Scan.Cursor.find_eq, ok_bind, Scan.find?,
    Action.splitAssignment]
  cases hcut : Scan.cut? false ['='] text with
  | none => rfl
  | some found =>
    obtain ⟨front, rest⟩ := found
    obtain ⟨hfront, hbehind⟩ := Scan.slices_of_cut? hcut
    dsimp only [Option.map_some]
    -- An equals sign at the start is not counted, and in front of it there is no key either.
    by_cases hstart : front = []
    · subst hstart
      rfl
    · have hsize : 1 ≤ byteSize front := Nat.one_le_iff_ne_zero.2 (byteSize_ne_zero hstart)
      have hbehind : slice (from? text (byteSize front + 1)) = .ok (rest.drop 1) := hbehind
      rw [Option.filter_some, if_pos (decide_eq_true hsize)]
      dsimp only
      rw [hfront, hbehind, ok_bind, ok_bind]
      cases trim front <;> rfl

theorem Action.Cursor.ofSides_eq (form? : Option Action.Form) (key : String) (right : List Char) :
    Action.Cursor.ofSides form? key right = Halt.ofResult (Action.ofSides form? key right) := by
  cases form? with
  | none =>
    rw [Action.Cursor.ofSides, Action.ofSides, ofResult_bind, RightSide.Cursor.parse_eq]
    congr 1
    funext side
    cases side <;> rfl
  | some form =>
    cases form with
    | constant => rfl
    | reference =>
      rw [Action.Cursor.ofSides, Action.ofSides, ofResult_bind]
      rfl

theorem Action.Cursor.parse_eq (text : List Char) (className : Option String) :
    Action.Cursor.parse text className = Halt.ofResult (Action.parse text className) := by
  rw [Action.Cursor.parse, Action.parse]
  dsimp only
  split
  · rfl
  · rw [ofResult_bind, splitCast_eq]
    congr 1
    funext ⟨cast, text⟩
    dsimp only
    rw [ofResult_bind, splitAssignment_eq]
    congr 1
    funext ⟨key, right⟩
    exact ofSides_eq _ key right

theorem Rule.Cursor.parseRight_eq (text : List Char) :
    Rule.Cursor.parseRight text = Halt.ofResult (Rule.parseRight text) := by
  rw [Rule.Cursor.parseRight, Scan.Cursor.find_eq, ok_bind, Scan.find?, Rule.parseRight]
  cases hcut : Scan.cut? true [';'] text with
  | none =>
    dsimp only [Option.map_none]
    rw [ok_bind, ofResult_bind, Action.Cursor.parse_eq]
    rfl
  | some found =>
    obtain ⟨front, rest⟩ := found
    obtain ⟨hfront, hbehind⟩ := Scan.slices_of_cut? hcut
    have hbehind : slice (from? text (byteSize front + 1)) = .ok (rest.drop 1) := hbehind
    dsimp only [Option.map_some]
    rw [hfront, hbehind, ok_bind, ok_bind, ok_bind, ofResult_bind, Action.Cursor.parse_eq]
    rfl

theorem Rule.Cursor.parse_eq (text : List Char) :
    Rule.Cursor.parse text = Halt.ofResult (Rule.parse text) := by
  rw [Rule.Cursor.parse, Rule.parse]
  split
  · rfl
  · rw [Scan.Cursor.find_eq, ok_bind, Scan.find?]
    cases hcut : Scan.cut? false ['=', '>'] text with
    | none => rfl
    | some found =>
      obtain ⟨front, rest⟩ := found
      obtain ⟨hfront, hbehind⟩ := Scan.slices_of_cut? hcut
      have hbehind : slice (from? text (byteSize front + 2)) = .ok (rest.drop 2) := hbehind
      dsimp only [Option.map_some]
      rw [Option.filter_some]
      by_cases hsize : byteSize front < 3
      · have hfew : ¬decide (3 ≤ byteSize front) = true := by
          rw [decide_eq_true_iff]
          omega
        rw [if_pos hsize, if_neg hfew]
        rfl
      · have hmany : decide (3 ≤ byteSize front) = true := by
          rw [decide_eq_true_iff]
          omega
        rw [if_neg hsize, if_pos hmany]
        dsimp only
        rw [hfront, hbehind, ok_bind, ofResult_bind, Qualifier.Cursor.parseText_eq]
        congr 1
        funext qualifier
        rw [ok_bind, ofResult_bind, parseRight_eq]
        rfl

/-! ## Positions of errors -/

/-- The text that is read as the right side of an action. -/
def Action.IsRight (text part : List Char) : Prop :=
  ∃ cast rest key right, Action.splitCast (trim text) = .ok (cast, rest) ∧
    Action.splitAssignment rest = .ok (key, right) ∧ part = trim right

/-- The text that is read as the qualifier of a rule. -/
def Rule.IsQualifier (text part : List Char) : Prop :=
  ∃ front rest, Scan.cut? false ['=', '>'] text = some (front, rest) ∧ part = trim front

/-- The text that is read as the action of a rule. -/
def Rule.actionText (text : List Char) : List Char :=
  match Scan.cut? true [';'] text with
  | some (front, _) => front
  | none => text

/-- The text that is read as the right side of the action of a rule. -/
def Rule.IsRight (text part : List Char) : Prop :=
  ∃ front rest, Scan.cut? false ['=', '>'] text = some (front, rest) ∧
    Action.IsRight (Rule.actionText (rest.drop 2)) part

/-- An error about a qualifier or a property list is the error of the text that is read as one, and
its position is a boundary of that text. -/
def ParseError.IsPlaced (qualifierText listText : List Char → Prop) : ParseError → Prop
  | .qualifier offset cause => ∃ part, qualifierText part ∧
    Qualifier.parseChars part = .error (.qualifier offset cause) ∧
    offset ≤ byteSize part ∧ IsBoundary part offset
  | .propertyList offset cause => ∃ part, listText part ∧
    RightSide.propertyList part = .error (.propertyList offset cause) ∧
    offset ≤ byteSize part ∧ IsBoundary part offset
  | _ => True

variable {e : ParseError} {text : List Char}
  {qualifierText qualifierText' listText listText' : List Char → Prop}

theorem ParseError.IsPlaced.mono (h : e.IsPlaced qualifierText listText)
    (hqualifier : ∀ part, qualifierText part → qualifierText' part)
    (hlist : ∀ part, listText part → listText' part) : e.IsPlaced qualifierText' listText' := by
  cases e with
  | qualifier offset cause =>
    obtain ⟨part, hpart, hplaced⟩ := h
    exact ⟨part, hqualifier part hpart, hplaced⟩
  | propertyList offset cause =>
    obtain ⟨part, hpart, hplaced⟩ := h
    exact ⟨part, hlist part hpart, hplaced⟩
  | _ => trivial

theorem Qualifier.isPlaced_of_parseText (h : Qualifier.parseText text = .error e) :
    e.IsPlaced (· = trim text) listText := by
  have hparse := h
  rw [Qualifier.parseText, Qualifier.parseChars] at hparse
  split at hparse
  · cases hparse
  · rename_i fault hfault
    have hat := (Qualifier.parse_agrees (trim text)).2 fault hfault
    cases hparse
    exact ⟨trim text, rfl, h, hat.le, hat.isBoundary⟩

theorem RightSide.isPlaced_of_checkedPath {path : String}
    (h : RightSide.checkedPath path = .error e) : e.IsPlaced qualifierText listText := by
  rw [checkedPath] at h
  split at h <;> cases h
  trivial

/-- Only a key path can be wrong in a bare word. -/
theorem RightSide.checkedPath_of_word {name : String} (h : RightSide.word name = .error e) :
    RightSide.checkedPath name = .error e := by
  rw [word.eq_def] at h
  split at h
  case h_7 =>
    cases hpath : checkedPath name with
    | error e' =>
      rw [hpath] at h
      cases h
      rfl
    | ok path =>
      rw [hpath] at h
      cases h
  all_goals cases h

theorem RightSide.isPlaced_of_parse (h : RightSide.parse text = .error e) :
    e.IsPlaced qualifierText (· = trim text) := by
  rw [RightSide.parse] at h
  generalize trim text = part at h
  cases part with
  | nil => cases h
  | cons c rest =>
    dsimp only at h
    split at h
    · cases h
    · split at h
      · rw [number] at h
        split at h <;> cases h
        trivial
      · split at h
        · have hlist := h
          rw [propertyList] at hlist
          split at hlist
          · cases hlist
          · rename_i fault hfault
            have hat := (PropertyList.parse_agrees (c :: rest)).2 fault hfault
            cases hlist
            exact ⟨c :: rest, rfl, h, hat.le, hat.isBoundary⟩
        · exact isPlaced_of_checkedPath (checkedPath_of_word h)

theorem Action.isPlaced_of_splitCast (h : Action.splitCast text = .error e) :
    e.IsPlaced qualifierText listText := by
  rw [Action.splitCast.eq_def] at h
  split at h
  · split at h <;> cases h
    trivial
  · cases h

theorem Action.isPlaced_of_splitAssignment (h : Action.splitAssignment text = .error e) :
    e.IsPlaced qualifierText listText := by
  rw [Action.splitAssignment] at h
  split at h
  · cases h
    trivial
  · split at h <;> cases h
    trivial

theorem Action.isPlaced_of_ofSides {form? : Option Form} {key : String} {right : List Char}
    (h : Action.ofSides form? key right = .error e) :
    e.IsPlaced qualifierText (· = trim right) := by
  rw [Action.ofSides.eq_def] at h
  split at h
  · cases h
  · rcases bind_eq_error_iff.1 h with hpath | ⟨path, -, h⟩
    · exact RightSide.isPlaced_of_checkedPath hpath
    · cases h
  · rcases bind_eq_error_iff.1 h with hright | ⟨side, -, h⟩
    · exact RightSide.isPlaced_of_parse hright
    · cases side <;> cases h

theorem Action.isPlaced_of_parse {className : Option String}
    (h : Action.parse text className = .error e) :
    e.IsPlaced qualifierText (Action.IsRight text) := by
  rw [Action.parse] at h
  dsimp only at h
  split at h
  · cases h
    trivial
  · rcases bind_eq_error_iff.1 h with hcast | ⟨⟨cast, rest⟩, hcast, h⟩
    · exact isPlaced_of_splitCast hcast
    · rcases bind_eq_error_iff.1 h with hsides | ⟨⟨key, right⟩, hsides, h⟩
      · exact isPlaced_of_splitAssignment hsides
      · refine (isPlaced_of_ofSides h).mono (fun _ hpart => hpart) ?_
        rintro part rfl
        exact ⟨cast, rest, key, right, hcast, hsides, rfl⟩

theorem Rule.isPlaced_of_parseRight (h : Rule.parseRight text = .error e) :
    e.IsPlaced qualifierText (Action.IsRight (Rule.actionText text)) := by
  rw [Rule.parseRight] at h
  rw [Rule.actionText]
  dsimp only at h
  cases hcut : Scan.cut? true [';'] text with
  | none =>
    rw [hcut] at h
    rcases bind_eq_error_iff.1 h with haction | ⟨action, -, h⟩
    · exact Action.isPlaced_of_parse haction
    · cases h
  | some found =>
    rw [hcut] at h
    rcases bind_eq_error_iff.1 h with haction | ⟨action, -, h⟩
    · exact Action.isPlaced_of_parse haction
    · cases h

theorem Rule.isPlaced_of_parse (h : Rule.parse text = .error e) :
    e.IsPlaced (Rule.IsQualifier text) (Rule.IsRight text) := by
  rw [Rule.parse] at h
  split at h
  · cases h
    trivial
  · split at h
    · cases h
      trivial
    · rename_i front rest hcut
      split at h
      · cases h
        trivial
      · rcases bind_eq_error_iff.1 h with hqualifier | ⟨q, -, h⟩
        · refine (Qualifier.isPlaced_of_parseText hqualifier).mono ?_ fun _ hpart => hpart
          rintro part rfl
          exact ⟨front, rest, hcut, rfl⟩
        · rcases bind_eq_error_iff.1 h with hright | ⟨_, -, h⟩
          · exact (isPlaced_of_parseRight hright).mono (fun _ hpart => hpart)
              fun part hpart => ⟨front, rest, hcut, hpart⟩
          · cases h

/-- Every text is read to an end, as a qualifier, a property list, an action and a rule: reading
with positions in a number of steps gives the same result, so that the steps are never used up and
all slices begin and end at boundaries of their texts. The position in an error about a qualifier or
a property list is a boundary of the text that was read as one. -/
theorem Rule.read_without_halt (text : List Char) (className : Option String) :
    (Qualifier.Cursor.parse text = Halt.ofResult (Qualifier.parseChars text) ∧
      PropertyList.Cursor.parse text = Halt.ofResult ((PropertyList.parse text).mapError
        fun fault => .propertyList (fault.offset text) fault.cause) ∧
      Action.Cursor.parse text className = Halt.ofResult (Action.parse text className) ∧
      Rule.Cursor.parse text = Halt.ofResult (Rule.parse text)) ∧
    (∀ fault, Qualifier.parse text = .error fault →
      fault.offset text ≤ byteSize text ∧ IsBoundary text (fault.offset text)) ∧
    (∀ fault, PropertyList.parse text = .error fault →
      fault.offset text ≤ byteSize text ∧ IsBoundary text (fault.offset text)) ∧
    (∀ e, Action.parse text className = .error e →
      e.IsPlaced (fun _ => False) (Action.IsRight text)) ∧
    ∀ e, Rule.parse text = .error e → e.IsPlaced (Rule.IsQualifier text) (Rule.IsRight text) := by
  have hqualifier := Qualifier.parse_agrees text
  have hlist := PropertyList.parse_agrees text
  refine ⟨⟨Qualifier.Cursor.parse_eq text, hlist.1, Action.Cursor.parse_eq text className,
    Rule.Cursor.parse_eq text⟩, fun fault h => ?_, fun fault h => ?_, fun e h => ?_, fun e h => ?_⟩
  · exact ⟨(hqualifier.2 fault h).le, (hqualifier.2 fault h).isBoundary⟩
  · exact ⟨(hlist.2 fault h).le, (hlist.2 fault h).isBoundary⟩
  · exact Action.isPlaced_of_parse h
  · exact Rule.isPlaced_of_parse h

set_option maxRecDepth 4000 in
/-- What is left behind a qualifier begins at its thirteenth byte, which is its eleventh
character. -/
theorem Rule.read_without_halt_umlauts :
    Rule.Cursor.parse "größe = 1 ü => x = 1".toList =
        .error (.error (.qualifier 12 .trailing)) ∧
      (ParseError.qualifier 12 .trailing).IsPlaced
        (Rule.IsQualifier "größe = 1 ü => x = 1".toList)
        (Rule.IsRight "größe = 1 ü => x = 1".toList) := by
  have hparse : Rule.parse "größe = 1 ü => x = 1".toList =
      .error (.qualifier 12 .trailing) := rfl
  have hread := Rule.read_without_halt "größe = 1 ü => x = 1".toList none
  refine ⟨?_, hread.2.2.2.2 _ hparse⟩
  rw [hread.1.2.2.2, hparse]
  rfl

end RankedRules
