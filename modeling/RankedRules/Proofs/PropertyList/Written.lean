/-
The ways to write a property list.

Between the tokens of lists and objects there may be anything that is skipped: blanks and comments.
It begins with a blank if it is not empty, since a slash would be a part of the word in front of it.
The last semicolon of an object may be missing, and a list may end with a comma.

* `PropertyList.Gap` — what may stand between two tokens;
* `PropertyList.Written` — the texts of a value, of the rest of a list and of the rest of an object;
* `PropertyList.Printable` — the values that texts have;
* `PropertyList.Printable.text_written` — the text of such a value is one of its texts.
-/
import RankedRules.PropertyList.Parser
import RankedRules.PropertyList.Printer
import RankedRules.Proofs.Number.Printed

namespace RankedRules.PropertyList

/-- What may stand between two tokens: it is skipped, and it begins with no character of a word. -/
structure Gap (gap : List Char) : Prop where
  skipped : ∀ rest, skip (gap ++ rest) = skip rest
  noWord : ∀ c ∈ gap.head?, isWordChar c = false

/-- What is written in one piece: a value, or the rest of a list or an object behind its opening
bracket or behind one of its separators. -/
inductive Phrase
  | value (v : Value)
  | items (items : List Value)
  | members (members : List (String × Value))

/-- The texts of a phrase. -/
inductive Written : Phrase → List Char → Prop
  | number {n : Number} (hn : n.IsReadable) : Written (.value (.number n)) n.chars
  | string (s : String) : Written (.value (.string s)) (quote s).toList
  | array {items : List Value} {cs : List Char} (hitems : Written (.items items) cs) :
      Written (.value (.array items)) ('(' :: cs)
  | object {members : List (String × Value)} {cs : List Char}
      (hmembers : Written (.members members) cs) :
      Written (.value (.object (Entries.ofList members))) ('\x7b' :: cs)
  | noItem {gap : List Char} (hgap : Gap gap) : Written (.items []) (gap ++ [')'])
  | lastItem {v : Value} {gap cs gap' : List Char} (hgap : Gap gap) (hv : Written (.value v) cs)
      (hgap' : Gap gap') : Written (.items [v]) (gap ++ (cs ++ (gap' ++ [')'])))
  | nextItem {v : Value} {others : List Value} {gap cs gap' cs' : List Char} (hgap : Gap gap)
      (hv : Written (.value v) cs) (hgap' : Gap gap') (hothers : Written (.items others) cs') :
      Written (.items (v :: others)) (gap ++ (cs ++ (gap' ++ ',' :: cs')))
  | noMember {gap : List Char} (hgap : Gap gap) : Written (.members []) (gap ++ ['\x7d'])
  | lastMember (name : String) {v : Value} {gap gap₁ gap₂ cs gap₃ : List Char} (hgap : Gap gap)
      (hgap₁ : Gap gap₁) (hgap₂ : Gap gap₂) (hv : Written (.value v) cs) (hgap₃ : Gap gap₃) :
      Written (.members [(name, v)])
        (gap ++ ((quote name).toList ++ (gap₁ ++ '=' :: (gap₂ ++ (cs ++ (gap₃ ++ ['\x7d']))))))
  | nextMember (name : String) {v : Value} {others : List (String × Value)}
      {gap gap₁ gap₂ cs gap₃ cs' : List Char} (hgap : Gap gap) (hgap₁ : Gap gap₁)
      (hgap₂ : Gap gap₂) (hv : Written (.value v) cs) (hgap₃ : Gap gap₃)
      (hothers : Written (.members others) cs') :
      Written (.members ((name, v) :: others))
        (gap ++ ((quote name).toList ++ (gap₁ ++ '=' :: (gap₂ ++ (cs ++ (gap₃ ++ ';' :: cs'))))))

/-! ## The canonical text -/

/-- A value that a property list can be: strings, numbers, lists, and objects in order. -/
inductive Printable : Value → Prop
  | number {n : Number} (hn : n.IsReadable) : Printable (.number n)
  | string (s : String) : Printable (.string s)
  | array {items : List Value} (hitems : ∀ v ∈ items, Printable v) : Printable (.array items)
  | object {members : List (String × Value)} (hsorted : Entries.Sorted members)
      (hmembers : ∀ member ∈ members, Printable member.2) : Printable (.object members)

theorem Gap.nil : Gap [] :=
  ⟨fun _ => rfl, by rintro c ⟨⟩⟩

theorem skip_blank (rest : List Char) : skip (' ' :: rest) = skip rest := by
  rw [skip.eq_def]
  simp [Text.isBlank]

theorem Gap.blank : Gap [' '] :=
  ⟨skip_blank, by rintro c ⟨⟩; decide⟩

theorem Gap.blanks : Gap [' ', ' '] :=
  ⟨fun rest => (skip_blank _).trans (skip_blank rest), by rintro c ⟨⟩; decide⟩

theorem Written.itemTexts {items : List Value}
    (h : ∀ v ∈ items, Written (.value v) (PropertyList.text v).toList) :
    Written (.items items)
      (' ' :: ((Text.join ", " (itemTexts items)).toList ++ [' ', ')'])) := by
  induction items with
  | nil => exact .noItem .blanks
  | cons v others ih =>
    have hv := h v List.mem_cons_self
    cases others with
    | nil => exact .lastItem .blank hv .blank
    | cons next others =>
      have hothers := ih fun w hw => h w (List.mem_cons_of_mem v hw)
      have hall := Written.nextItem .blank hv .nil hothers
      simpa [PropertyList.itemTexts, Text.join] using hall

theorem Written.memberTexts {members : List (String × Value)}
    (h : ∀ member ∈ members, Written (.value member.2) (PropertyList.text member.2).toList) :
    Written (.members members) (' ' :: ((memberTexts members).toList ++ ['\x7d'])) := by
  induction members with
  | nil => exact .noMember .blank
  | cons member others ih =>
    obtain ⟨name, v⟩ := member
    have hv := h (name, v) List.mem_cons_self
    have hothers := ih fun w hw => h w (List.mem_cons_of_mem _ hw)
    have hall := Written.nextMember name .blank .blank .blank hv .nil hothers
    simpa [PropertyList.memberTexts] using hall

/-- The text of a value is one of its texts. -/
theorem Printable.text_written {v : Value} (h : Printable v) :
    Written (.value v) (text v).toList := by
  induction h with
  | @number n hn => simpa [text, Number.text] using Written.number hn
  | string s => exact .string s
  | @array items hitems ih =>
    have hall := Written.array (Written.itemTexts ih)
    simpa [text] using hall
  | @object members hsorted hmembers ih =>
    have hall := Written.object (Written.memberTexts ih)
    rw [Entries.ofList_of_sorted hsorted] at hall
    simpa [text] using hall

end RankedRules.PropertyList
