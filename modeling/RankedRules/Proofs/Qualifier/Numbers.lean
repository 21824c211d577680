/-
Numbers in conditions that are read back.

A number on the right side of a comparison is read as far as its digits and points go, so the
canonical text of a double that is written with an exponent is not read as a number to its end.
These are the doubles that are very small or very large. All other numbers are read back, and so
are the comparisons with them.

* `Qualifier.parse_comparison` — a comparison is read with its right side, whatever that is;
* `Qualifier.operand_number_iff`, `Qualifier.parse_number_iff` — which numbers are read back alone
  and in a comparison;
* `Qualifier.number_reads_back` — every number that is read, and its canonical text.
-/
import RankedRules.Proofs.Number.Notation
import RankedRules.Proofs.Qualifier.ReadBack

namespace RankedRules

/-- An integer, or a double that is written without an exponent. -/
def Number.IsModerate : Number → Prop
  | .integer _ => True
  | .double x => x.IsModerate

namespace Qualifier

open Text

variable {path : String} {token : List Char} {n : Number}

/-- A comparison as a whole text is read with its right side. -/
theorem parse_comparison (hpath : IsLeftKey path) (op : Operator) {gap gap' : List Char}
    (hgap : Gap gap) (hgap' : Gap gap') {right : Operand} {rest : List Char}
    (h : operand token = .ok (right, rest)) (hrest : Blanks rest) :
    parse (path.toList ++ (gap ++ (op.symbol.toList ++ (gap' ++ token)))) =
      .ok (right.condition path op) := by
  have hnil : trimStart rest = [] := trimStart_of_blanks hrest
  have hnone : ∀ connective : Connective, keyword? connective.word rest = none := fun connective =>
    by
      rw [keyword?, hnil]
      cases connective <;> rfl
  have hoperand : operand (gap' ++ token) = .ok (right, rest) := by
    rw [← h]
    simp only [operand, trimStart_append_of_blank hgap'.blanks]
  have hitem : ∀ depth, item depth (path.toList ++
      (gap ++ (op.symbol.toList ++ (gap' ++ token)))) = .ok (right.condition path op, rest) :=
    fun depth => by
      rw [← List.nil_append (path.toList ++ _), item_comparison hpath op hgap hgap' .nil, hoperand]
      rfl
  generalize path.toList ++ (gap ++ (op.symbol.toList ++ (gap' ++ token))) = whole at hitem ⊢
  have hexpression : expression (whole.length + 1) whole = .ok (right.condition path op, rest) := by
    rw [expression_succ]
    exact combination_single (combination_single (hitem _) (hnone .all)) (hnone .any)
  exact Reader.whole_eq_ok_iff.2 ⟨rest, hexpression, hnil⟩

/-- The literal of a comparison has an exponent if it is a double of no moderate size. -/
theorem noExponent_number_iff : NoExponent [.number n] ↔ n.IsModerate := by
  cases n with
  | integer n => exact iff_of_true (fun x hx => nomatch List.mem_singleton.1 hx) trivial
  | double x =>
    rw [Number.IsModerate, ← x.exponent_iff]
    refine ⟨fun h => h x List.mem_cons_self, fun h y hy => ?_⟩
    cases List.mem_singleton.1 hy
    exact h

/-- The canonical text of a number is read as this number to its end if the size of the number is
moderate. -/
theorem operand_number_iff (hn : n.IsReadable) :
    operand (literal (.number n)).toList = .ok (.literal (.number n), []) ↔ n.IsModerate := by
  rw [← noExponent_number_iff]
  constructor
  · rintro hread x hx hletter
    cases List.mem_singleton.1 hx
    have hstops := operand_exponent hletter .nil []
    rw [List.append_nil, List.nil_append] at hstops
    obtain ⟨power, hpower⟩ := hstops _ _ hread
    cases hpower
  · intro h
    have hliteral : IsLiteral (.number n) := .number hn
    have hreads : ReadsBack (.number n) :=
      hliteral.readsBack fun x hx => h x (hx ▸ List.mem_cons_self)
    simpa using hreads .nil delimited_nil

/-- The canonical text of a comparison with a number is read as this comparison if the size of the
number is moderate, and not read at all otherwise. -/
theorem parse_number_iff (hpath : IsLeftKey path) (op : Operator) (hn : n.IsReadable) :
    (parse (text (.compare path op (.number n))).toList = .ok (.compare path op (.number n)) ↔
      n.IsModerate) ∧
    ∀ q, parse (text (.compare path op (.number n))).toList = .ok q → n.IsModerate := by
  have hwell : WellFormed IsLiteral (.compare path op (.number n)) :=
    .compare op hpath (.number hn)
  have hlegible : ∀ q, parse (text (.compare path op (.number n))).toList = .ok q →
      n.IsModerate := fun q hq =>
    noExponent_number_iff.1 (isLegible_of_parse_text hwell hq)
  refine ⟨⟨hlegible _, fun h => ?_⟩, hlegible⟩
  exact parse_text_of_isLegible hwell (noExponent_number_iff.2 h)

/-- A number that is read as the right side of a comparison makes the comparison that is written.
The canonical texts of the number and of the comparison are read back if the number is an integer,
zero, or of a size from `0.00001` up to below ten to the power of 16; otherwise the text of the
comparison is not read at all. -/
theorem number_reads_back (hpath : IsLeftKey path) (op : Operator)
    (h : operand token = .ok (.literal (.number n), [])) :
    parse (path.toList ++ ([' '] ++ (op.symbol.toList ++ ([' '] ++ token)))) =
      .ok (.compare path op (.number n)) ∧
    (operand (literal (.number n)).toList = .ok (.literal (.number n), []) ↔ n.IsModerate) ∧
    (parse (text (.compare path op (.number n))).toList = .ok (.compare path op (.number n)) ↔
      n.IsModerate) ∧
    ∀ q, parse (text (.compare path op (.number n))).toList = .ok q → n.IsModerate := by
  have hn : n.IsReadable := by
    rcases operand_ok h with ⟨v, hv, hliteral⟩ | ⟨key, hkey, -⟩
    · cases hv
      cases hliteral with
      | number hn => exact hn
    · cases hkey
  exact ⟨parse_comparison hpath op .blank .blank h .nil, operand_number_iff hn,
    parse_number_iff hpath op hn⟩

/-- A numeral that is a number is read to its end. -/
theorem operand_of_ofChars? (h : Decimal.Begins Decimal.isPositionalChar token)
    (hn : Number.ofChars? token = some n) : operand token = .ok (.literal (.number n), []) := by
  have hstop : ∀ c ∈ ([] : List Char).head?, Decimal.isPositionalChar c = false :=
    fun _ hc => nomatch hc
  have hread := operand_numeral h .nil hstop
  rwa [List.append_nil, List.nil_append, hn] at hread

theorem operand_large : operand "100000000000000000000".toList =
    .ok (.literal (.number (.double ⟨false, 4906019910204099648, by decide⟩)), []) :=
  operand_of_ofChars? ⟨_, _, rfl, .inl (by decide), by decide +kernel⟩ (by decide +kernel)

/-- A number at the lower bound is read back, and one beyond the upper bound is not. -/
theorem number_reads_back_bounds : ∃ small large : Double,
    (operand "-0.00001".toList = .ok (.literal (.number (.double small)), []) ∧
      operand (literal (.number (.double small))).toList =
        .ok (.literal (.number (.double small)), [])) ∧
    operand "100000000000000000000".toList = .ok (.literal (.number (.double large)), []) ∧
      ∀ q, parse (text (.compare "k" .equal (.number (.double large)))).toList ≠ .ok q := by
  have hkey : IsLeftKey "k" := by decide +kernel
  have hsmall : operand "-0.00001".toList =
      .ok (.literal (.number (.double ⟨true, 4532020583610935537, by decide⟩)), []) :=
    operand_of_ofChars? ⟨_, _, rfl, .inr rfl, by decide +kernel⟩ (by decide +kernel)
  obtain ⟨-, hback, -⟩ := number_reads_back hkey .equal hsmall
  obtain ⟨-, -, -, hnot⟩ := number_reads_back hkey .equal operand_large
  refine ⟨_, _, ⟨hsmall, hback.2 ?_⟩, operand_large, fun q hq => absurd (hnot q hq) ?_⟩
  · show Double.IsModerate _
    decide +kernel
  · show ¬Double.IsModerate _
    decide +kernel

/-- Not all numbers are read back: ten to the power of 20 is written with an exponent. -/
theorem not_all_numbers_read_back : ¬∀ (token : List Char) (n : Number),
    operand token = .ok (.literal (.number n), []) →
      operand (literal (.number n)).toList = .ok (.literal (.number n), []) := by
  intro hall
  have hwritten : (literal (.number (.double ⟨false, 4906019910204099648, by decide⟩))).toList =
      ['1'] ++ ['e', '+', '2', '0'] := by decide +kernel
  have hclaimed := hall _ _ operand_large
  rw [hwritten, ← List.nil_append (['1'] ++ _),
    operand_numeral ⟨_, _, rfl, .inl (by decide), by decide +kernel⟩ .nil (by decide)] at hclaimed
  revert hclaimed
  have hone : Number.ofChars? ['1'] = some (.integer 1) := by decide +kernel
  rw [hone]
  rintro ⟨⟩

end Qualifier

end RankedRules
