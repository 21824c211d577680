/-
Loading part by part.

A rule file is loaded line by line, and several files are loaded one after the other. So two texts
with a line feed between them give the rules of both, however their last lines end, and two lists of
files give the rules of both. A strict load gives the same rules, if it gives any: it only fails at
the first line that cannot be read. Several files fail by the failure of the first one that does.

* `RuleFile.IsSkipped`, `RuleFile.IsReadable` — the lines that are skipped, and those that do not
  stop a strict load;
* `RuleFile.ruleLines_append` — the lines of two texts;
* `RuleFile.load_true_eq_ok_iff`, `RuleFile.loadLines_true_eq_error_iff` — when a strict load
  succeeds, and what it fails by;
* `Model.loadAll_append`, `Model.loadAll_eq_error_iff` — the same for several files;
* `Model.loading_composes` — all of them together.
-/
import RankedRules.Proofs.Loading.Kept
import RankedRules.Proofs.Value.KeyPath

namespace RankedRules

/-! ## Lines -/

namespace Text

/-- A carriage return at the end of a line is trimmed. -/
theorem trim_dropReturn (line : List Char) : trim (dropReturn line) = trim line := by
  rw [dropReturn]
  split
  · rename_i front hreverse
    have hline : line = front.reverse ++ ['\r'] := by
      rw [← List.reverse_reverse line, hreverse, List.reverse_cons]
    rw [hline, trim_concat rfl]
  · rfl

/-- Trimmed, the lines of a text are its pieces, but for an empty one at the end. -/
theorem map_trim_lines (cs : List Char) : ∃ front last,
    (splitOn '\n' cs).map trim = front ++ [last] ∧
      ((lines cs).map trim = front ++ [last] ∨ last = [] ∧ (lines cs).map trim = front) := by
  obtain ⟨pieces, last, hpieces⟩ : ∃ pieces last, splitOn '\n' cs = pieces ++ [last] :=
    ⟨_, _, (List.dropLast_append_getLast (splitOn_ne_nil '\n' cs)).symm⟩
  have hended : (pieces.map dropReturn).map trim = pieces.map trim := by
    rw [List.map_map]
    exact List.map_congr_left fun line _ => trim_dropReturn line
  refine ⟨pieces.map trim, trim last, by rw [hpieces, List.map_append]; rfl, ?_⟩
  rw [lines, hpieces, List.getLast?_concat, List.dropLast_concat]
  -- An empty last piece is no line. Any other is one, and keeps a return that no line feed follows.
  cases last with
  | nil => exact .inr ⟨rfl, hended⟩
  | cons c rest =>
    refine .inl ?_
    dsimp only
    rw [List.map_append, hended]
    rfl

end Text

namespace RuleFile

open Text

variable {text line : List Char} {lines rest : List (List Char)} {rules : List Rule}
  {number : Nat} {failure : Failure}

/-- A trimmed line that is blank or a comment. -/
def IsSkipped (line : List Char) : Prop :=
  line = [] ∨ ['#'] <+: line ∨ ['/', '/'] <+: line

theorem isRule_iff : isRule line = true ↔ ¬IsSkipped line := by
  rw [isRule.eq_def, IsSkipped]
  split
  · simp
  · simp
  · simp
  · rename_i hnil hhash hslashes
    refine iff_of_true rfl ?_
    rintro (rfl | ⟨behind, rfl⟩ | ⟨behind, rfl⟩)
    · exact hnil rfl
    · exact hhash behind rfl
    · exact hslashes behind rfl

/-- A line that is skipped or read as a rule. -/
def IsReadable (line : List Char) : Prop :=
  ¬IsSkipped (trim line) → ∃ rule, Rule.parse (trim line) = .ok rule

theorem ruleLines_eq (text : List Char) :
    ruleLines text = ((splitOn '\n' text).map trim).filter isRule := by
  obtain ⟨front, last, hpieces, hlines | ⟨rfl, hlines⟩⟩ := map_trim_lines text
  · rw [ruleLines, hpieces, hlines]
  · rw [ruleLines, hpieces, hlines, List.filter_append]
    exact (List.append_nil _).symm

/-- The lines of two texts with a line feed between them. -/
theorem ruleLines_append (front behind : List Char) :
    ruleLines (front ++ '\n' :: behind) = ruleLines front ++ ruleLines behind := by
  rw [ruleLines_eq, ruleLines_eq, ruleLines_eq, splitOn_append, List.map_append,
    List.filter_append]

theorem load_false (text : List Char) : load false text = .ok ((ruleLines text).filterMap rule?) :=
  load_ok_iff.2 ⟨rfl, fun hstrict => nomatch hstrict⟩

theorem load_false_append (front behind : List Char) : ∃ rules others,
    load false front = .ok rules ∧ load false behind = .ok others ∧
      load false (front ++ '\n' :: behind) = .ok (rules ++ others) := by
  refine ⟨_, _, load_false front, load_false behind, ?_⟩
  rw [load_false, ruleLines_append, List.filterMap_append]

/-! ## Strict loads -/

theorem forall_ruleLines_iff : (∀ line ∈ ruleLines text, (rule? line).isSome = true) ↔
    ∀ line ∈ Text.lines text, IsReadable line := by
  have hread : ∀ line, (rule? line).isSome = true ↔ ∃ rule, Rule.parse line = .ok rule := by
    intro line
    rw [Option.isSome_iff_exists]
    exact exists_congr fun rule => rule?_eq_some_iff
  simp only [ruleLines, List.mem_filter, List.mem_map, isRule_iff, hread, IsReadable]
  constructor
  · exact fun h line hline hrule => h _ ⟨⟨line, hline, rfl⟩, hrule⟩
  · rintro h _ ⟨⟨line, hline, rfl⟩, hrule⟩
    exact h line hline hrule

/-- A strict load succeeds if no line stops it, and then it gives what any load gives. -/
theorem load_true_eq_ok_iff : load true text = .ok rules ↔
    (∀ line ∈ Text.lines text, IsReadable line) ∧ load false text = .ok rules := by
  rw [← forall_ruleLines_iff, load_false, load_ok_iff, Except.ok.injEq]
  constructor
  · rintro ⟨hrules, hcomplete⟩
    exact ⟨hcomplete rfl, hrules.symm⟩
  · rintro ⟨hcomplete, hrules⟩
    exact ⟨hrules.symm, fun _ => hcomplete⟩

/-- A failure names the first of some lines that cannot be read, and its number. -/
def FailsAt (number : Nat) (lines : List (List Char)) (failure : Failure) : Prop :=
  ∃ front line back, lines = front ++ line :: back ∧ (∀ earlier ∈ front, IsReadable earlier) ∧
    ¬IsReadable line ∧ failure = badLine (number + front.length) (trim line)

theorem failsAt_cons_of_readable (h : IsReadable line) :
    FailsAt number (line :: rest) failure ↔ FailsAt (number + 1) rest failure := by
  constructor
  · rintro ⟨front, bad, back, hsplit, hfront, hbad, rfl⟩
    cases front with
    | nil =>
      obtain ⟨rfl, -⟩ := List.cons.inj hsplit
      exact absurd h hbad
    | cons first front =>
      obtain ⟨-, rfl⟩ := List.cons.inj hsplit
      refine ⟨front, bad, back, rfl, (List.forall_mem_cons.1 hfront).2, hbad, ?_⟩
      rw [List.length_cons, Nat.add_right_comm, Nat.add_assoc]
  · rintro ⟨front, bad, back, rfl, hfront, hbad, rfl⟩
    refine ⟨line :: front, bad, back, rfl, List.forall_mem_cons.2 ⟨h, hfront⟩, hbad, ?_⟩
    rw [List.length_cons, Nat.add_right_comm, Nat.add_assoc]

theorem failsAt_cons_of_not_readable (h : ¬IsReadable line) :
    FailsAt number (line :: rest) failure ↔ failure = badLine number (trim line) := by
  constructor
  · rintro ⟨front, bad, back, hsplit, hfront, -, rfl⟩
    cases front with
    | nil =>
      obtain ⟨rfl, -⟩ := List.cons.inj hsplit
      rfl
    | cons first front =>
      obtain ⟨rfl, -⟩ := List.cons.inj hsplit
      exact absurd (hfront line List.mem_cons_self) h
  · rintro rfl
    exact ⟨[], line, rest, rfl, fun _ hmem => absurd hmem List.not_mem_nil, h, rfl⟩

/-- A strict load fails at the first line that cannot be read. -/
theorem loadLines_true_eq_error_iff :
    loadLines true number lines = .error failure ↔ FailsAt number lines failure := by
  -- Lines that are skipped are counted too, so the number moves on in every case.
  induction lines generalizing number with
  | nil => simp [loadLines, FailsAt]
  | cons line rest ih =>
    rw [loadLines]
    by_cases hrule : isRule (trim line) = true
    · rw [if_pos hrule]
      cases hparse : Rule.parse (trim line) with
      | ok rule =>
        rw [failsAt_cons_of_readable fun _ => ⟨rule, hparse⟩, ← ih]
        show (loadLines true (number + 1) rest >>= fun rules => Except.ok (rule :: rules)) = _ ↔ _
        simp [bind_eq_error_iff]
      | error fault =>
        have hbad : ¬IsReadable line := by
          intro hread
          obtain ⟨rule, hread⟩ := hread (isRule_iff.1 hrule)
          rw [hparse] at hread
          cases hread
        rw [failsAt_cons_of_not_readable hbad, eq_comm]
        exact Iff.of_eq (Except.error.injEq _ _)
    · rw [if_neg hrule, failsAt_cons_of_readable fun hnot => absurd (isRule_iff.2 hnot) hrule]
      exact ih

end RuleFile

/-! ## Several files -/

namespace Model

variable {files : Files} {strict : Bool} {names : List String} {failure : Failure}

/-- Several files are loaded one by one. -/
theorem loadAll_eq (files : Files) (strict : Bool) (names : List String) :
    loadAll files strict names = (names.mapM (load files strict)).map List.flatten := by
  induction names with
  | nil => rfl
  | cons name rest ih =>
    rw [loadAll, ih, List.mapM_cons]
    cases load files strict name with
    | error failure => rfl
    | ok rules => cases rest.mapM (load files strict) <;> rfl

/-- The files of two lists are loaded one list after the other. -/
theorem loadAll_append (files : Files) (strict : Bool) (front behind : List String) :
    loadAll files strict (front ++ behind) = (do
      let rules ← loadAll files strict front
      let others ← loadAll files strict behind
      .ok (rules ++ others)) := by
  rw [loadAll_eq, loadAll_eq, loadAll_eq, List.mapM_append]
  cases front.mapM (load files strict) with
  | error failure => rfl
  | ok found =>
    cases behind.mapM (load files strict) with
    | error failure => rfl
    | ok more => exact congrArg Except.ok List.flatten_append

/-- Several files fail by the failure of the first one that does. -/
theorem loadAll_eq_error_iff : loadAll files strict names = .error failure ↔
    ∃ front name back, names = front ++ name :: back ∧
      (∀ earlier ∈ front, ∃ rules, load files strict earlier = .ok rules) ∧
      load files strict name = .error failure := by
  rw [loadAll_eq, map_eq_error_iff, mapM_eq_error_iff]

/-- Two texts with a line feed between them are loaded part by part. A strict load succeeds if every
line that is neither blank nor a comment can be read, with the rules of any load, and else names the
first line that cannot. Two lists of files are loaded part by part as well, and what fails is the
first file that cannot be loaded. -/
theorem loading_composes :
    (∀ front behind : List Char, ∃ rules others,
      RuleFile.load false front = .ok rules ∧ RuleFile.load false behind = .ok others ∧
        RuleFile.load false (front ++ '\n' :: behind) = .ok (rules ++ others)) ∧
    (∀ (text : List Char) (rules : List Rule), RuleFile.load true text = .ok rules ↔
      (∀ line ∈ Text.lines text, RuleFile.IsReadable line) ∧
        RuleFile.load false text = .ok rules) ∧
    (∀ (text : List Char) (failure : Failure), RuleFile.load true text = .error failure ↔
      ∃ front line back, Text.lines text = front ++ line :: back ∧
        (∀ earlier ∈ front, RuleFile.IsReadable earlier) ∧ ¬RuleFile.IsReadable line ∧
        failure = .because ("line " ++ toString (front.length + 1) ++
          ": could not parse rule '" ++ String.ofList (Text.trim line) ++ "'")) ∧
    (∀ (files : Files) (strict : Bool) (front behind : List String) (rules : List Rule),
      loadAll files strict (front ++ behind) = .ok rules ↔ ∃ first second,
        loadAll files strict front = .ok first ∧ loadAll files strict behind = .ok second ∧
          rules = first ++ second) ∧
    ∀ (files : Files) (strict : Bool) (names : List String) (failure : Failure),
      loadAll files strict names = .error failure ↔
        ∃ front name back, names = front ++ name :: back ∧
          (∀ earlier ∈ front, ∃ rules, load files strict earlier = .ok rules) ∧
          load files strict name = .error failure := by
  refine ⟨RuleFile.load_false_append, fun text rules => RuleFile.load_true_eq_ok_iff, ?_, ?_,
    fun files strict names failure => loadAll_eq_error_iff⟩
  · intro text failure
    rw [RuleFile.load, RuleFile.loadLines_true_eq_error_iff, RuleFile.FailsAt]
    simp only [Nat.add_comm 1, RuleFile.badLine]
  · intro files strict front behind rules
    rw [loadAll_append, bind_eq_ok_iff]
    simp only [bind_eq_ok_iff, Except.ok.injEq, eq_comm (b := rules), exists_and_left]

/-! ## A line in the second part that cannot be read -/

namespace Parts

/-- A comment and a rule, in lines that end with a carriage return. -/
def front : List Char := "# c\r\n*true* => x = 1\r".toList

/-- A line that cannot be read and a comment. -/
def behind : List Char := " broken \n//".toList

def rule : Rule := ⟨some (.constant true), some (.assign "x" (Value.ofInt 1)), 100⟩

/-- A directory in which every file is the first part. -/
def directory : Files where
  read _ := .ok (String.ofList front)

end Parts

theorem loading_composes_parts :
    RuleFile.load false (Parts.front ++ '\n' :: Parts.behind) = .ok [Parts.rule] ∧
      RuleFile.load true (Parts.front ++ '\n' :: Parts.behind) =
        .error (.because "line 3: could not parse rule 'broken'") ∧
      loadAll Parts.directory true (["a"] ++ ["b"]) = .ok ([Parts.rule] ++ [Parts.rule]) := by
  obtain ⟨hlenient, -, hstrict, hfiles, -⟩ := loading_composes
  have hfront : RuleFile.load false Parts.front = .ok [Parts.rule] := rfl
  have hbehind : RuleFile.load false Parts.behind = .ok [] := rfl
  have hfile : loadAll Parts.directory true ["a"] = .ok [Parts.rule] := rfl
  refine ⟨?_, ?_, (hfiles _ _ _ _ _).2 ⟨_, _, hfile, hfile, rfl⟩⟩
  · obtain ⟨rules, others, hrules, hothers, hjoined⟩ := hlenient Parts.front Parts.behind
    cases hfront.symm.trans hrules
    cases hbehind.symm.trans hothers
    exact hjoined
  · -- In the joined text a line feed ends the last line of the first part, so it loses its return.
    have hreadable : ∀ line ∈ ["# c".toList, "*true* => x = 1".toList],
        RuleFile.IsReadable line :=
      (RuleFile.load_true_eq_ok_iff.1
        (show RuleFile.load true "# c\n*true* => x = 1".toList = .ok [Parts.rule] from rfl)).1
    have hbroken : ¬RuleFile.IsReadable " broken ".toList := fun hread => by
      obtain ⟨rule, hrule⟩ := hread (RuleFile.isRule_iff.1 rfl)
      exact nomatch hrule
    exact (hstrict _ _).2 ⟨_, _, ["//".toList], rfl, hreadable, hbroken, rfl⟩

end Model

end RankedRules
