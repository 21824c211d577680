/-
Exactly the legible rules are read back.

That the other ones are not has a reason for each of the conditions. A key that begins with a
parenthesis is taken for a class name. Where the semicolon is hidden, the priority becomes a part of
the right side, and where there is another one in front of it, the action ends early. A right side
by itself is read as something else if the constant has escapes or the key path looks like a
literal. And a condition with an exponent is not read at all.

* `Action.isLegible_of_read` — an action that is read back is legible;
* `Rule.isLegible_of_parse_text` — and so is a rule;
* `Rule.reads_back_iff` — a rule is read back, as itself or as any equal rule, if and only if it is
  legible;
* `Rule.not_all_read_back` — one that is not.
-/
import RankedRules.Proofs.Rule.Ending
import RankedRules.Proofs.Rule.Openings

namespace RankedRules

open Scan Text

/-! ## Actions that are read back -/

namespace Action

/-- What is read from a canonical text, or from a beginning of it, and is equal to the action has
not been taken for one behind a class name. -/
theorem head_ne_of_read {a b : Action} (ha : a.Parsed) {p : Int} {front behind : List Char}
    (hfront : [' '] ++ (a.text.toList ++ Priority.ending p) = front ++ behind)
    (h : parse front none = .ok b) (hsame : b.same a = true) : a.text.toList.head? ≠ some '(' := by
  intro hhead
  -- A class name takes its parenthesis away, but an equal action has as many of them.
  have hwhole : openings front ≤ openings a.text.toList := by
    have hending : openings (Priority.ending p) = 0 := openings_eq_zero (by
      simp only [Priority.ending, List.mem_cons, not_or]
      exact ⟨by decide, by decide, by decide, fun hmem => by
        cases Number.isScientificChar_of_mem_chars (n := .integer p) hmem⟩)
    have hcount := congrArg openings hfront
    simp only [openings_append, openings_cons, openings_nil, hending] at hcount
    have hblank : (if ' ' = '(' then 1 else 0) = 0 := rfl
    omega
  obtain ⟨rest, htext⟩ : ∃ rest, a.text.toList = '(' :: rest := by
    cases htext : a.text.toList with
    | nil =>
      rw [htext] at hhead
      cases hhead
    | cons c rest =>
      rw [htext] at hhead
      cases hhead
      exact ⟨rest, rfl⟩
  rw [htext] at hfront
  rcases front with - | ⟨c, - | ⟨d, front⟩⟩
  · cases h
  · cases hfront
    cases h
  · obtain ⟨rfl, hbehind⟩ := List.cons.inj hfront
    obtain ⟨rfl, _⟩ := List.cons.inj hbehind
    have htrim : (trim (' ' :: '(' :: front)).head? = some '(' :=
      head?_trim (.single rfl) (by decide) front
    have hlt := openings_lt_of_cast htrim h
    rw [openings_eq_of_same ha hsame] at hlt
    omega

/-- A blank is no equals sign, and opens nothing. -/
theorem noFree_blank {text : List Char} (h : NoFree false '=' {} text) :
    NoFree false '=' {} (' ' :: text) := by
  intro front behind hsplit
  cases front with
  | nil => cases hsplit
  | cons c front =>
    cases hsplit
    exact h front behind rfl

/-- If an action is read at all, no semicolon in its key ends it. -/
theorem noFree_key {a : Action} {key : String} (hkey : IsKey key)
    (hcast : key.toList.head? ≠ some '(') {right : List Char}
    (htext : a.text.toList = key.toList ++ right) {p : Int} {found : Action × Int}
    (h : Rule.parseRight ([' '] ++ (a.text.toList ++ Priority.ending p)) = .ok found) :
    NoFree true ';' {} key.toList := by
  -- In front of a semicolon in the key there is no equals sign, and so no assignment.
  refine Classical.byContradiction fun hnot => ?_
  obtain ⟨front, behind, hsplit, hcut⟩ := exists_cut_of_not_noFree hnot
  have hcut' : ∀ more, cutFrom? true [';'] {} (a.text.toList ++ more) =
      some (front, ';' :: (behind ++ right ++ more)) := by
    intro more
    rw [htext, List.append_assoc, hcut]
    simp
  have hearly := Rule.parseRight_early hcut' h
  have hequals : NoFree false '=' {} (' ' :: front) := by
    have hall := hkey.noEquals
    rw [hsplit] at hall
    exact noFree_blank hall.left
  have hhead : (trim (' ' :: front)).head? ≠ some '(' := by
    cases front with
    | nil => decide
    | cons c front =>
      have hc : isBlank c = false := hkey.solid.first c (by rw [hsplit]; rfl)
      have hfirst : (trim (' ' :: c :: front)).head? = some c :=
        head?_trim (.single rfl) hc front
      rw [hfirst]
      rw [hsplit] at hcast
      exact hcast
  exact parse_eq_error hhead hequals found.1 hearly

/-- The literal that a right side is, if the assignment is equal to one of a constant. -/
theorem literal_of_ofSides {key : String} {v : Value} {right : List Char} {b : Action}
    (h : ofSides none key right = .ok b) (hsame : b.same (.assign key v) = true) :
    ∃ w, RightSide.parse right = .ok (.literal w) ∧ w.same v = true := by
  obtain ⟨w, rfl, hw⟩ := eq_assign_of_same hsame
  obtain ⟨side, hside, h⟩ := bind_eq_ok_iff.1 h
  cases side with
  | literal v =>
    cases h
    exact ⟨w, hside, hw⟩
  | path path => cases h

/-- The key path that a right side is, if the assignment is equal to one of that key path. -/
theorem path_of_ofSides {key path : String} {right : List Char} {b : Action}
    (h : ofSides none key right = .ok b) (hsame : b.same (.reference key path) = true) :
    path = String.ofList (trim right) ∧ RightSide.IsName path := by
  obtain rfl := eq_reference_of_same hsame
  obtain ⟨side, hside, h⟩ := bind_eq_ok_iff.1 h
  rcases RightSide.parse_ok hside with ⟨v, rfl, _⟩ | ⟨rfl, hname, _⟩
  · cases h
  · cases h
    exact ⟨rfl, hname⟩

/-- A constant in the form that is read with its escapes has none. -/
theorem isUnescaped_of_parse_literal {s : String} {w : Value}
    (h : RightSide.parse (literal (.string s)).toList = .ok (.literal w))
    (hsame : w.same (.string s) = true) : RightSide.IsUnescaped s := by
  rw [RightSide.parse_string] at h
  cases h
  rw [Value.same, beq_iff_eq] at hsame
  have hescape := congrArg String.toList hsame
  rw [String.toList_ofList] at hescape
  exact (RightSide.flatMap_escape_iff _).1 hescape

theorem ok_of_map {read : Except ParseError Action} {p : Int} {found : Action × Int}
    (h : read.map (·, p) = .ok found) : read = .ok found.1 := by
  obtain ⟨a, ha, rfl⟩ := map_eq_ok_iff.1 h
  exact ha

/-- An assignment of a constant that is read back is legible. -/
theorem assign_isLegible {key : String} {v : Value} (hkey : IsKey key)
    (hv : RightSide.IsConstant v) (hcast : key.toList.head? ≠ some '(') {p : Int}
    (hp : Priority.isSigned32 p = true) {found : Action × Int}
    (h : Rule.parseRight ([' '] ++ ((Action.assign key v).text.toList ++ Priority.ending p)) =
      .ok found)
    (hsame : found.1.same (.assign key v) = true) : (Action.assign key v).IsLegible := by
  have hfree : NoFree true ';' {} key.toList := noFree_key hkey hcast (assign_toList key v) h
  obtain ⟨depth, hafter⟩ := hkey.after_eq
  have hpasses := assign_passes (hafter ▸ hfree.passes) hv
  have hsides := parse_sides hkey hcast (assign_toList key v)
  by_cases hdepth : depth = 0
  · subst hdepth
    refine .assign hcast ⟨hafter, hfree⟩ ?_
    rintro s rfl
    rw [Rule.parseRight_semicolon hpasses hp, hsides,
      (RightSide.literal_solid hv).trim_append_blank] at h
    obtain ⟨w, hread, hw⟩ := literal_of_ofSides (ok_of_map h) hsame
    exact isUnescaped_of_parse_literal hread hw
  · -- A bracket is left open, so the priority has become a part of the right side.
    have hproper : (outside depth).IsProper := ⟨by rintro quote ⟨⟩, fun _ => rfl⟩
    have hopen : outside depth ≠ {} := fun heq => hdepth (congrArg State.depth heq)
    rw [Rule.parseRight_open hpasses hproper hopen, hsides,
      (Priority.ending_solid (RightSide.literal_solid hv) p).trim_eq] at h
    obtain ⟨w, hread, hw⟩ := literal_of_ofSides (ok_of_map h) hsame
    rw [RightSide.parse_behind hv p hread] at hw
    cases hw

/-- A semicolon that ends an assignment early, but not in the key, is one in the key path. -/
theorem exists_shorter_path {key path : String} {front behind : List Char}
    (hkey : NoFree true ';' {} key.toList)
    (htext : (Action.reference key path).text.toList = front ++ ';' :: behind)
    (hfree : isFree true (({} : State).after true front) ';' = true) :
    ∃ shorter, front = key.toList ++ ' ' :: '=' :: ' ' :: shorter ∧
      path.toList = shorter ++ ';' :: behind := by
  rw [reference_toList] at htext
  rcases List.append_eq_append_iff.1 htext with ⟨more, hfront, hmore⟩ | ⟨more, hfront, hmore⟩
  · -- The three signs between the key and the path are no semicolons.
    rcases more with - | ⟨c, - | ⟨d, - | ⟨e, shorter⟩⟩⟩
    · cases hmore
    · cases hmore
    · cases hmore
    · simp only [List.cons_append, List.cons.injEq] at hmore
      obtain ⟨rfl, rfl, rfl, hmore⟩ := hmore
      exact ⟨shorter, hfront, hmore⟩
  · rcases more with - | ⟨c, more⟩
    · cases hmore
    · obtain ⟨rfl, _⟩ := List.cons.inj hmore
      rw [hkey front more hfront] at hfree
      cases hfree

/-- An assignment that ends inside of its key path is read as one of a shorter path. -/
theorem not_same_of_early {key path : String} (hkey : IsKey key)
    (hcast : key.toList.head? ≠ some '(') {b : Action} {shorter behind : List Char}
    (hpath : path.toList = shorter ++ ';' :: behind)
    (h : parse ([' '] ++ (key.toList ++ ' ' :: '=' :: ' ' :: shorter)) none = .ok b) :
    b.same (.reference key path) ≠ true := by
  intro hsame
  have hread : parse ([' '] ++ (key.toList ++ ' ' :: '=' :: ' ' :: shorter ++ [])) none =
      ofSides none key (trim (shorter ++ [])) := parse_sides hkey hcast rfl []
  rw [List.append_nil, h] at hread
  obtain ⟨heq, _⟩ := path_of_ofSides hread.symm hsame
  have hlength := congrArg (fun text : String => text.toList.length) heq
  have hle := (trim_sublist (trim (shorter ++ []))).length_le
  have hle' := (trim_sublist (shorter ++ [])).length_le
  simp only [String.toList_ofList, hpath, List.length_append, List.length_cons,
    List.length_nil] at hlength hle'
  omega

/-- An assignment of the value at a key path that is read back is legible. -/
theorem reference_isLegible {key path : String} (hkey : IsKey key) (hpath : Solid path.toList)
    (hcast : key.toList.head? ≠ some '(') {p : Int} (hp : Priority.isSigned32 p = true)
    {found : Action × Int}
    (h : Rule.parseRight ([' '] ++ ((Action.reference key path).text.toList ++ Priority.ending p)) =
      .ok found)
    (hsame : found.1.same (.reference key path) = true) :
    (Action.reference key path).IsLegible := by
  have htext := reference_toList key path
  have hkeyFree : NoFree true ';' {} key.toList := noFree_key hkey hcast htext h
  have hsides := parse_sides hkey hcast htext
  have hproper : (({} : State).after true (Action.reference key path).text.toList).IsProper :=
    State.IsProper.start.after _
  by_cases hfree : NoFree true ';' {} (Action.reference key path).text.toList
  · by_cases hstate : ({} : State).after true (Action.reference key path).text.toList = {}
    · have hpasses := hfree.passes
      rw [hstate] at hpasses
      rw [Rule.parseRight_semicolon hpasses hp, hsides, hpath.trim_append_blank] at h
      obtain ⟨_, hname⟩ := path_of_ofSides (ok_of_map h) hsame
      exact .reference hcast ⟨hstate, hfree⟩ hname
    · -- A quote or a bracket is left open, and the priority makes the path longer.
      have htrim := (Priority.ending_solid hpath p).trim_eq
      rw [Rule.parseRight_open hfree.passes hproper hstate, hsides, htrim] at h
      obtain ⟨heq, _⟩ := path_of_ofSides (ok_of_map h) hsame
      rw [htrim] at heq
      have hlength := congrArg (fun text : String => text.toList.length) heq
      simp [Priority.ending] at hlength
  · obtain ⟨front, behind, hsplit, hcut⟩ := exists_cut_of_not_noFree hfree
    have hearly := Rule.parseRight_early hcut h
    obtain ⟨shorter, rfl, hshorter⟩ :=
      exists_shorter_path hkeyFree hsplit (noFree_of_cutFrom? (hcut [])).2.1
    exact absurd hsame (not_same_of_early hkey hcast hshorter hearly)

end Action

/-- An action that is read from its text is legible. -/
theorem Action.isLegible_of_read {a : Action} (ha : a.Parsed) {p : Int}
    (hp : Priority.isSigned32 p = true) {found : Action × Int}
    (h : Rule.parseRight ([' '] ++ (a.text.toList ++ Priority.ending p)) = .ok found)
    (hsame : found.1.same a = true) : a.IsLegible := by
  obtain ⟨front, behind, hfront, hread⟩ := Rule.exists_front h
  have hhead := head_ne_of_read ha hfront hread hsame
  have hkeyHead : ∀ {key : String} {right : List Char}, IsKey key →
      a.text.toList = key.toList ++ right → key.toList.head? ≠ some '(' := by
    intro key right hkey htext
    rw [htext, List.head?_append] at hhead
    cases hlist : key.toList with
    | nil => exact absurd hlist hkey.solid.nonempty
    | cons c rest => rwa [hlist] at hhead
  cases ha with
  | assign hkey hv =>
    exact assign_isLegible hkey hv (hkeyHead hkey (assign_toList _ _)) hp h hsame
  | reference hkey hpath hsome =>
    exact reference_isLegible hkey hpath (hkeyHead hkey (reference_toList _ _)) hp h hsame

/-! ## Rules that are read back -/

theorem Action.Parsed.same_refl {a : Action} (ha : a.Parsed) : a.same a = true := by
  cases ha with
  | @assign key v hkey hv =>
    have hv : (v == v) = true := v.same_refl
    rw [Action.same, beq_self_eq_true, hv, Bool.and_self]
  | reference hkey hpath hsome =>
    rw [Action.same, beq_self_eq_true, beq_self_eq_true, Bool.and_self]

namespace Rule

/-- A rule with an equal priority, an equal action and a condition of the same text is equal. -/
theorem same_iff (q q' : Qualifier) (a a' : Action) (p p' : Int) :
    (Rule.mk (some q') (some a') p').same ⟨some q, some a, p⟩ = true ↔
      p' = p ∧ a'.same a = true ∧ q'.text = q.text := by
  simp [same, and_assoc]

/-- A rule from whose canonical text an equal rule is read is legible. -/
theorem isLegible_of_parse_text {text : List Char} {r r' : Rule} (h : parse text = .ok r)
    (hread : parse r.text.toList = .ok r') (hsame : r'.same r = true) : r.IsLegible := by
  obtain ⟨q, a, p, rfl, hq, ha, hp⟩ := parse_ok h
  rw [text_toList, parse_arrow hq] at hread
  cases hqualifier : Qualifier.parseChars q.text.toList with
  | error fault =>
    rw [hqualifier] at hread
    cases hread
  | ok q' =>
    cases hright : parseRight ([' '] ++ (a.text.toList ++ Priority.ending p)) with
    | error fault =>
      rw [hqualifier, hright] at hread
      cases hread
    | ok found =>
      rw [hqualifier, hright] at hread
      cases hread
      obtain ⟨_, haction, _⟩ := (same_iff q q' a found.1 p found.2).1 hsame
      refine ⟨?_, ?_⟩
      · rintro q₁ ⟨⟩
        exact Qualifier.isLegible_of_parse_text hq (Qualifier.parseChars_ok hqualifier)
      · rintro a₁ ⟨⟩
        exact Action.isLegible_of_read ha hp hright haction

/-- A rule that has been read is read back from its canonical text, as itself or as any rule that is
equal to it, if and only if it is legible. -/
theorem reads_back_iff {text : List Char} {r : Rule} (h : parse text = .ok r) :
    (parse r.text.toList = .ok r ↔ r.IsLegible) ∧
      ((∃ r', parse r.text.toList = .ok r' ∧ r'.same r = true) ↔ r.IsLegible) := by
  have hback : r.IsLegible → parse r.text.toList = .ok r := parse_text_of_isLegible h
  have hself : r.same r = true := by
    obtain ⟨q, a, p, rfl, _, ha, _⟩ := parse_ok h
    exact (same_iff q q a a p p).2 ⟨rfl, ha.same_refl, rfl⟩
  refine ⟨⟨fun hread => isLegible_of_parse_text h hread hself, hback⟩, ⟨?_, ?_⟩⟩
  · rintro ⟨r', hread, hsame⟩
    exact isLegible_of_parse_text h hread hsame
  · exact fun hlegible => ⟨r, hback hlegible, hself⟩

set_option maxRecDepth 4000 in
/-- Signs of the grammar in strings, in a quoted key and in a property list. -/
theorem reads_back_nested : ∃ r : Rule,
    parse "not (a >= -7 or b like 'it\\'s => ;*') =>\"k;(\"=\x7bl=(1,\"=>;\")\x7d;high".toList =
        .ok r ∧
      r.text =
        "NOT (a >= -7 OR b like 'it\\'s => ;*') => \"k;(\" = \x7b \"l\" = ( 1, \"=>;\" ); \x7d ; 150" ∧
      parse r.text.toList = .ok r := by
  have hread :
      parse "not (a >= -7 or b like 'it\\'s => ;*') =>\"k;(\"=\x7bl=(1,\"=>;\")\x7d;high".toList =
        .ok ⟨some (.not (.compound .any [.compare "a" .greaterOrEqual (.number (.integer (-7))),
            .compare "b" .like (.string "it's => ;*")])),
          some (.assign "\"k;(\"" (.object [("l", .array [.number (.integer 1), .string "=>;"])])),
          150⟩ := rfl
  refine ⟨_, hread, by decide +kernel, (reads_back_iff hread).1.2 ⟨?_, ?_⟩⟩
  · rintro q ⟨⟩ x hx
    simp [Qualifier.literals, Qualifier.literalsOfAll] at hx
  · rintro a ⟨⟩
    exact .assign (by decide) (by decide) (by rintro s ⟨⟩)

/-- Not every rule is read back: the escapes in a constant are not taken back. -/
theorem not_all_read_back : ¬∀ (text : List Char) (r : Rule), parse text = .ok r →
    ∃ r', parse r.text.toList = .ok r' ∧ r'.same r = true := by
  intro hall
  have hread : parse "*true* => a = 'x\"y'".toList =
      .ok ⟨some (.constant true), some (.assign "a" (.string "x\"y")), 100⟩ := rfl
  obtain ⟨r', hread', hsame⟩ := hall _ _ hread
  have hback : parse "*true* => a = \"x\\\"y\" ; 100".toList =
      .ok ⟨some (.constant true), some (.assign "a" (.string "x\\\"y")), 100⟩ := rfl
  have htext : Rule.text ⟨some (.constant true), some (.assign "a" (.string "x\"y")), 100⟩ =
      "*true* => a = \"x\\\"y\" ; 100" := by decide +kernel
  rw [htext, hback] at hread'
  cases hread'
  revert hsame
  decide

end Rule

end RankedRules
