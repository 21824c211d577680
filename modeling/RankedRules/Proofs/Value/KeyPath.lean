/-
Key paths and the segments that they are cut into.

A path is cut at its points, and each piece is trimmed. A piece of a path stands between two points
or at an end, so there is an empty piece only if a point stands at an end or two of them stand
together. Key characters are no blanks, so in a path of key characters the pieces are the segments.

* `Text.splitOn_eq` — cutting a text is the function of the standard library;
* `Text.splitOn_append`, `KeyPath.segments?_append` — two texts or paths with a separator between
  them;
* `Text.exists_of_mem_splitOn` — where a piece stands in the text;
* `KeyPath.segments?_segment` — a segment is a path by itself;
* `KeyPath.segments?_of_keyChars` — the segments of a path of key characters;
* `KeyPath.segments?_of_point`, `KeyPath.segments?_of_no_point` — they are one or several;
* `KeyPath.isSome_segments?` — what a qualifier takes for a key path has segments.
-/
import RankedRules.Proofs.Qualifier.Tokens

namespace RankedRules

namespace Text

variable {separator : Char} {cs piece : List Char}

theorem splitOn_eq (separator : Char) (cs : List Char) :
    splitOn separator cs = cs.splitOn separator := by
  induction cs with
  | nil => rfl
  | cons c rest ih =>
    rw [splitOn, List.splitOn_cons_eq_if_modifyHead, ih]
    by_cases hc : c = separator
    · rw [if_pos hc, if_pos (beq_iff_eq.2 hc)]
    · obtain ⟨piece, pieces, hsplit⟩ :=
        List.exists_cons_of_ne_nil (List.splitOn_ne_nil separator rest)
      rw [if_neg hc, if_neg (mt beq_iff_eq.1 hc), hsplit]
      rfl

theorem splitOn_of_notMem (h : separator ∉ cs) : splitOn separator cs = [cs] := by
  rw [splitOn_eq, List.splitOn_eq_singleton h]

/-- The first piece ends where the first separator stands. -/
theorem splitOn_append_cons (h : separator ∉ piece) (rest : List Char) :
    splitOn separator (piece ++ separator :: rest) = piece :: splitOn separator rest := by
  rw [splitOn_eq, splitOn_eq, List.splitOn_append_cons_self_of_not_mem h]

/-- A separator ends the pieces in front of it, and others begin behind it. -/
theorem splitOn_append (separator : Char) (cs rest : List Char) :
    splitOn separator (cs ++ separator :: rest) = splitOn separator cs ++ splitOn separator rest := by
  rw [splitOn_eq, splitOn_eq, splitOn_eq, List.splitOn_append_cons_self]

/-- In front of a piece and behind it there is nothing or a separator. -/
theorem exists_of_mem_splitOn (h : piece ∈ splitOn separator cs) :
    ∃ front behind, cs = front ++ (piece ++ behind) ∧
      (front = [] ∨ front.getLast? = some separator) ∧
      (behind = [] ∨ behind.head? = some separator) := by
  induction hlength : cs.length using Nat.strongRecOn generalizing cs with
  | ind length ih =>
    by_cases hmem : separator ∈ cs
    · -- The induction goes on behind the first separator.
      obtain ⟨first, rest, rfl, hfirst⟩ := List.eq_append_cons_of_mem hmem
      rw [splitOn_append_cons hfirst] at h
      rcases List.mem_cons.1 h with rfl | h
      · exact ⟨[], separator :: rest, rfl, .inl rfl, .inr rfl⟩
      · have hshorter : rest.length < length := by
          rw [← hlength, List.length_append, List.length_cons]
          omega
        obtain ⟨front, behind, rfl, hfront, hbehind⟩ := ih _ hshorter h rfl
        refine ⟨first ++ separator :: front, behind, by simp, .inr ?_, hbehind⟩
        rw [List.getLast?_append, List.getLast?_cons]
        rcases hfront with rfl | hfront
        · rfl
        · rw [hfront]
          rfl
    · rw [splitOn_of_notMem hmem, List.mem_singleton] at h
      exact ⟨[], [], by simp [h], .inl rfl, .inl rfl⟩

/-- No separator stands in a piece. -/
theorem notMem_of_mem_splitOn (h : piece ∈ splitOn separator cs) : separator ∉ piece := by
  induction cs generalizing piece with
  | nil =>
    rw [splitOn, List.mem_singleton] at h
    rw [h]
    exact List.not_mem_nil
  | cons c rest ih =>
    rw [splitOn] at h
    split at h
    · rcases List.mem_cons.1 h with rfl | h
      · exact List.not_mem_nil
      · exact ih h
    · rename_i hc
      obtain ⟨first, pieces, hsplit⟩ :=
        List.exists_cons_of_ne_nil (splitOn_ne_nil separator rest)
      rw [hsplit] at h ih
      rcases List.mem_cons.1 h with rfl | h
      · intro hmem
        rcases List.mem_cons.1 hmem with rfl | hmem
        · exact hc rfl
        · exact ih List.mem_cons_self hmem
      · exact ih (List.mem_cons_of_mem first h)

theorem trim_subset (cs : List Char) : trim cs ⊆ cs := by
  obtain ⟨behind, -, hcs⟩ := exists_trimEnd (trimStart cs)
  intro c hc
  have hstart : c ∈ trimStart cs := by
    rw [hcs]
    exact List.mem_append_left behind hc
  exact (List.dropWhile_suffix _).subset hstart

end Text

namespace KeyPath

open Qualifier (isKeyChar IsKeyPath)
open Text

variable {key : String}

/-- No segment is empty. -/
theorem ne_empty_of_mem {segments : List String} {segment : String}
    (h : segments? key = some segments) (hmem : segment ∈ segments) : segment ≠ "" := by
  rw [segments?] at h
  split at h
  · exact nomatch h
  · rename_i hnone
    cases h
    rintro rfl
    exact hnone (List.any_eq_true.2 ⟨"", hmem, rfl⟩)

/-- There is a first segment. -/
theorem exists_first {segments : List String} (h : segments? key = some segments) :
    ∃ first rest, segments = first :: rest := by
  rw [segments?] at h
  split at h
  · exact nomatch h
  · obtain ⟨piece, pieces, hsplit⟩ :=
      List.exists_cons_of_ne_nil (splitOn_ne_nil '.' key.toList)
    rw [hsplit] at h
    cases h
    exact ⟨_, _, rfl⟩

/-- A segment by itself is a path with just that segment. -/
theorem segments?_segment {segments : List String} {segment : String}
    (h : segments? key = some segments) (hmem : segment ∈ segments) :
    segments? segment = some [segment] := by
  have hne : segment ≠ "" := ne_empty_of_mem h hmem
  rw [segments?] at h
  split at h
  · exact nomatch h
  · cases h
    obtain ⟨piece, hpiece, rfl⟩ := List.mem_map.1 hmem
    have hpoint : '.' ∉ trim piece := fun hmem =>
      notMem_of_mem_splitOn hpiece (trim_subset piece hmem)
    have hempty : (String.ofList (trim piece)).isEmpty = false := by simpa using hne
    simp only [segments?, String.toList_ofList, splitOn_of_notMem hpoint, List.map_cons,
      List.map_nil, trim_trim, List.any_cons, hempty, List.any_nil, Bool.or_false,
      Bool.false_eq_true, if_false]

/-- The segments of two paths with a point between them are those of both. -/
theorem segments?_append {other : String} {segments others : List String}
    (h : segments? key = some segments) (hother : segments? other = some others) :
    segments? (key ++ "." ++ other) = some (segments ++ others) := by
  have htext : (key ++ "." ++ other).toList = key.toList ++ '.' :: other.toList := by simp
  rw [segments?] at h hother ⊢
  split at h
  · exact nomatch h
  · rename_i hkey
    split at hother
    · exact nomatch hother
    · rename_i hrest
      cases h
      cases hother
      rw [htext, splitOn_append, List.map_append, List.any_append, Bool.eq_false_iff.2 hkey,
        Bool.eq_false_iff.2 hrest]
      rfl

/-- The segments of a path of key characters are its pieces. -/
theorem segments?_of_keyChars (hchars : ∀ c ∈ key.toList, isKeyChar c = true)
    (hpieces : [] ∉ splitOn '.' key.toList) :
    segments? key = some ((splitOn '.' key.toList).map String.ofList) := by
  have htrim : ∀ piece ∈ splitOn '.' key.toList, trim piece = piece := by
    intro piece hpiece
    obtain ⟨front, behind, hkey, -, -⟩ := exists_of_mem_splitOn hpiece
    have hsolid : Solid piece := by
      refine .of_no_blank (fun hnil => hpieces (hnil ▸ hpiece)) fun c hc => ?_
      exact Qualifier.isBlank_of_isKeyChar (hchars c (by simp [hkey, hc]))
    exact hsolid.trim_eq
  have hmap : ((splitOn '.' key.toList).map fun piece => String.ofList (trim piece)) =
      (splitOn '.' key.toList).map String.ofList :=
    List.map_congr_left fun piece hpiece => by rw [htrim piece hpiece]
  rw [segments?, hmap]
  refine if_neg ?_
  rw [List.any_map, List.any_eq_true]
  rintro ⟨piece, hpiece, hempty⟩
  have hnil : piece = [] := by simpa using hempty
  exact hpieces (hnil ▸ hpiece)

/-- What a qualifier takes for a key path has segments. -/
theorem isSome_segments? (h : IsKeyPath key) : (segments? key).isSome = true := by
  have hpieces : [] ∉ splitOn '.' key.toList := by
    intro hmem
    obtain ⟨front, behind, hkey, hfront, hbehind⟩ := exists_of_mem_splitOn hmem
    rw [List.nil_append] at hkey
    -- The points beside the empty piece are at an end of the path, or they stand together.
    rcases hfront with rfl | hfront
    · rcases hbehind with rfl | hbehind
      · exact h.nonempty hkey
      · exact h.noPointFirst (by rw [hkey, List.nil_append, hbehind])
    · rcases hbehind with rfl | hbehind
      · exact h.noPointLast (by rw [hkey, List.append_nil, hfront])
      · obtain ⟨left, rfl⟩ := List.getLast?_eq_some_iff.1 hfront
        obtain ⟨right, rfl⟩ := List.head?_eq_some_iff.1 hbehind
        exact h.noTwoPoints ⟨left, right, by simp [hkey]⟩
  rw [segments?_of_keyChars h.chars hpieces]
  rfl

/-- A path without a point is its only segment. -/
theorem segments?_of_no_point (hchars : ∀ c ∈ key.toList, isKeyChar c = true)
    (hpieces : [] ∉ splitOn '.' key.toList) (hpoint : '.' ∉ key.toList) :
    segments? key = some [key] := by
  rw [segments?_of_keyChars hchars hpieces, splitOn_of_notMem hpoint, List.map_singleton,
    String.ofList_toList]

/-- A path with a point has several segments, the first of which is another key than the path. -/
theorem segments?_of_point (hchars : ∀ c ∈ key.toList, isKeyChar c = true)
    (hpieces : [] ∉ splitOn '.' key.toList) (hpoint : '.' ∈ key.toList) :
    ∃ first second rest, segments? key = some (first :: second :: rest) ∧ first ≠ key := by
  obtain ⟨front, behind, hkey, hfront⟩ := List.eq_append_cons_of_mem hpoint
  have hsplit : splitOn '.' key.toList = front :: splitOn '.' behind := by
    rw [hkey, splitOn_append_cons hfront]
  obtain ⟨second, rest, hbehind⟩ := List.exists_cons_of_ne_nil (splitOn_ne_nil '.' behind)
  refine ⟨String.ofList front, String.ofList second, rest.map String.ofList, ?_, ?_⟩
  · rw [segments?_of_keyChars hchars hpieces, hsplit, hbehind]
    rfl
  · rintro rfl
    rw [String.toList_ofList] at hpoint
    exact hfront hpoint

end KeyPath

end RankedRules
