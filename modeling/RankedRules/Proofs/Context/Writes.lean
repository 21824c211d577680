/-
Writing to a context at a path.

The stored values are in order like the members of an object, and a write at a path is a write into
that object, so the laws of writing hold of contexts. A value that is not null is found again, only
the last write at a path counts, no other key is touched, and no other path unless a value on the
way is replaced by an object. That the stored values are in order belongs to what a context is; no
write of values in order changes that.

* `Context.root`, `Context.storedAt` — the stored values as an object, and what is stored at a path;
* `Context.takePath_eq` — a write at a path;
* `Context.IsOrdered` — the stored values are in order, as are the objects in them,
  `Context.isOrdered_of_mem_run`;
* `Context.path_takePath` — a context answers a path with what it has taken there;
* `Context.takePath_laws` — the laws of writing at a path;
* `Context.takePath_comm` — writes at paths that go different ways.
-/
import RankedRules.Proofs.Context.Changes
import RankedRules.Proofs.Value.Assign
import RankedRules.Proofs.Value.KeyPath

namespace RankedRules.Context

variable {c d : Context} {key path first : String} {segments others rest : List String}
  {value : Value}

/-! ## The stored values as an object -/

/-- The stored values as the members of one object. -/
def root (c : Context) : Value := .object c.stored

/-- What is stored at a path: the first segment is a stored value, the others lead into it. -/
def storedAt (c : Context) : List String → Option Value
  | [] => none
  | first :: rest => (c.storedValue first).bind (Value.descend? rest)

theorem storedAt_cons (c : Context) (first : String) (rest : List String) :
    c.storedAt (first :: rest) = c.root.descend? (first :: rest) :=
  (Value.descend?_object_cons first rest c.stored).symm

theorem take_of_ne_empty (h : key ≠ "") (c : Context) (value : Value) :
    c.take value key = { c with stored := Entries.put key value c.stored } := by
  rw [take, if_neg (by simpa using h), Entries.put]
  split <;> rfl

theorem root_take (h : key ≠ "") (c : Context) (value : Value) :
    (c.take value key).root = .object (Entries.put key value c.stored) := by
  rw [take_of_ne_empty h]
  rfl

/-- A write at a path whose first segment is a key: the others write into its value. -/
theorem takePath_eq_take (h : KeyPath.segments? path = some (first :: rest)) (c : Context)
    (value : Value) :
    c.takePath value path = .ok (c.take ((c.root.child first).assign rest value) first) := by
  rw [takePath, KeyPath.segments, h]
  cases rest with
  | nil => rfl
  | cons next rest =>
    -- Where nothing is stored, the write begins with null in place of an object.
    have hstart : ((Entries.find? first c.stored).getD .null).assign (next :: rest) value =
        (c.root.child first).assign (next :: rest) value := by
      rw [Value.child]
      show _ = ((Entries.find? first c.stored).getD (.object [])).assign (next :: rest) value
      have hmembers : Value.null.members = (Value.object []).members := rfl
      cases Entries.find? first c.stored with
      | none => exact Value.assign_congr hmembers (List.cons_ne_nil next rest) value
      | some v => rfl
    rw [← hstart]
    rfl

/-- A write at a path is a write into the object of the stored values. -/
theorem takePath_eq (h : KeyPath.segments? path = some segments) (c : Context) (value : Value) :
    c.takePath value path = .ok { c with stored := (c.root.assign segments value).members } := by
  obtain ⟨first, rest, rfl⟩ := KeyPath.exists_first h
  have hfirst : first ≠ "" := KeyPath.ne_empty_of_mem h List.mem_cons_self
  rw [takePath_eq_take h, take_of_ne_empty hfirst, Value.assign_cons]
  rfl

/-- After a write at a path, the object of the stored values is what the write makes of it. -/
theorem root_of_takePath (h : KeyPath.segments? path = some segments)
    (hd : c.takePath value path = .ok d) : d.root = c.root.assign segments value := by
  obtain ⟨first, rest, rfl⟩ := KeyPath.exists_first h
  rw [takePath_eq h] at hd
  cases hd
  rw [Value.assign_cons]
  rfl

theorem model_of_takePath (h : KeyPath.segments? path = some segments)
    (hd : c.takePath value path = .ok d) : d.model = c.model := by
  rw [takePath_eq h] at hd
  cases hd
  rfl

theorem ext_of_root (hmodel : c.model = d.model) (hroot : c.root = d.root) : c = d := by
  obtain ⟨model, stored⟩ := c
  obtain ⟨model', stored'⟩ := d
  cases hmodel
  cases hroot
  rfl

/-- An invalid path is an error of the write. -/
theorem takePath_of_error {error : EvalError} (h : KeyPath.segments path = .error error)
    (c : Context) (value : Value) : c.takePath value path = .error error := by
  rw [takePath, h]
  rfl

theorem segments?_of_segments (h : KeyPath.segments path = .ok segments) :
    KeyPath.segments? path = some segments := by
  rw [KeyPath.segments] at h
  split at h
  · rename_i found hfound
    cases h
    exact hfound
  · cases h

/-! ## Contexts in order -/

/-- The stored values are in order, and so is every object in them. -/
def IsOrdered (c : Context) : Prop := c.root.IsOrdered

theorem isOrdered_of_no_stored (h : c.stored = []) : c.IsOrdered := by
  rw [IsOrdered, root, h]
  exact .empty

theorem IsOrdered.take (h : c.IsOrdered) (hvalue : value.IsOrdered) (key : String) :
    (c.take value key).IsOrdered := by
  by_cases hkey : key = ""
  · rw [Context.take, if_pos (by simp [hkey])]
    exact h
  · have hassign := Value.IsOrdered.assign h hvalue [key]
    rw [Value.assign_cons] at hassign
    rw [IsOrdered, root_take hkey]
    exact hassign

theorem IsOrdered.takePath (h : c.IsOrdered) (hvalue : value.IsOrdered)
    (hd : c.takePath value path = .ok d) : d.IsOrdered := by
  cases hsegments : KeyPath.segments path with
  | error error =>
    rw [takePath_of_error hsegments] at hd
    cases hd
  | ok segments =>
    rw [IsOrdered, root_of_takePath (segments?_of_segments hsegments) hd]
    exact Value.IsOrdered.assign h hvalue segments

theorem IsOrdered.takeAll {values : List (String × Value)} (h : c.IsOrdered)
    (hvalues : ∀ entry ∈ values, entry.2.IsOrdered) : (c.takeAll values).IsOrdered := by
  induction values generalizing c with
  | nil => exact h
  | cons entry rest ih =>
    exact ih (h.take (hvalues entry List.mem_cons_self) entry.1)
      fun entry hentry => hvalues entry (List.mem_cons_of_mem _ hentry)

theorem IsOrdered.whileTaking {valuePath : String} {values : List Value} (h : c.IsOrdered)
    (hvalues : ∀ value ∈ values, value.IsOrdered) (path : String) :
    (c.whileTaking path valuePath values).2.IsOrdered := by
  induction values generalizing c with
  | nil => exact h
  | cons value rest ih =>
    rw [Context.whileTaking]
    cases htaken : c.takePath value valuePath with
    | error error => exact h
    | ok taken =>
      have hordered : taken.IsOrdered := h.takePath (hvalues value List.mem_cons_self) htaken
      simp only
      cases taken.path path with
      | error error => exact hordered
      | ok found => exact ih hordered fun v hv => hvalues v (List.mem_cons_of_mem _ hv)

/-- The values that a write brings. -/
def Write.values : Write → List Value
  | .take value _ => [value]
  | .takePath value _ => [value]
  | .whileTaking _ _ values => values
  | _ => []

/-- A write of values in order keeps a context in order. -/
theorem isOrdered_apply (h : c.IsOrdered) (w : Write) (hw : ∀ value ∈ w.values, value.IsOrdered) :
    (c.apply w).IsOrdered := by
  cases w with
  | take value key => exact h.take (hw value List.mem_cons_self) key
  | takePath value path =>
    rw [apply]
    split
    · rename_i taken htaken
      exact h.takePath (hw value List.mem_cons_self) htaken
    · exact h
  | reset => exact isOrdered_of_no_stored rfl
  | attach model => exact h
  | whileTaking path valuePath values => exact h.whileTaking hw path

/-- All contexts that come from contexts in order by changes that bring values in order are in
order. -/
theorem isOrdered_of_mem_run {contexts : List Context} (h : ∀ c ∈ contexts, c.IsOrdered)
    {changes : List Change}
    (hchanges : ∀ i w, .write i w ∈ changes → ∀ value ∈ w.values, value.IsOrdered) :
    ∀ c ∈ run contexts changes, c.IsOrdered := by
  induction changes generalizing contexts with
  | nil => exact h
  | cons change rest ih =>
    refine ih ?_ fun i w hw => hchanges i w (List.mem_cons_of_mem _ hw)
    refine change.apply_keeps h fun i w hwrite c hc => ?_
    exact isOrdered_apply hc w (hchanges i w (by rw [hwrite]; exact List.mem_cons_self))

/-! ## Answers after a write -/

theorem value_of_stored (hkey : key ≠ "") (h : c.storedValue key = some value) :
    c.value key = .ok (some value) := by
  rw [Context.value, reader_eq, if_neg (by simpa using hkey), h]

/-- The value at a path is found in the value of the first segment. -/
theorem path_of_first {found : Option Value} (hpath : KeyPath.segments? path = some (first :: rest))
    (hfirst : c.value first = .ok found) :
    c.path path = .ok (found.bind (Value.descend? rest)) := by
  rw [Context.path, Lookup.path, KeyPath.segments, hpath]
  show (c.value first >>= fun found => pure (found.bind (Value.descend? rest))) = _
  rw [hfirst]
  rfl

/-- What is stored at a path is the answer. -/
theorem path_of_storedAt (hpath : KeyPath.segments? path = some segments)
    (h : c.storedAt segments = some value) : c.path path = .ok (some value) := by
  obtain ⟨first, rest, rfl⟩ := KeyPath.exists_first hpath
  obtain ⟨found, hfound, hvalue⟩ := Option.bind_eq_some_iff.1 h
  have hfirst : first ≠ "" := KeyPath.ne_empty_of_mem hpath List.mem_cons_self
  rw [path_of_first hpath (value_of_stored hfirst hfound), Option.bind_some, hvalue]

/-- A context answers a path with what it has taken there. -/
theorem path_takePath (c : Context) (hvalue : value.isNull = false)
    (hpath : (KeyPath.segments? path).isSome = true) :
    ∃ d, c.takePath value path = .ok d ∧ d.path path = .ok (some value) := by
  obtain ⟨segments, hpath⟩ := Option.isSome_iff_exists.1 hpath
  obtain ⟨first, rest, rfl⟩ := KeyPath.exists_first hpath
  refine ⟨_, takePath_eq hpath c value, path_of_storedAt hpath ?_⟩
  rw [storedAt_cons, root_of_takePath hpath (takePath_eq hpath c value)]
  exact Value.descend?_assign hvalue (first :: rest) c.root

/-! ## The laws of writing -/

/-- Everything that is stored on the way to the end of a path is an object. -/
def ObjectsOn (c : Context) (segments : List String) : Prop :=
  ∀ front behind, segments = front ++ behind → behind ≠ [] →
    c.storedAt front = none ∨ ∃ members, c.storedAt front = some (.object members)

theorem ObjectsOn.root (h : c.ObjectsOn segments) : c.root.ObjectsOn segments := by
  intro front behind hsegments hbehind
  cases front with
  | nil => exact .inr ⟨c.stored, rfl⟩
  | cons first rest =>
    rw [← storedAt_cons]
    exact h (first :: rest) behind hsegments hbehind

/-- A write touches no other key. -/
theorem storedValue_of_takePath (h : KeyPath.segments? path = some (first :: rest))
    (hd : c.takePath value path = .ok d) (hkey : key ≠ first) :
    d.storedValue key = c.storedValue key := by
  rw [takePath_eq_take h] at hd
  cases hd
  rw [storedValue_take, if_neg fun heq => hkey heq.1]

/-- A write touches no path that goes another way, unless it replaces a value by an object. -/
theorem storedAt_of_takePath (h : KeyPath.segments? path = some segments)
    (hd : c.takePath value path = .ok d) (hpaths : Value.Diverge segments others)
    (hobjects : c.ObjectsOn segments) : d.storedAt others = c.storedAt others := by
  cases others with
  | nil => rfl
  | cons first rest =>
    rw [storedAt_cons, storedAt_cons, root_of_takePath h hd]
    exact Value.descend?_assign_of_diverge hpaths hobjects.root value

/-- Of two writes at one path only the later one counts. -/
theorem takePath_takePath (hc : c.IsOrdered) (h : KeyPath.segments? path = some segments)
    (hd : c.takePath value path = .ok d) (new : Value) :
    d.takePath new path = c.takePath new path := by
  rw [takePath_eq h, takePath_eq h, root_of_takePath h hd, model_of_takePath h hd,
    Value.assign_assign hc]

/-- Writes at paths that go different ways can change places. -/
theorem takePath_comm (hc : c.IsOrdered) {other : String}
    (h : KeyPath.segments? path = some segments) (h' : KeyPath.segments? other = some others)
    (hpaths : Value.Diverge segments others) (value new : Value) :
    (c.takePath value path >>= fun d => d.takePath new other) =
      c.takePath new other >>= fun e => e.takePath value path := by
  obtain ⟨d, hd⟩ : ∃ d, c.takePath value path = .ok d := ⟨_, takePath_eq h c value⟩
  obtain ⟨e, he⟩ : ∃ e, c.takePath new other = .ok e := ⟨_, takePath_eq h' c new⟩
  rw [hd, he]
  show d.takePath new other = e.takePath value path
  rw [takePath_eq h', takePath_eq h, root_of_takePath h hd, root_of_takePath h' he,
    model_of_takePath h hd, model_of_takePath h' he, Value.assign_comm hc hpaths]

/-- The laws of writing at a path. An invalid path is an error, and nothing changes. At a valid one
a value that is not null is the answer afterwards; a further write there leaves what it leaves
alone; other keys keep their stored values; and at a path that goes another way the same is stored
as before, if all that was stored on the way was an object. -/
theorem takePath_laws (c : Context) (value : Value) (path : String) :
    (∀ error, KeyPath.segments path = .error error →
      c.takePath value path = .error error ∧ c.apply (.takePath value path) = c) ∧
    ∀ segments, KeyPath.segments path = .ok segments →
      ∃ first rest d, segments = first :: rest ∧ c.takePath value path = .ok d ∧
        c.apply (.takePath value path) = d ∧
        (value.isNull = false → d.path path = .ok (some value)) ∧
        (c.IsOrdered → ∀ new, d.takePath new path = c.takePath new path) ∧
        (∀ key, key ≠ first → d.storedValue key = c.storedValue key) ∧
        ∀ other others, KeyPath.segments other = .ok others →
          ¬segments <+: others → ¬others <+: segments →
          (∀ front behind, segments = front ++ behind → front ≠ [] → behind ≠ [] →
            c.storedAt front = none ∨ ∃ members, c.storedAt front = some (.object members)) →
          d.storedAt others = c.storedAt others := by
  constructor
  · intro error herror
    have htaken := takePath_of_error herror c value
    exact ⟨htaken, by rw [apply, htaken]⟩
  · intro segments hsegments
    have hpath := segments?_of_segments hsegments
    obtain ⟨first, rest, rfl⟩ := KeyPath.exists_first hpath
    have htaken := takePath_eq hpath c value
    refine ⟨first, rest, _, rfl, htaken, by rw [apply, htaken], ?_, ?_, ?_, ?_⟩
    · intro hvalue
      obtain ⟨d, hd, hanswer⟩ := c.path_takePath hvalue (by rw [hpath]; rfl)
      rw [htaken] at hd
      cases hd
      exact hanswer
    · intro hc new
      exact takePath_takePath hc hpath htaken new
    · intro key hkey
      exact storedValue_of_takePath hpath htaken hkey
    · intro other others _ hleft hright hfronts
      refine storedAt_of_takePath hpath htaken ⟨hleft, hright⟩ fun front behind hsplit hbehind => ?_
      cases front with
      | nil => exact .inl rfl
      | cons name front => exact hfronts _ behind hsplit (List.cons_ne_nil name front) hbehind

/-- An object beside a list. -/
def nested : Context where
  stored := [("a", .object [("c", .string "x")]), ("f", .array [.null])]

theorem isOrdered_nested : nested.IsOrdered := by
  have hobject : (Value.object [("c", .string "x")]).IsOrdered :=
    .object (List.pairwise_singleton _ _) fun member hmember => by
      rw [List.mem_singleton.1 hmember]
      exact .string "x"
  have hlist : (Value.array [.null]).IsOrdered :=
    .array fun item hitem => by
      rw [List.mem_singleton.1 hitem]
      exact .null
  refine .object (List.pairwise_pair.2 (by decide)) fun member hmember => ?_
  rcases List.mem_cons.1 hmember with rfl | hmember
  · exact hobject
  · rw [List.mem_singleton.1 hmember]
    exact hlist

/-- A write that makes an object on its way, where nothing is stored. -/
theorem takePath_laws_nested :
    nested.takePath (.bool true) "a..b" = .error (.invalidKeyPath "a..b") ∧
    ∃ d, nested.takePath (.bool true) "a. b.e" = .ok d ∧
      d.path "a. b.e" = .ok (some (.bool true)) ∧
      d.takePath .null "a. b.e" = nested.takePath .null "a. b.e" ∧
      d.storedValue "f" = nested.storedValue "f" ∧
      d.storedAt ["a", "c", "length"] = nested.storedAt ["a", "c", "length"] := by
  have hsegments : KeyPath.segments "a. b.e" = .ok ["a", "b", "e"] := rfl
  have hother : KeyPath.segments "a.c.length" = .ok ["a", "c", "length"] := rfl
  have hfronts : ∀ front behind : List String, ["a", "b", "e"] = front ++ behind → front ≠ [] →
      behind ≠ [] → nested.storedAt front = none ∨
        ∃ members, nested.storedAt front = some (.object members) := by
    intro front behind h hfront hbehind
    rcases front with - | ⟨a, - | ⟨b, - | ⟨e, front⟩⟩⟩
    · exact absurd rfl hfront
    · cases h
      exact .inr ⟨_, rfl⟩
    · cases h
      exact .inl rfl
    · have hlength := congrArg List.length h
      have hpositive := List.length_pos_iff.2 hbehind
      simp only [List.length_cons, List.length_append, List.length_nil] at hlength
      omega
  obtain ⟨hinvalid, -⟩ := takePath_laws nested (.bool true) "a..b"
  obtain ⟨-, hvalid⟩ := takePath_laws nested (.bool true) "a. b.e"
  obtain ⟨first, rest, d, hsplit, htaken, -, hanswer, hlast, hkeys, hpaths⟩ := hvalid _ hsegments
  cases hsplit
  refine ⟨(hinvalid _ rfl).1, d, htaken, hanswer rfl, hlast isOrdered_nested .null, ?_, ?_⟩
  · exact hkeys "f" (by decide)
  · exact hpaths "a.c.length" _ hother (by decide) (by decide) hfronts

end RankedRules.Context
