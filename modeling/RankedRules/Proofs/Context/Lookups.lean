/-
Key paths in objects and in contexts.

A key path is answered alike by everything that holds the members of an object: by a map of the
members, by the object as a value, by steps into the object, and by a context that has taken the
members. They differ in where null and the empty key are left out, but no segment of a path is empty
and no step ends at null. Paths compose whatever answers the first segment, so also where rules do.

* `Value.atPath` — the steps into a value along a path;
* `Lookup.path_eq_atPath` — a lookup that answers keys like a value answers paths like it;
* `Context.value_takeAll` — a context without a model that has taken the members of an object;
* `Lookup.path_append` — a longer path is followed from where the shorter one ends;
* `Lookup.path_laws` — both for all objects and paths.
-/
import RankedRules.Proofs.Context.Writes

namespace RankedRules

variable {members taken : Entries Value} {key : String} {look : Lookup (Except EvalError)}

/-- What the segments of a path find one after the other, from a value on. -/
def Value.atPath (value : Value) (path : String) : Except EvalError (Option Value) := do
  let segments ← KeyPath.segments path
  .ok (value.descend? segments)

namespace Lookup

/-- A lookup that answers keys like a value answers paths like it. -/
theorem path_eq_atPath {value : Value} (h : ∀ key, key ≠ "" → look key = .ok (value.step? key))
    (path : String) : look.path path = value.atPath path := by
  rw [Lookup.path, Value.atPath, KeyPath.segments]
  cases hsegments : KeyPath.segments? path with
  | none => rfl
  | some segments =>
    obtain ⟨first, rest, rfl⟩ := KeyPath.exists_first hsegments
    have hfirst := h first (KeyPath.ne_empty_of_mem hsegments List.mem_cons_self)
    show (look first >>= fun found => pure (found.bind (Value.descend? rest))) = _
    rw [hfirst]
    rfl

/-- A longer path is followed from where the shorter one ends. -/
theorem path_append {front behind : String} {segments others : List String}
    (hfront : KeyPath.segments front = .ok segments)
    (hbehind : KeyPath.segments behind = .ok others) :
    look.path (front ++ "." ++ behind) = (do
      let found ← look.path front
      .ok (found.bind (Value.descend? others))) := by
  have hsegments := Context.segments?_of_segments hfront
  have hwhole : KeyPath.segments (front ++ "." ++ behind) = .ok (segments ++ others) := by
    rw [KeyPath.segments,
      KeyPath.segments?_append hsegments (Context.segments?_of_segments hbehind)]
  obtain ⟨first, rest, rfl⟩ := KeyPath.exists_first hsegments
  rw [Lookup.path, Lookup.path, hwhole, hfront]
  show (look first >>= fun found => pure (found.bind (Value.descend? (rest ++ others)))) =
    (look first >>= fun found => pure (found.bind (Value.descend? rest))) >>= _
  -- Both paths look up the same first segment. Only the steps behind it have to be composed.
  rw [bind_assoc]
  refine bind_congr fun found => ?_
  cases found with
  | none => rfl
  | some value => exact congrArg Except.ok (Value.descend?_append rest others value)

end Lookup

namespace Context

/-- What is stored after several values have been taken, each under another key. -/
theorem storedValue_takeAll (distinct : (taken.map Prod.fst).Nodup) (hkey : key ≠ "")
    (c : Context) : (c.takeAll taken).storedValue key =
      (Entries.find? key taken).elim (c.storedValue key) Value.present := by
  induction taken generalizing c with
  | nil => rfl
  | cons entry rest ih =>
    obtain ⟨name, value⟩ := entry
    obtain ⟨hnot, hrest⟩ := List.nodup_cons.1 distinct
    show ((c.take value name).takeAll rest).storedValue key = _
    rw [ih hrest, storedValue_take, Entries.find?]
    by_cases hname : name = key
    · -- No later entry has the key again, so this one stays.
      subst hname
      have hnone : Entries.find? name rest = none := by
        refine Option.eq_none_iff_forall_ne_some.2 fun v hv => hnot ?_
        exact List.mem_map.2 ⟨_, Entries.mem_of_find? hv, rfl⟩
      rw [hnone, if_pos ⟨rfl, hkey⟩, if_pos rfl]
      rfl
    · rw [if_neg hname, if_neg fun h => hname h.1.symm]

theorem model_takeAll (c : Context) (taken : List (String × Value)) :
    (c.takeAll taken).model = c.model := by
  induction taken generalizing c with
  | nil => rfl
  | cons entry rest ih =>
    show ((c.take entry.2 entry.1).takeAll rest).model = c.model
    rw [ih, model_take]

/-- Without a model, only what is stored has a value. -/
theorem value_of_no_model {c : Context} (hmodel : c.model = none) (hkey : key ≠ "") :
    c.value key = .ok (c.storedValue key) := by
  rw [Context.value, reader_eq, if_neg (by simpa using hkey)]
  cases c.storedValue key with
  | some value => rfl
  | none => exact inferThrough_of_no_model hmodel

/-- A context without a model that has taken the members of an object answers keys like it. -/
theorem value_takeAll (sorted : Entries.Sorted members) (htaken : taken.Perm members)
    (hkey : key ≠ "") :
    Context.value (takeAll {} taken) key = .ok ((Value.object members).step? key) := by
  have hdistinct : (taken.map Prod.fst).Nodup :=
    (htaken.map Prod.fst).nodup_iff.2 sorted.distinct
  rw [value_of_no_model (model_takeAll {} taken) hkey, storedValue_takeAll hdistinct hkey,
    Entries.find?_eq_of_perm sorted.distinct htaken, Value.step?]
  cases Entries.find? key members <;> rfl

end Context

/-- The members of an object answer every path alike, as a map, as a value, by steps and in a
context without a model that has taken all of them; and whatever answers keys, paths compose. -/
theorem Lookup.path_laws :
    (∀ (members : Entries Value) (path : String), Entries.Sorted members →
      (ofEntries members).path path = (Value.object members).atPath path ∧
      (ofValue (.object members)).path path = (Value.object members).atPath path ∧
      ∀ taken : List (String × Value), taken.Perm members →
        (Context.takeAll {} taken).path path = (Value.object members).atPath path) ∧
    (∀ (look : Lookup (Except EvalError)) (front behind : String) (segments others : List String),
      KeyPath.segments front = .ok segments → KeyPath.segments behind = .ok others →
      look.path (front ++ "." ++ behind) = (do
        let found ← look.path front
        .ok (found.bind (Value.descend? others)))) ∧
    ∀ (c : Context) (front behind : String) (segments others : List String),
      KeyPath.segments front = .ok segments → KeyPath.segments behind = .ok others →
      c.path (front ++ "." ++ behind) = (do
        let found ← c.path front
        .ok (found.bind (Value.descend? others))) := by
  refine ⟨fun members path sorted => ⟨?_, ?_, ?_⟩, ?_, ?_⟩
  · refine path_eq_atPath ?_ path
    exact fun _ _ => rfl
  · refine path_eq_atPath ?_ path
    exact fun _ _ => rfl
  · intro taken htaken
    refine path_eq_atPath ?_ path
    exact fun _ hkey => Context.value_takeAll sorted htaken hkey
  · intro look front behind segments others hfront hbehind
    exact path_append hfront hbehind
  · intro c front behind segments others hfront hbehind
    exact path_append hfront hbehind

/-! ## An object that is taken, and a rule that leads to it -/

namespace Profile

/-- Members with null and with the empty name among them. -/
def entries : Entries Value :=
  [("", .bool true), ("a", .object [("b", .array [.null, .string "x"])]), ("n", .null)]

theorem sorted : Entries.Sorted entries := by
  refine List.pairwise_cons.2 ⟨?_, List.pairwise_pair.2 (by decide)⟩
  simp only [List.forall_mem_cons]
  exact ⟨by decide, by decide, by simp⟩

/-- A rule by which a key has the value of another one. -/
def context : Context where
  model := some ⟨[⟨some (.constant true), some (.reference "user" "a"), 100⟩]⟩
  stored := entries

end Profile

theorem Lookup.path_laws_profile :
    (Context.takeAll {} Profile.entries.reverse).path "a. b.1" = .ok (some (.string "x")) ∧
    (ofEntries Profile.entries).path "n.b" = (ofValue (.object Profile.entries)).path "n.b" ∧
    Profile.context.path ("user" ++ "." ++ "b.1") = .ok (some (.string "x")) := by
  obtain ⟨hobjects, -, hcontexts⟩ := path_laws
  obtain ⟨-, -, htaken⟩ := hobjects Profile.entries "a. b.1" Profile.sorted
  obtain ⟨hmap, hvalue, -⟩ := hobjects Profile.entries "n.b" Profile.sorted
  refine ⟨?_, hmap.trans hvalue.symm, ?_⟩
  · rw [htaken _ (List.reverse_perm _)]
    rfl
  · rw [hcontexts Profile.context "user" "b.1" ["user"] ["b", "1"] rfl rfl]
    rfl

end RankedRules
