/-
Removing what is not there.

Null that is written at a path removes what is stored there, but like any other value it is written
into an object, and whatever is not an object on the way becomes an empty one first. So a removal of
nothing can leave something: it changes nothing only if the objects on the way are there and the
last of them has no member, not even null, under the last segment. Whether a change can be seen
depends on the first segment alone. It cannot if rules already give the object that the write
leaves there, and otherwise that object is seen.

* `Value.HasPlace`, `Context.HasPlace` — the objects on the way are there, and the member is not;
* `Value.assign_null_of_hasPlace`, `Value.hasPlace_assign_null` — then null changes nothing, and
  after null it is always so;
* `Context.takePath_null_eq_self_iff` — when null changes nothing;
* `Context.takePath_null_of_nothing` — and when the change cannot be seen;
* `Context.not_all_removals_unseen` — a change that is seen.
-/
import RankedRules.Proofs.Context.Writes

namespace RankedRules

/-! ## Values -/

namespace Value

variable {name : String} {path rest : List String} {target : Value}

/-- There is an object wherever the path goes on, and the last one has no member under its last
segment. -/
structure HasPlace (path : List String) (target : Value) : Prop where
  objects : ∀ front behind, path = front ++ behind → behind ≠ [] →
    ∃ members, target.descend? front = some (.object members)
  missing : ∀ front last members, path = front ++ [last] →
    target.descend? front = some (.object members) → Entries.find? last members = none

theorem HasPlace.eq_object (h : HasPlace (name :: rest) target) :
    target = .object target.members := by
  obtain ⟨members, hmembers⟩ := h.objects [] (name :: rest) rfl (List.cons_ne_nil name rest)
  obtain ⟨rfl, -⟩ := present_eq_some_iff.1 hmembers
  rfl

theorem HasPlace.descend?_cons (h : HasPlace (name :: rest) target) (front : List String) :
    target.descend? (name :: front) =
      (Entries.find? name target.members).bind (descend? front) := by
  rw [h.eq_object]
  exact descend?_object_cons name front target.members

/-- A path that goes on leads into a member that is an object. -/
theorem HasPlace.find?_child (h : HasPlace (name :: rest) target) (hrest : rest ≠ []) :
    Entries.find? name target.members = (target.child name).present := by
  obtain ⟨members, hmembers⟩ := h.objects [name] rest rfl hrest
  rw [h.descend?_cons] at hmembers
  obtain ⟨v, hfound, hv⟩ := Option.bind_eq_some_iff.1 hmembers
  obtain ⟨rfl, hnull⟩ := present_eq_some_iff.1 hv
  rw [Value.child, hfound, Option.getD_some, present_of_not_null hnull]

theorem HasPlace.child (h : HasPlace (name :: rest) target) (hrest : rest ≠ []) :
    HasPlace rest (target.child name) := by
  have hdescend : ∀ front,
      target.descend? (name :: front) = (target.child name).descend? front := by
    intro front
    rw [h.descend?_cons, h.find?_child hrest, bind_present_descend?]
  refine ⟨fun front behind hsplit hbehind => ?_, fun front last members hsplit hmembers => ?_⟩
  · rw [← hdescend]
    exact h.objects (name :: front) behind (by rw [hsplit, List.cons_append]) hbehind
  · rw [← hdescend] at hmembers
    exact h.missing (name :: front) last members (by rw [hsplit, List.cons_append]) hmembers

/-- Null changes nothing where there is an object without the member. -/
theorem assign_null_of_hasPlace (h : target.IsOrdered) (hpath : path ≠ [])
    (hplace : target.HasPlace path) : target.assign path .null = target := by
  induction path generalizing target with
  | nil => exact absurd rfl hpath
  | cons name rest ih =>
    have hput : Entries.find? name target.members =
        ((target.child name).assign rest .null).present := by
      cases rest with
      | nil => exact hplace.missing [] name target.members rfl (by rw [hplace.eq_object]; rfl)
      | cons next rest =>
        have hrest := List.cons_ne_nil next rest
        rw [ih (h.child name) hrest (hplace.child hrest), hplace.find?_child hrest]
    rw [assign_cons, h.sorted.put_eq_self hput]
    exact hplace.eq_object.symm

/-- After null has been written, there is an object without the member. -/
theorem hasPlace_assign_null (hpath : path ≠ []) (target : Value) :
    (target.assign path .null).HasPlace path := by
  induction path generalizing target with
  | nil => exact absurd rfl hpath
  | cons name rest ih =>
    have hdescend : ∀ front, (target.assign (name :: rest) .null).descend? (name :: front) =
        ((target.child name).assign rest .null).descend? front := by
      intro front
      rw [assign_cons, descend?_object_cons, Entries.find?_put, if_pos rfl, bind_present_descend?]
    constructor
    · intro front behind hsplit hbehind
      cases front with
      | nil => exact ⟨_, by rw [assign_cons]; rfl⟩
      | cons key front =>
        obtain ⟨rfl, rfl⟩ := List.cons.inj hsplit
        have hrest : front ++ behind ≠ [] := fun hnil => hbehind (List.append_eq_nil_iff.1 hnil).2
        rw [hdescend]
        exact (ih hrest (target.child name)).objects front behind rfl hbehind
    · intro front last members hsplit hmembers
      cases front with
      | nil =>
        obtain ⟨rfl, rfl⟩ := List.cons.inj hsplit
        rw [assign_cons] at hmembers
        cases hmembers
        rw [Entries.find?_put, if_pos rfl]
        rfl
      | cons key front =>
        obtain ⟨rfl, rfl⟩ := List.cons.inj hsplit
        have hrest : front ++ [last] ≠ [] := by simp
        rw [hdescend] at hmembers
        exact (ih hrest (target.child name)).missing front last members rfl hmembers

/-- What a write leaves at a path that goes on is an object, so only its end can become null. -/
theorem eq_nil_of_isNull_assign {new : Value} (h : (target.assign path new).isNull = true) :
    path = [] := by
  cases path with
  | nil => rfl
  | cons name rest =>
    rw [assign_cons] at h
    cases h

end Value

/-! ## Contexts -/

namespace Context

variable {c d : Context} {path first : String} {segments rest : List String}

/-- Wherever a path goes on behind its first segment, an object is stored, and the last one has no
member under the last segment. -/
structure HasPlace (c : Context) (segments : List String) : Prop where
  objects : ∀ front behind, segments = front ++ behind → front ≠ [] → behind ≠ [] →
    ∃ members, c.storedAt front = some (.object members)
  missing : ∀ front last members, segments = front ++ [last] →
    c.storedAt front = some (.object members) → Entries.find? last members = none

theorem HasPlace.of_root (h : c.root.HasPlace segments) : c.HasPlace segments := by
  constructor
  · intro front behind hsplit hfront hbehind
    obtain ⟨key, front, rfl⟩ := List.exists_cons_of_ne_nil hfront
    rw [storedAt_cons]
    exact h.objects (key :: front) behind hsplit hbehind
  · intro front last members hsplit hmembers
    cases front with
    | nil => cases hmembers
    | cons key front =>
      rw [storedAt_cons] at hmembers
      exact h.missing (key :: front) last members hsplit hmembers

theorem storedValue_eq_none (hnull : c.NullFree) (hnothing : c.storedAt [first] = none) :
    c.storedValue first = none := by
  cases hfound : c.storedValue first with
  | none => rfl
  | some v =>
    rw [storedAt, hfound, Option.bind_some] at hnothing
    cases v <;> first | exact absurd hfound (hnull first) | cases hnothing

/-- Where nothing is stored under a path of one segment, there is no entry. -/
theorem HasPlace.root (hnull : c.NullFree) (hnothing : c.storedAt segments = none)
    (h : c.HasPlace segments) : c.root.HasPlace segments := by
  constructor
  · intro front behind hsplit hbehind
    cases front with
    | nil => exact ⟨c.stored, rfl⟩
    | cons key front =>
      rw [← storedAt_cons]
      exact h.objects (key :: front) behind hsplit (List.cons_ne_nil key front) hbehind
  · intro front last members hsplit hmembers
    cases front with
    | nil =>
      cases hmembers
      rw [hsplit] at hnothing
      exact storedValue_eq_none hnull hnothing
    | cons key front =>
      rw [← storedAt_cons] at hmembers
      exact h.missing (key :: front) last members hsplit hmembers

/-- Null that is taken where nothing is stored changes nothing if and only if the objects on the way
are stored and the last one has no such member. -/
theorem takePath_null_eq_self_iff (hnull : c.NullFree) (hc : c.IsOrdered)
    (hpath : KeyPath.segments? path = some segments) (hnothing : c.storedAt segments = none)
    (hd : c.takePath .null path = .ok d) : d = c ↔ c.HasPlace segments := by
  obtain ⟨first, rest, rfl⟩ := KeyPath.exists_first hpath
  have hne := List.cons_ne_nil first rest
  have hroot := root_of_takePath hpath hd
  constructor
  · rintro rfl
    refine .of_root ?_
    rw [hroot]
    exact Value.hasPlace_assign_null hne d.root
  · intro hplace
    refine ext_of_root (model_of_takePath hpath hd) ?_
    rw [hroot, Value.assign_null_of_hasPlace hc hne (hplace.root hnull hnothing)]

/-- What is found at the only segment of a path is the value of the key. -/
theorem value_of_path {value : Value} (hpath : KeyPath.segments? path = some [first])
    (h : c.path path = .ok (some value)) : c.value first = .ok (some value) := by
  cases hvalue : c.value first with
  | error error =>
    rw [Context.path, Lookup.path, KeyPath.segments, hpath] at h
    change (c.value first >>= fun found => pure (found.bind (Value.descend? []))) = _ at h
    rw [hvalue] at h
    cases h
  | ok found =>
    rw [path_of_first hpath hvalue] at h
    obtain ⟨v, rfl, hv⟩ := Option.bind_eq_some_iff.1 (Except.ok.inj h)
    rw [(Value.present_eq_some_iff.1 hv).1]

/-- Null that is taken where nothing is stored can be seen, unless it changes nothing or the first
segment already had the value that it has then. -/
theorem path_eq_iff_of_takePath_null (hnull : c.NullFree) (hc : c.IsOrdered)
    (hpath : KeyPath.segments? path = some (first :: rest))
    (hnothing : c.storedAt (first :: rest) = none) (hd : c.takePath .null path = .ok d) :
    (∀ q, d.path q = c.path q) ↔
      d = c ∨ ∃ v, d.storedValue first = some v ∧ c.value first = .ok (some v) := by
  have hfirst : first ≠ "" := KeyPath.ne_empty_of_mem hpath List.mem_cons_self
  have htake := takePath_eq_take hpath c .null
  rw [hd] at htake
  have hd' : d = c.take ((c.root.child first).assign rest .null) first := Except.ok.inj htake
  generalize hleft : (c.root.child first).assign rest .null = left at hd'
  have hstored : d.storedValue first = left.present := by
    rw [hd', storedValue_take, if_pos ⟨rfl, hfirst⟩]
  constructor
  · intro hsame
    cases hleftNull : left.isNull with
    | true =>
      -- The value has gone with its only segment, where no entry was.
      have hrest : rest = [] := Value.eq_nil_of_isNull_assign (hleft ▸ hleftNull)
      subst hrest
      have hunstored := storedValue_eq_none hnull hnothing
      have hsorted : Entries.Sorted c.stored := Value.IsOrdered.sorted hc
      have hleftPresent : left.present = none := by rw [Value.present, if_pos hleftNull]
      refine .inl ?_
      rw [hd', take_of_ne_empty hfirst, hsorted.put_eq_self]
      rw [hleftPresent]
      exact hunstored
    | false =>
      rw [Value.present_of_not_null hleftNull] at hstored
      have hsegment := KeyPath.segments?_segment hpath List.mem_cons_self
      have hseen : d.path first = .ok (some left) := by
        refine path_of_storedAt hsegment ?_
        rw [storedAt, hstored, Option.bind_some]
        exact Value.present_of_not_null hleftNull
      rw [hsame first] at hseen
      exact .inr ⟨left, hstored, value_of_path hsegment hseen⟩
  · rintro (rfl | ⟨v, hv, hvalue⟩)
    · exact fun _ => rfl
    · rw [hstored] at hv
      obtain ⟨rfl, -⟩ := Value.present_eq_some_iff.1 hv
      intro q
      rw [hd', Context.path, value_take_value hvalue hnull]
      rfl

/-- Null that is taken at a path where nothing is stored leaves nothing there and does not touch
other keys. It changes nothing exactly if the objects on the way are stored and the last one has no
such member; and every path is answered as before exactly if it changes nothing or the first segment
already had the value that is stored for it then. -/
theorem takePath_null_of_nothing (hnull : c.NullFree) (hc : c.IsOrdered)
    (hpath : KeyPath.segments path = .ok (first :: rest))
    (hnothing : c.storedAt (first :: rest) = none) :
    ∃ d, c.takePath .null path = .ok d ∧ d.storedAt (first :: rest) = none ∧
      (∀ key, key ≠ first → d.storedValue key = c.storedValue key) ∧
      (d = c ↔ c.HasPlace (first :: rest)) ∧
      ((∀ q, d.path q = c.path q) ↔ c.HasPlace (first :: rest) ∨
        ∃ v, d.storedValue first = some v ∧ c.value first = .ok (some v)) := by
  have hsegments := segments?_of_segments hpath
  have htaken := takePath_eq hsegments c .null
  have hself := takePath_null_eq_self_iff hnull hc hsegments hnothing htaken
  refine ⟨_, htaken, ?_, ?_, hself, ?_⟩
  · rw [storedAt_cons, root_of_takePath hsegments htaken]
    exact Value.descend?_assign_null (first :: rest) c.root
  · intro key hkey
    exact storedValue_of_takePath hsegments htaken hkey
  · rw [path_eq_iff_of_takePath_null hnull hc hsegments hnothing htaken, hself]

/-- A rule that gives an object with an empty one in it. -/
def foreseen : Context where
  model := some ⟨[⟨some (.constant true), some (.assign "a" (.object [("b", .object [])])), 100⟩]⟩

/-- The objects that the removal makes are those that the rule gives. -/
theorem takePath_null_of_nothing_foreseen : ∃ d, foreseen.takePath .null "a.b.c" = .ok d ∧
    d ≠ foreseen ∧ ∀ q, d.path q = foreseen.path q := by
  have hnull : foreseen.NullFree := by
    rintro key ⟨⟩
  have hpath : KeyPath.segments "a.b.c" = .ok ["a", "b", "c"] := rfl
  have hplace : ¬foreseen.HasPlace ["a", "b", "c"] := by
    intro hplace
    obtain ⟨members, hmembers⟩ := hplace.objects ["a"] ["b", "c"] rfl (by simp) (by simp)
    cases hmembers
  obtain ⟨d, htaken, -, -, hself, hseen⟩ :=
    takePath_null_of_nothing hnull (isOrdered_of_no_stored rfl) hpath rfl
  have hd : foreseen.takePath .null "a.b.c" =
      .ok { foreseen with stored := [("a", .object [("b", .object [])])] } := rfl
  rw [hd] at htaken
  cases htaken
  refine ⟨_, hd, fun heq => hplace (hself.1 heq), hseen.2 (.inr ⟨_, rfl, ?_⟩)⟩
  rfl

/-- Not every removal of nothing is unseen: the way to the end of the path is made. -/
theorem not_all_removals_unseen : ¬∀ (c : Context) (path : String) (segments : List String),
    KeyPath.segments path = .ok segments → c.storedAt segments = none →
      ∀ d, c.takePath .null path = .ok d → ∀ q, d.path q = c.path q := by
  intro hall
  have htaken : Context.takePath {} .null "a.b" = .ok { stored := [("a", .object [])] } := rfl
  have hbefore : Context.path {} "a" = .ok none := rfl
  have hafter : Context.path { stored := [("a", .object [])] } "a" = .ok (some (.object [])) := rfl
  have hsame := hall {} "a.b" ["a", "b"] rfl rfl _ htaken "a"
  rw [hbefore, hafter] at hsame
  cases hsame

end Context

end RankedRules
