/-
Writing at a path.

A write at a path rebuilds the objects on the way: under the first segment stands what comes of a
write at the others, and all other members stay. Reading goes the same way, so the laws of writing
come by induction on the path. What is read at a path that goes another way stays as long as no
value on the way is replaced by an object: an array answers a count, which an object does not.

Objects are kept in the order of their names. In such values only the last write at a path counts,
and writes at paths that go different ways can change places.

* `Value.IsOrdered` — all objects in a value are in order;
* `Value.child`, `Value.assign_cons` — one step of a write;
* `Value.descend?_assign`, `Value.descend?_assign_of_diverge` — what is read after a write, at the
  path and beside it;
* `Value.IsOrdered.assign` — a write keeps the order;
* `Value.assign_assign`, `Value.assign_comm` — two writes, at one path and at two.
-/
import RankedRules.Proofs.Entries
import RankedRules.Value.KeyPath

namespace RankedRules.Value

/-! ## Values in order -/

/-- Every object in the value has its members in order, each name once. -/
inductive IsOrdered : Value → Prop
  | null : IsOrdered .null
  | bool (holds : Bool) : IsOrdered (.bool holds)
  | number (n : Number) : IsOrdered (.number n)
  | string (text : String) : IsOrdered (.string text)
  | array {items : List Value} (hitems : ∀ item ∈ items, IsOrdered item) : IsOrdered (.array items)
  | object {members : List (String × Value)} (sorted : Entries.Sorted members)
      (hmembers : ∀ member ∈ members, IsOrdered member.2) : IsOrdered (.object members)

theorem IsOrdered.empty : IsOrdered (.object []) :=
  .object .nil fun _ hmember => absurd hmember List.not_mem_nil

theorem IsOrdered.sorted {v : Value} (h : v.IsOrdered) : Entries.Sorted v.members := by
  cases h with
  | object sorted hmembers => exact sorted
  | _ => exact .nil

theorem IsOrdered.of_mem {v : Value} (h : v.IsOrdered) :
    ∀ member ∈ v.members, member.2.IsOrdered := by
  cases h with
  | object sorted hmembers => exact hmembers
  | _ => exact fun _ hmember => absurd hmember List.not_mem_nil

/-! ## One step of a write -/

variable {name : String} {path other : List String} {target v new : Value}

/-- The member under a name into which a write goes on, an empty object if there is none. -/
def child (name : String) (target : Value) : Value :=
  (Entries.find? name target.members).getD (.object [])

theorem IsOrdered.child (h : target.IsOrdered) (name : String) : (target.child name).IsOrdered := by
  rw [Value.child]
  cases hfound : Entries.find? name target.members with
  | none => exact .empty
  | some v => exact h.of_mem _ (Entries.mem_of_find? hfound)

theorem present_of_not_null (h : v.isNull = false) : v.present = some v :=
  present_eq_some_iff.2 ⟨rfl, h⟩

/-- A write at a path is one under its first segment, of what the others make of the member
there. -/
theorem assign_cons (name : String) (rest : List String) (target new : Value) :
    target.assign (name :: rest) new =
      .object (Entries.put name ((target.child name).assign rest new) target.members) := by
  cases rest with
  | nil => rfl
  | cons next rest =>
    have hobject : ((target.child name).assign (next :: rest) new).isNull = false := by
      cases rest <;> rfl
    rw [Entries.put, if_neg (Bool.eq_false_iff.1 hobject)]
    rfl

@[simp] theorem members_object (members : List (String × Value)) :
    (Value.object members).members = members := rfl

/-- A write sees of its target only the members. -/
theorem assign_congr (h : target.members = v.members) (hpath : path ≠ []) (new : Value) :
    target.assign path new = v.assign path new := by
  cases path with
  | nil => exact absurd rfl hpath
  | cons name rest => rw [assign_cons, assign_cons, child, child, h]

/-- A further write goes on where there is a member, and makes an object where there is none. -/
theorem child_put (name : String) (v : Value) (members : List (String × Value)) (path : List String)
    (new : Value) :
    ((Value.object (Entries.put name v members)).child name).assign path new =
      v.assign path new := by
  rw [child, members_object, Entries.find?_put, if_pos rfl]
  cases hv : v.isNull with
  | false => rw [present_of_not_null hv, Option.getD_some]
  | true =>
    rw [present, if_pos hv, Option.getD_none]
    cases path with
    | nil => rfl
    | cons next rest =>
      refine assign_congr ?_ (List.cons_ne_nil next rest) new
      cases v <;> first | rfl | cases hv

theorem child_put_of_ne {key : String} (h : key ≠ name) (v : Value) (target : Value) :
    (Value.object (Entries.put name v target.members)).child key = target.child key := by
  rw [child, child, members_object, Entries.find?_put, if_neg h]

/-! ## Reading after a write -/

/-- Null counts as nothing on the way as well. -/
theorem bind_present_descend? (v : Value) (path : List String) :
    v.present.bind (descend? path) = v.descend? path := by
  cases v with
  | null => cases path <;> rfl
  | _ => rfl

theorem descend?_object_cons (name : String) (rest : List String)
    (members : List (String × Value)) :
    (Value.object members).descend? (name :: rest) =
      (Entries.find? name members).bind (descend? rest) := by
  show ((Entries.find? name members).bind present).bind (descend? rest) = _
  rw [Option.bind_assoc]
  exact congrArg _ (funext fun v => bind_present_descend? v rest)

/-- What is written at a path is found there, whatever was there before. -/
theorem descend?_assign (h : v.isNull = false) (path : List String) (target : Value) :
    (target.assign path v).descend? path = some v := by
  induction path generalizing target with
  | nil => exact present_of_not_null h
  | cons name rest ih =>
    rw [assign_cons, descend?_object_cons, Entries.find?_put, if_pos rfl, bind_present_descend?]
    exact ih (target.child name)

/-- Null that is written at a path is not found there, nor is anything else. -/
theorem descend?_assign_null (path : List String) (target : Value) :
    (target.assign path .null).descend? path = none := by
  induction path generalizing target with
  | nil => rfl
  | cons name rest ih =>
    rw [assign_cons, descend?_object_cons, Entries.find?_put, if_pos rfl, bind_present_descend?]
    exact ih (target.child name)

/-- Neither path goes on where the other one ends. -/
def Diverge (path other : List String) : Prop := ¬path <+: other ∧ ¬other <+: path

theorem not_diverge_nil_left : ¬Diverge [] other := fun h => h.1 List.nil_prefix

theorem not_diverge_nil_right : ¬Diverge path [] := fun h => h.2 List.nil_prefix

theorem diverge_cons_iff {rest others : List String} :
    Diverge (name :: rest) (name :: others) ↔ Diverge rest others := by
  simp [Diverge, List.cons_prefix_cons]

/-- Everything on the way to the end of a path is an object, as far as there is something. -/
def ObjectsOn (path : List String) (target : Value) : Prop :=
  ∀ front behind, path = front ++ behind → behind ≠ [] →
    target.descend? front = none ∨ ∃ members, target.descend? front = some (.object members)

theorem ObjectsOn.object_or_null {rest : List String} (h : ObjectsOn (name :: rest) target) :
    target = .object target.members ∨ target = .null := by
  rcases h [] (name :: rest) rfl (List.cons_ne_nil name rest) with hnone | ⟨members, hsome⟩
  · refine .inr ?_
    cases target <;> first | rfl | cases hnone
  · obtain ⟨rfl, -⟩ := present_eq_some_iff.1 hsome
    exact .inl rfl

theorem ObjectsOn.descend?_cons {rest : List String} (h : ObjectsOn (name :: rest) target)
    (key : String) (others : List String) : target.descend? (key :: others) =
      (Entries.find? key target.members).bind (descend? others) := by
  rcases h.object_or_null with hobject | rfl
  · rw [hobject]
    exact descend?_object_cons key others target.members
  · rfl

theorem descend?_child (h : path ≠ []) :
    (target.child name).descend? path =
      (Entries.find? name target.members).bind (descend? path) := by
  rw [child]
  cases Entries.find? name target.members with
  | some v => rfl
  | none =>
    cases path with
    | nil => exact absurd rfl h
    | cons key rest => exact descend?_object_cons key rest []

theorem ObjectsOn.child {rest : List String} (h : ObjectsOn (name :: rest) target) :
    ObjectsOn rest (target.child name) := by
  intro front behind hrest hbehind
  have hfront := h (name :: front) behind (by rw [hrest, List.cons_append]) hbehind
  rw [h.descend?_cons] at hfront
  -- Without a member, the path goes on in an empty object.
  cases hfound : Entries.find? name target.members with
  | some v =>
    rw [Value.child, hfound]
    simpa [hfound] using hfront
  | none =>
    cases front with
    | nil => exact .inr ⟨[], by rw [Value.child, hfound]; rfl⟩
    | cons key front =>
      rw [descend?_child (List.cons_ne_nil key front), hfound]
      exact .inl rfl

/-- A write changes nothing at a path that goes another way, as long as it replaces nothing by an
object. -/
theorem descend?_assign_of_diverge (h : Diverge path other) (hobjects : ObjectsOn path target)
    (new : Value) : (target.assign path new).descend? other = target.descend? other := by
  induction path generalizing other target with
  | nil => exact absurd h not_diverge_nil_left
  | cons name rest ih =>
    cases other with
    | nil => exact absurd h not_diverge_nil_right
    | cons key others =>
      rw [assign_cons, descend?_object_cons, Entries.find?_put, hobjects.descend?_cons]
      by_cases hkey : key = name
      · subst hkey
        have hothers : Diverge rest others := diverge_cons_iff.1 h
        have hne : others ≠ [] := by
          rintro rfl
          exact not_diverge_nil_right hothers
        rw [if_pos rfl, bind_present_descend?, ih hothers hobjects.child, descend?_child hne]
      · rw [if_neg hkey]

/-! ## Several writes -/

/-- A write keeps the order. -/
theorem IsOrdered.assign (h : target.IsOrdered) (hnew : new.IsOrdered) (path : List String) :
    (target.assign path new).IsOrdered := by
  induction path generalizing target with
  | nil => exact hnew
  | cons name rest ih =>
    rw [assign_cons]
    refine .object (h.sorted.put name _) fun member hmember => ?_
    rcases Entries.mem_put hmember with rfl | hmember
    · exact ih (h.child name)
    · exact h.of_mem member hmember

/-- Of two writes at one path only the later one counts. -/
theorem assign_assign (h : target.IsOrdered) (path : List String) (v new : Value) :
    (target.assign path v).assign path new = target.assign path new := by
  induction path generalizing target with
  | nil => rfl
  | cons name rest ih =>
    rw [assign_cons name rest target v, assign_cons, child_put, members_object, h.sorted.put_put,
      ih (h.child name), assign_cons name rest target new]

/-- Writes at paths that go different ways can change places. -/
theorem assign_comm (h : target.IsOrdered) (hpaths : Diverge path other) (v new : Value) :
    (target.assign path v).assign other new = (target.assign other new).assign path v := by
  induction path generalizing other target with
  | nil => exact absurd hpaths not_diverge_nil_left
  | cons name rest ih =>
    cases other with
    | nil => exact absurd hpaths not_diverge_nil_right
    | cons key others =>
      rw [assign_cons name rest target v, assign_cons key others target new, assign_cons,
        assign_cons, members_object, members_object]
      -- Under one name the writes meet again in the member there, under two they do not.
      by_cases hkey : key = name
      · subst hkey
        rw [child_put, child_put, h.sorted.put_put, h.sorted.put_put,
          ih (h.child key) (diverge_cons_iff.1 hpaths)]
      · rw [child_put_of_ne hkey, child_put_of_ne (Ne.symm hkey), h.sorted.put_comm (Ne.symm hkey)]

end RankedRules.Value
