/-
Entries in order, and writes to them.

Entries in order are determined by what is found under each name. So of two writes under one name
only the later one counts, and writes under different names can change places.

* `Entries.find?_of_mem`, `Entries.find?_eq_of_perm` — entries of distinct names, in any order;
* `Entries.Sorted.ext` — entries in order in which the same is found are the same;
* `Entries.put` — a write of a value, or with null a removal;
* `Entries.find?_put`, `Entries.Sorted.put` — what is found after a write, and its order;
* `Entries.Sorted.put_put`, `Entries.Sorted.put_comm` — two writes, under one name and under two;
* `Entries.Sorted.put_eq_self` — a write of what is there already.
-/
import RankedRules.Value.Basic

namespace RankedRules.Entries

section

variable {α : Type} {name : String} {value : α} {entries others : Entries α}

/-- What is found is an entry. -/
theorem mem_of_find? (h : find? name entries = some value) : (name, value) ∈ entries := by
  induction entries with
  | nil => exact nomatch h
  | cons entry rest ih =>
    obtain ⟨n, v⟩ := entry
    rw [find?] at h
    split at h
    · rename_i hname
      subst hname
      cases h
      exact List.mem_cons_self
    · exact List.mem_cons_of_mem _ (ih h)

/-- Where each name stands once, every entry is found. -/
theorem find?_of_mem (distinct : (entries.map Prod.fst).Nodup) (h : (name, value) ∈ entries) :
    find? name entries = some value := by
  induction entries with
  | nil => exact absurd h List.not_mem_nil
  | cons entry rest ih =>
    obtain ⟨n, v⟩ := entry
    obtain ⟨hnot, hrest⟩ := List.nodup_cons.1 distinct
    rcases List.mem_cons.1 h with heq | h
    · cases heq
      rw [find?, if_pos rfl]
    · have hne : n ≠ name := by
        rintro rfl
        exact hnot (List.mem_map.2 ⟨_, h, rfl⟩)
      rw [find?, if_neg hne, ih hrest h]

/-- Where each name stands once, the order of the entries does not matter. -/
theorem find?_eq_of_perm (distinct : (entries.map Prod.fst).Nodup) (h : others.Perm entries)
    (name : String) : find? name others = find? name entries := by
  have hdistinct : (others.map Prod.fst).Nodup := (h.map Prod.fst).nodup_iff.2 distinct
  refine Option.ext fun value => ⟨fun hfound => ?_, fun hfound => ?_⟩
  · exact find?_of_mem distinct (h.subset (mem_of_find? hfound))
  · exact find?_of_mem hdistinct (h.symm.subset (mem_of_find? hfound))

theorem Sorted.distinct (sorted : Sorted entries) : (entries.map Prod.fst).Nodup := by
  refine List.pairwise_map.2 (sorted.imp fun {a b} hlt heq => ?_)
  rw [heq] at hlt
  exact String.lt_irrefl _ hlt

theorem find?_eq_none_of_lt (h : ∀ entry ∈ entries, name < entry.1) :
    find? name entries = none := by
  induction entries with
  | nil => rfl
  | cons entry rest ih =>
    have hne : entry.1 ≠ name := by
      intro heq
      have hlt : name < entry.1 := h entry List.mem_cons_self
      rw [heq] at hlt
      exact String.lt_irrefl name hlt
    rw [find?, if_neg hne]
    exact ih fun entry hentry => h entry (List.mem_cons_of_mem _ hentry)

/-- Nothing is found in front of the first entry. -/
theorem Sorted.find?_eq_none {entry : String × α} (sorted : Sorted (entry :: entries))
    (h : name < entry.1) : find? name (entry :: entries) = none := by
  have habove := (List.pairwise_cons.1 sorted).1
  refine find?_eq_none_of_lt fun other hother => ?_
  rcases List.mem_cons.1 hother with rfl | hother
  · exact h
  · exact String.lt_trans h (habove other hother)

/-- Entries in order in which the same is found under each name are the same. -/
theorem Sorted.ext (sorted : Sorted entries) (sorted' : Sorted others)
    (h : ∀ name, find? name entries = find? name others) : entries = others := by
  induction entries generalizing others with
  | nil =>
    cases others with
    | nil => rfl
    | cons entry' rest' => exact absurd (h entry'.1) (by simp [find?])
  | cons entry rest ih =>
    cases others with
    | nil => exact absurd (h entry.1) (by simp [find?])
    | cons entry' rest' =>
      obtain ⟨name, value⟩ := entry
      obtain ⟨name', value'⟩ := entry'
      obtain ⟨habove, hrest⟩ := List.pairwise_cons.1 sorted
      obtain ⟨habove', hrest'⟩ := List.pairwise_cons.1 sorted'
      -- The first names are the same: a smaller one would be found on one side only.
      have hnames : name = name' := by
        refine Classical.byContradiction fun hne => ?_
        by_cases hlt : name < name'
        · have hfound := (h name).trans (sorted'.find?_eq_none hlt)
          simp [find?] at hfound
        · have hgt : name' < name := Std.lt_of_le_of_ne (String.not_lt.1 hlt) (Ne.symm hne)
          have hfound := (h name').symm.trans (sorted.find?_eq_none hgt)
          simp [find?] at hfound
      subst hnames
      have hvalues : value = value' := by simpa [find?] using h name
      subst hvalues
      have htails : ∀ other, find? other rest = find? other rest' := by
        intro other
        by_cases hother : name = other
        · subst hother
          rw [find?_eq_none_of_lt habove, find?_eq_none_of_lt habove']
        · simpa [find?, hother] using h other
      rw [ih hrest hrest' htails]

end

/-! ## Writes of values -/

variable {name other : String} {value new : Value} {entries : Entries Value}

/-- The entries with a value under a name; null removes what is there. -/
def put (name : String) (value : Value) (entries : Entries Value) : Entries Value :=
  if value.isNull then erase name entries else insert name value entries

theorem find?_put (name other : String) (value : Value) (entries : Entries Value) :
    find? other (put name value entries) =
      if other = name then value.present else find? other entries := by
  rw [put, Value.present]
  split
  · exact find?_erase name other entries
  · exact find?_insert name other value entries

theorem mem_put {entry : String × Value} (h : entry ∈ put name value entries) :
    entry = (name, value) ∨ entry ∈ entries := by
  rw [put] at h
  split at h
  · exact .inr ((erase_sublist name entries).subset h)
  · exact mem_insert h

theorem Sorted.put (sorted : Sorted entries) (name : String) (value : Value) :
    Sorted (put name value entries) := by
  rw [Entries.put]
  split
  · exact sorted.erase name
  · exact sorted.insert name value

/-- Of two writes under one name the later one counts. -/
theorem Sorted.put_put (sorted : Sorted entries) (name : String) (value new : Value) :
    Entries.put name new (Entries.put name value entries) = Entries.put name new entries := by
  refine Sorted.ext ((sorted.put name value).put name new) (sorted.put name new) fun other => ?_
  rw [find?_put, find?_put, find?_put]
  split
  · rfl
  · rfl

/-- Writes under different names can change places. -/
theorem Sorted.put_comm (sorted : Sorted entries) (h : name ≠ other) (value new : Value) :
    Entries.put other new (Entries.put name value entries) =
      Entries.put name value (Entries.put other new entries) := by
  refine Sorted.ext ((sorted.put name value).put other new) ((sorted.put other new).put name value)
    fun key => ?_
  rw [find?_put, find?_put, find?_put, find?_put]
  by_cases hname : key = name
  · subst hname
    rw [if_neg h, if_pos rfl, if_pos rfl]
  · rw [if_neg hname, if_neg hname]

/-- A write of what is there already changes nothing. -/
theorem Sorted.put_eq_self (sorted : Sorted entries) (h : find? name entries = value.present) :
    Entries.put name value entries = entries := by
  refine Sorted.ext (sorted.put name value) sorted fun other => ?_
  rw [find?_put]
  split
  · rename_i hother
    rw [hother, h]
  · rfl

end RankedRules.Entries
