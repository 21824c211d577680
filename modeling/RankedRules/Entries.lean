/-
Values under names, in the order of the names.

Objects and stored values are lists of entries that are sorted by name and hold each name once.
Names are compared character by character, by code point.

* `Entries` — the list;
* `Entries.find?`, `Entries.insert`, `Entries.erase` — look up, write and remove;
* `Entries.Sorted` — the names increase strictly;
* `find?_insert`, `find?_erase` — a write is seen under its own name and under no other;
* `Sorted.insert`, `Sorted.erase`, `sorted_ofList` — the order is kept, and made;
* `ofList_of_sorted`, `mem_ofList` — entries in order stay, and no entry is made up.
-/
namespace RankedRules

/-- Entries of a name and a value. -/
abbrev Entries (α : Type) := List (String × α)

namespace Entries

variable {α : Type}

/-- The value under a name. -/
def find? (name : String) : Entries α → Option α
  | [] => none
  | (n, v) :: rest => if n = name then some v else find? name rest

/-- The entries with `value` under `name`, in its place or instead of the value it had. -/
def insert (name : String) (value : α) : Entries α → Entries α
  | [] => [(name, value)]
  | (n, v) :: rest =>
    if n = name then (name, value) :: rest
    else if name < n then (name, value) :: (n, v) :: rest
    else (n, v) :: insert name value rest

/-- The entries with nothing under `name`. -/
def erase (name : String) : Entries α → Entries α
  | [] => []
  | (n, v) :: rest => if n = name then erase name rest else (n, v) :: erase name rest

/-- The entries in order, of any list of pairs; a later pair replaces an earlier one. -/
def ofList (pairs : List (String × α)) : Entries α :=
  pairs.foldl (fun entries pair => insert pair.1 pair.2 entries) []

/-- The names increase strictly. -/
def Sorted (entries : Entries α) : Prop :=
  entries.Pairwise fun a b => a.1 < b.1

@[simp] theorem find?_nil (name : String) : find? name ([] : Entries α) = none := rfl

theorem find?_insert_self (name : String) (value : α) (entries : Entries α) :
    find? name (insert name value entries) = some value := by
  induction entries with
  | nil => simp [insert, find?]
  | cons entry rest ih =>
    obtain ⟨n, v⟩ := entry
    rw [insert]
    split
    · simp [find?]
    · split
      · simp [find?]
      · rename_i h _
        rw [find?, if_neg h, ih]

theorem find?_insert_of_ne {name other : String} (h : other ≠ name) (value : α)
    (entries : Entries α) : find? other (insert name value entries) = find? other entries := by
  induction entries with
  | nil => simp [insert, find?, Ne.symm h]
  | cons entry rest ih =>
    obtain ⟨n, v⟩ := entry
    rw [insert]
    split
    · rename_i hn
      subst hn
      simp [find?, Ne.symm h]
    · split
      · simp [find?, Ne.symm h]
      · simp [find?, ih]

/-- A write is seen under its own name and under no other. -/
theorem find?_insert (name other : String) (value : α) (entries : Entries α) :
    find? other (insert name value entries) =
      if other = name then some value else find? other entries := by
  split
  · rename_i h
    rw [h, find?_insert_self]
  · rename_i h
    exact find?_insert_of_ne h value entries

/-- A removal is seen under its own name and under no other. -/
theorem find?_erase (name other : String) (entries : Entries α) :
    find? other (erase name entries) = if other = name then none else find? other entries := by
  induction entries with
  | nil => simp [erase]
  | cons entry rest ih =>
    obtain ⟨n, v⟩ := entry
    rw [erase]
    split
    · rename_i h
      rw [ih, find?, h]
      grind
    · rename_i h
      rw [find?, find?, ih]
      grind

/-! ## The order of the names -/

theorem mem_insert {name : String} {value : α} {entries : Entries α} {entry : String × α}
    (h : entry ∈ insert name value entries) : entry = (name, value) ∨ entry ∈ entries := by
  induction entries with
  | nil => exact .inl (List.mem_singleton.1 h)
  | cons first rest ih =>
    obtain ⟨n, v⟩ := first
    rw [insert] at h
    split at h
    · rcases List.mem_cons.1 h with rfl | h
      · exact .inl rfl
      · exact .inr (List.mem_cons_of_mem _ h)
    · split at h
      · exact List.mem_cons.1 h
      · rcases List.mem_cons.1 h with rfl | h
        · exact .inr List.mem_cons_self
        · exact (ih h).imp_right (List.mem_cons_of_mem _)

theorem erase_sublist (name : String) (entries : Entries α) :
    (erase name entries).Sublist entries := by
  induction entries with
  | nil => exact .refl _
  | cons first rest ih =>
    obtain ⟨n, v⟩ := first
    rw [erase]
    split
    · exact ih.cons _
    · exact ih.cons_cons _

/-- A write keeps the order. -/
theorem Sorted.insert {entries : Entries α} (sorted : Sorted entries) (name : String) (value : α) :
    Sorted (insert name value entries) := by
  induction entries with
  | nil => exact List.pairwise_singleton _ _
  | cons first rest ih =>
    obtain ⟨n, v⟩ := first
    obtain ⟨above, sortedRest⟩ := List.pairwise_cons.1 sorted
    rw [Entries.insert]
    split
    · rename_i h
      subst h
      exact List.pairwise_cons.2 ⟨above, sortedRest⟩
    · rename_i hne
      split
      · rename_i hlt
        refine List.pairwise_cons.2 ⟨?_, sorted⟩
        intro entry hentry
        rcases List.mem_cons.1 hentry with rfl | hentry
        · exact hlt
        · exact String.lt_trans hlt (above entry hentry)
      · rename_i hlt
        refine List.pairwise_cons.2 ⟨?_, ih sortedRest⟩
        intro entry hentry
        rcases mem_insert hentry with rfl | hentry
        · exact Std.lt_of_le_of_ne (String.not_lt.1 hlt) hne
        · exact above entry hentry

/-- A removal keeps the order. -/
theorem Sorted.erase {entries : Entries α} (sorted : Sorted entries) (name : String) :
    Sorted (erase name entries) :=
  List.Pairwise.sublist (erase_sublist name entries) sorted

/-- Any pairs become entries in order. -/
theorem sorted_ofList (pairs : List (String × α)) : Sorted (ofList pairs) := by
  suffices h : ∀ (entries : Entries α), Sorted entries →
      Sorted (pairs.foldl (fun entries pair => insert pair.1 pair.2 entries) entries) from
    h [] .nil
  induction pairs with
  | nil => exact fun _ sorted => sorted
  | cons pair rest ih => exact fun _ sorted => ih _ (sorted.insert pair.1 pair.2)

theorem insert_of_lt {name : String} {value : α} {entries : Entries α}
    (h : ∀ entry ∈ entries, entry.1 < name) :
    insert name value entries = entries ++ [(name, value)] := by
  induction entries with
  | nil => rfl
  | cons first rest ih =>
    obtain ⟨n, v⟩ := first
    have hlt : n < name := h (n, v) List.mem_cons_self
    have hne : n ≠ name := by
      rintro rfl
      exact String.lt_irrefl n hlt
    have hnot : ¬name < n := fun hgt => String.lt_irrefl n (String.lt_trans hlt hgt)
    rw [insert, if_neg hne, if_neg hnot,
      ih fun entry hentry => h entry (List.mem_cons_of_mem _ hentry)]
    rfl

/-- Entries in order are the entries of their pairs. -/
theorem ofList_of_sorted {entries : Entries α} (h : Sorted entries) :
    ofList entries = entries := by
  have hfold : ∀ front : Entries α, Sorted (front ++ entries) →
      entries.foldl (fun entries pair => insert pair.1 pair.2 entries) front =
        front ++ entries := by
    clear h
    induction entries with
    | nil => simp
    | cons first rest ih =>
      intro front hsorted
      have hbelow : ∀ entry ∈ front, entry.1 < first.1 := fun entry hentry =>
        (List.pairwise_append.1 hsorted).2.2 entry hentry first List.mem_cons_self
      have hnext : insert first.1 first.2 front = front ++ [first] := insert_of_lt hbelow
      rw [List.foldl_cons, hnext, ih (front ++ [first]) (by simpa using hsorted)]
      simp
  exact hfold [] h

theorem mem_ofList {pairs : List (String × α)} {entry : String × α}
    (h : entry ∈ ofList pairs) : entry ∈ pairs := by
  have hfold : ∀ front : Entries α,
      entry ∈ pairs.foldl (fun entries pair => insert pair.1 pair.2 entries) front →
      entry ∈ front ∨ entry ∈ pairs := by
    clear h
    induction pairs with
    | nil => exact fun front h => .inl h
    | cons pair pairs ih =>
      intro front h
      rcases ih _ h with hfront | hpairs
      · rcases mem_insert hfront with rfl | hfront
        · exact .inr List.mem_cons_self
        · exact .inl hfront
      · exact .inr (List.mem_cons_of_mem pair hpairs)
  exact (hfold [] h).resolve_left (by simp)

end Entries

end RankedRules
