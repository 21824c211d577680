/-
Tables of documents are in order.

A table is built from the empty one by inserting entries in the order of their names, so it is in
order whatever the order of the document is. The values of the entries are single values, or lists
and tables built from such values, so everything in a document is in order. Reading dates keeps
the names, and so does taking the rule values.

* `Toml.IsOrdered`, `Toml.AreOrdered` — values in order, and tables under construction;
* `Toml.Inline.IsSimple`, `Toml.inline?_isSimple`, `Toml.statements?_isSimple` — values as they are
  written are built from single values;
* `Toml.captureInlines?_areOrdered`, `Toml.atHeader?_areOrdered` — entries and headers keep tables
  in order;
* `Toml.parse?_isOrdered` — so the table of a document is in order;
* `Config.isOrdered_of_load` — and so are the values of a configuration.
-/
import RankedRules.Config
import RankedRules.Proofs.Value.Assign

namespace RankedRules

namespace Toml

/-! ## Values in order -/

/-- Every table in the value has its members in order: the rule value is in order. -/
def IsOrdered (item : Toml) : Prop := item.value.IsOrdered

theorem values_eq_map (items : List Toml) : values items = items.map value := by
  induction items with
  | nil => rfl
  | cons item rest ih => rw [values, ih, List.map_cons]

theorem memberValues_eq_map (members : List (String × Toml)) :
    memberValues members = members.map fun member => (member.1, member.2.value) := by
  induction members with
  | nil => rfl
  | cons member rest ih => rw [memberValues, ih, List.map_cons]

theorem isOrdered_array {items : List Toml} :
    (array items).IsOrdered ↔ ∀ item ∈ items, item.IsOrdered := by
  rw [IsOrdered, value, values_eq_map]
  constructor
  · rintro (- | - | - | - | hitems | -) item hitem
    exact hitems _ (List.mem_map_of_mem hitem)
  · intro h
    refine .array fun v hv => ?_
    obtain ⟨item, hitem, rfl⟩ := List.mem_map.1 hv
    exact h item hitem

theorem isOrdered_table {members : List (String × Toml)} :
    (table members).IsOrdered ↔
      Entries.Sorted members ∧ ∀ member ∈ members, member.2.IsOrdered := by
  rw [IsOrdered, value, memberValues_eq_map]
  constructor
  · rintro (- | - | - | - | - | ⟨sorted, hmembers⟩)
    rw [Entries.Sorted, List.pairwise_map] at sorted
    exact ⟨sorted, fun member hmember => hmembers _ (List.mem_map_of_mem hmember)⟩
  · rintro ⟨sorted, hmembers⟩
    refine .object (List.pairwise_map.2 sorted) fun entry hentry => ?_
    obtain ⟨member, hmember, rfl⟩ := List.mem_map.1 hentry
    exact hmembers member hmember

/-! ## Tables under construction -/

/-- The finished table is in order. -/
def AreOrdered (members : Members) : Prop := (table (finishMembers members)).IsOrdered

theorem finishMembers_eq_map (members : Members) :
    finishMembers members = members.map fun member => (member.1, member.2.finish) := by
  induction members with
  | nil => rfl
  | cons member rest ih => rw [finishMembers, ih, List.map_cons]

theorem finishTables_eq_map (elements : List Members) :
    finishTables elements = elements.map fun members => table (finishMembers members) := by
  induction elements with
  | nil => rfl
  | cons members rest ih => rw [finishTables, ih, List.map_cons]

theorem areOrdered_iff {members : Members} : AreOrdered members ↔
    Entries.Sorted members ∧ ∀ member ∈ members, member.2.finish.IsOrdered := by
  rw [AreOrdered, isOrdered_table, finishMembers_eq_map, Entries.Sorted, List.pairwise_map]
  refine and_congr_right fun _ => ⟨fun h member hmember => ?_, fun h entry hentry => ?_⟩
  · exact h _ (List.mem_map_of_mem hmember)
  · obtain ⟨member, hmember, rfl⟩ := List.mem_map.1 hentry
    exact h member hmember

theorem areOrdered_nil : AreOrdered [] := areOrdered_iff.2 ⟨.nil, by simp⟩

theorem isOrdered_tables {elements : List Members} :
    (Item.tables elements).finish.IsOrdered ↔ ∀ members ∈ elements, AreOrdered members := by
  rw [Item.finish, isOrdered_array, finishTables_eq_map]
  constructor
  · intro h members hmembers
    exact h _ (List.mem_reverse.2 (List.mem_map_of_mem hmembers))
  · intro h item hitem
    obtain ⟨members, hmembers, rfl⟩ := List.mem_map.1 (List.mem_reverse.1 hitem)
    exact h members hmembers

variable {members built : Members} {name : String} {item : Item} {path : List String}

/-- An entry that is inserted keeps a table in order. -/
theorem AreOrdered.insert (h : AreOrdered members) (name : String) (hitem : item.finish.IsOrdered) :
    AreOrdered (Entries.insert name item members) := by
  obtain ⟨sorted, hmembers⟩ := areOrdered_iff.1 h
  refine areOrdered_iff.2 ⟨sorted.insert name item, fun member hmember => ?_⟩
  rcases Entries.mem_insert hmember with rfl | hmember
  · exact hitem
  · exact hmembers member hmember

theorem AreOrdered.of_find? (h : AreOrdered members)
    (hfound : Entries.find? name members = some item) : item.finish.IsOrdered :=
  (areOrdered_iff.1 h).2 _ (Entries.mem_of_find? hfound)

theorem insertNew?_areOrdered (h : AreOrdered members) (hitem : item.finish.IsOrdered)
    (hbuilt : insertNew? name item members = some built) : AreOrdered built := by
  rw [insertNew?] at hbuilt
  split at hbuilt
  · cases hbuilt
  · cases hbuilt
    exact h.insert name hitem

/-- The tables of an array with another last one. -/
theorem isOrdered_tables_cons {last last' : Members} {earlier : List Members}
    (h : (Item.tables (last :: earlier)).finish.IsOrdered) (hlast : AreOrdered last') :
    (Item.tables (last' :: earlier)).finish.IsOrdered := by
  rw [isOrdered_tables] at h ⊢
  intro members hmembers
  rcases List.mem_cons.1 hmembers with rfl | hmembers
  · exact hlast
  · exact h members (List.mem_cons_of_mem last hmembers)

/-- A value that is captured below keeps a table in order. -/
theorem captureBelow?_areOrdered {v : Toml} (hv : v.IsOrdered) {dotted : Bool}
    (h : AreOrdered members) (hbuilt : captureBelow? v path dotted members = some built) :
    AreOrdered built := by
  induction path generalizing dotted members built with
  | nil => cases hbuilt
  | cons name rest ih =>
    cases rest with
    | nil =>
      rw [captureBelow?] at hbuilt
      have hitem : (Item.value v).finish.IsOrdered := hv
      split at hbuilt
      · exact insertNew?_areOrdered h hitem hbuilt
      · cases hbuilt
    | cons next rest =>
      -- The path goes on in a new table, in one that is there, or in the last of an array.
      have hrest : next :: rest = [] → False := List.cons_ne_nil next rest
      rw [captureBelow?.eq_3 _ _ _ _ _ hrest] at hbuilt
      split at hbuilt
      · obtain ⟨inner, hinner, hbuilt⟩ := Option.bind_eq_some_iff.1 hbuilt
        cases hbuilt
        exact h.insert name (ih areOrdered_nil hinner)
      · rename_i dotted' inner hfound
        obtain ⟨inner', hinner, hbuilt⟩ := Option.bind_eq_some_iff.1 hbuilt
        cases hbuilt
        exact h.insert name (ih (h.of_find? hfound) hinner)
      · rename_i last earlier hfound
        obtain ⟨last', hlast, hbuilt⟩ := Option.bind_eq_some_iff.1 hbuilt
        cases hbuilt
        have htables := h.of_find? hfound
        have hinner := isOrdered_tables.1 htables last List.mem_cons_self
        exact h.insert name (isOrdered_tables_cons htables (ih hinner hlast))
      · cases hbuilt

/-- A new entry keeps a table in order. -/
theorem capture?_areOrdered {v : Toml} (hv : v.IsOrdered) (h : AreOrdered members)
    (hbuilt : capture? members path v = some built) : AreOrdered built := by
  rw [capture?.eq_def] at hbuilt
  have hitem : (Item.value v).finish.IsOrdered := hv
  split at hbuilt
  · exact insertNew?_areOrdered h hitem hbuilt
  · exact captureBelow?_areOrdered hv h hbuilt

/-- A change at the place of a header keeps a table in order if the change does. -/
theorem atHeader?_areOrdered {change : Members → Option Members}
    (hchange : ∀ members built, AreOrdered members → change members = some built →
      AreOrdered built)
    (h : AreOrdered members) (hbuilt : atHeader? change path members = some built) :
    AreOrdered built := by
  induction path generalizing members built with
  | nil => exact hchange members built h hbuilt
  | cons name rest ih =>
    rw [atHeader?] at hbuilt
    split at hbuilt
    · obtain ⟨inner, hinner, hbuilt⟩ := Option.bind_eq_some_iff.1 hbuilt
      cases hbuilt
      exact h.insert name (ih areOrdered_nil hinner)
    · rename_i implied dotted inner hfound
      obtain ⟨inner', hinner, hbuilt⟩ := Option.bind_eq_some_iff.1 hbuilt
      cases hbuilt
      exact h.insert name (ih (h.of_find? hfound) hinner)
    · rename_i last earlier hfound
      obtain ⟨last', hlast, hbuilt⟩ := Option.bind_eq_some_iff.1 hbuilt
      cases hbuilt
      have htables := h.of_find? hfound
      have hinner := isOrdered_tables.1 htables last List.mem_cons_self
      exact h.insert name (isOrdered_tables_cons htables (ih hinner hlast))
    · cases hbuilt

/-! ## Values as they are written -/

/-- A value that is built from single values in order. -/
inductive Inline.IsSimple : Inline → Prop
  | atom {v : Toml} (hv : v.IsOrdered) : IsSimple (.atom v)
  | list {items : List Inline} (hitems : ∀ item ∈ items, IsSimple item) : IsSimple (.list items)
  | entries {members : List Entry} (hmembers : ∀ member ∈ members, IsSimple member.2) :
    IsSimple (.entries members)

mutual

/-- The value of a value as it is written is in order. -/
theorem ofInline?_isOrdered : ∀ {item : Inline} {v : Toml}, item.IsSimple →
    ofInline? item = some v → v.IsOrdered
  | .atom _, _, .atom hv, h => by
    cases h
    exact hv
  | .list items, v, .list hitems, h => by
    obtain ⟨values, hvalues, rfl⟩ := Option.map_eq_some_iff.1 h
    exact isOrdered_array.2 (ofInlines?_areOrdered hitems hvalues)
  | .entries members, v, .entries hmembers, h => by
    obtain ⟨built, hbuilt, rfl⟩ := Option.map_eq_some_iff.1 h
    exact captureInlines?_areOrdered hmembers areOrdered_nil hbuilt

theorem ofInlines?_areOrdered : ∀ {items : List Inline} {values : List Toml},
    (∀ item ∈ items, item.IsSimple) → ofInlines? items = some values →
    ∀ v ∈ values, v.IsOrdered
  | [], _, _, h => by
    cases h
    simp
  | item :: rest, _, hitems, h => by
    obtain ⟨v, hv, h⟩ := Option.bind_eq_some_iff.1 h
    obtain ⟨values, hvalues, h⟩ := Option.bind_eq_some_iff.1 h
    cases h
    refine List.forall_mem_cons.2 ⟨?_, ?_⟩
    · exact ofInline?_isOrdered (hitems item List.mem_cons_self) hv
    · exact ofInlines?_areOrdered (fun item h => hitems item (List.mem_cons_of_mem _ h)) hvalues

/-- Entries keep a table in order. -/
theorem captureInlines?_areOrdered : ∀ {entries : List Entry} {members built : Members},
    (∀ entry ∈ entries, entry.2.IsSimple) → AreOrdered members →
    captureInlines? members entries = some built → AreOrdered built
  | [], _, _, _, hmembers, h => by
    cases h
    exact hmembers
  | (path, item) :: rest, members, built, hentries, hmembers, h => by
    obtain ⟨v, hv, h⟩ := Option.bind_eq_some_iff.1 h
    obtain ⟨next, hnext, h⟩ := Option.bind_eq_some_iff.1 h
    have hitem := ofInline?_isOrdered (hentries (path, item) List.mem_cons_self) hv
    exact captureInlines?_areOrdered (fun entry h => hentries entry (List.mem_cons_of_mem _ h))
      (capture?_areOrdered hitem hmembers hnext) h

end

/-! ## Headers -/

theorem openTable?_areOrdered {entries : List Entry}
    (hentries : ∀ entry ∈ entries, entry.2.IsSimple) (h : AreOrdered members)
    (hbuilt : openTable? entries name members = some built) : AreOrdered built := by
  have hopened : ∀ start, AreOrdered start →
      (captureInlines? start entries >>= fun inner =>
        some (Entries.insert name (.table false false inner) members)) = some built →
      AreOrdered built := by
    intro start hstart hbuilt
    obtain ⟨inner, hinner, hbuilt⟩ := Option.bind_eq_some_iff.1 hbuilt
    cases hbuilt
    have hordered : AreOrdered inner := captureInlines?_areOrdered hentries hstart hinner
    exact h.insert name hordered
  rw [openTable?] at hbuilt
  split at hbuilt
  · exact hopened [] areOrdered_nil hbuilt
  · rename_i start hfound
    exact hopened start (h.of_find? hfound) hbuilt
  · cases hbuilt

theorem addElement?_areOrdered {entries : List Entry}
    (hentries : ∀ entry ∈ entries, entry.2.IsSimple) (h : AreOrdered members)
    (hbuilt : addElement? entries name members = some built) : AreOrdered built := by
  have hadded : ∀ earlier, (∀ members ∈ earlier, AreOrdered members) →
      (captureInlines? [] entries >>= fun element =>
        some (Entries.insert name (.tables (element :: earlier)) members)) = some built →
      AreOrdered built := by
    intro earlier hearlier hbuilt
    obtain ⟨element, helement, hbuilt⟩ := Option.bind_eq_some_iff.1 hbuilt
    cases hbuilt
    refine h.insert name (isOrdered_tables.2 (List.forall_mem_cons.2 ⟨?_, hearlier⟩))
    exact captureInlines?_areOrdered hentries areOrdered_nil helement
  rw [addElement?] at hbuilt
  split at hbuilt
  · exact hadded [] (by simp) hbuilt
  · rename_i earlier hfound
    exact hadded earlier (isOrdered_tables.1 (h.of_find? hfound)) hbuilt
  · cases hbuilt

theorem addHeaded?_areOrdered {headed : Headed}
    (hentries : ∀ entry ∈ headed.entries, entry.2.IsSimple) (h : AreOrdered members)
    (hbuilt : addHeaded? members headed = some built) : AreOrdered built := by
  obtain ⟨name, -, hbuilt⟩ := Option.bind_eq_some_iff.1 hbuilt
  refine atHeader?_areOrdered (fun members built hmembers hchange => ?_) h hbuilt
  split at hchange
  · exact addElement?_areOrdered hentries hmembers hchange
  · exact openTable?_areOrdered hentries hmembers hchange

theorem foldlM_areOrdered {sections : List Headed}
    (hentries : ∀ headed ∈ sections, ∀ entry ∈ headed.entries, entry.2.IsSimple)
    (h : AreOrdered members) (hbuilt : sections.foldlM addHeaded? members = some built) :
    AreOrdered built := by
  induction sections generalizing members with
  | nil =>
    cases hbuilt
    exact h
  | cons headed rest ih =>
    rw [List.foldlM_cons] at hbuilt
    obtain ⟨next, hnext, hbuilt⟩ := Option.bind_eq_some_iff.1 hbuilt
    have hheaded := hentries headed List.mem_cons_self
    refine ih (fun headed hmem => hentries headed (List.mem_cons_of_mem _ hmem)) ?_ hbuilt
    exact addHeaded?_areOrdered hheaded h hnext

/-- Statements whose values are built from single values. -/
def AreSimple (statements : List Statement) : Prop :=
  ∀ path item, .entry path item ∈ statements → item.IsSimple

theorem AreSimple.tail {first : Statement} {rest : List Statement} (h : AreSimple (first :: rest)) :
    AreSimple rest :=
  fun path item hmem => h path item (List.mem_cons_of_mem first hmem)

theorem grouped_isSimple {statements : List Statement} (h : AreSimple statements) :
    (∀ entry ∈ (grouped statements).1, entry.2.IsSimple) ∧
      ∀ headed ∈ (grouped statements).2, ∀ entry ∈ headed.entries, entry.2.IsSimple := by
  induction statements with
  | nil => simp [grouped]
  | cons first rest ih =>
    obtain ⟨hentries, hsections⟩ := ih h.tail
    cases first with
    | entry path item =>
      refine ⟨List.forall_mem_cons.2 ⟨?_, hentries⟩, hsections⟩
      exact h path item List.mem_cons_self
    | header isElement path =>
      exact ⟨by simp [grouped], List.forall_mem_cons.2 ⟨hentries, hsections⟩⟩

/-- The table of a document is in order. -/
theorem document?_isOrdered {statements : List Statement} (h : AreSimple statements)
    {members : List (String × Toml)} (hmembers : document? statements = some members) :
    (table members).IsOrdered := by
  obtain ⟨hentries, hsections⟩ := grouped_isSimple h
  obtain ⟨root, hroot, hmembers⟩ := Option.bind_eq_some_iff.1 hmembers
  obtain ⟨built, hbuilt, hmembers⟩ := Option.bind_eq_some_iff.1 hmembers
  cases hmembers
  exact foldlM_areOrdered hsections
    (captureInlines?_areOrdered hentries areOrdered_nil hroot) hbuilt

/-! ## What is read -/

theorem float?_isOrdered {cs : List Char} {v : Toml} (h : float? cs = some v) : v.IsOrdered := by
  rw [float?.eq_def] at h
  split at h
  · cases h
    exact .null
  · cases h
    exact .null
  · obtain ⟨decimal, -, rfl⟩ := Option.map_eq_some_iff.1 h
    split
    · exact .number _
    · exact .null

/-- A value without quotes is in order. -/
theorem scalar?_isOrdered {cs : List Char} {v : Toml} (h : scalar? cs = some v) : v.IsOrdered := by
  rw [scalar?] at h
  split at h
  · cases h
    exact .bool true
  · cases h
    exact .bool false
  · split at h
    · cases h
      exact .number _
    · cases h
      exact .object (List.pairwise_singleton _ _)
        (List.forall_mem_singleton.2 (.string _))
    · split at h
      · cases h
        exact .null
      · exact float?_isOrdered h

section Items

variable {read : List Char → Option (Inline × List Char)} {fuel : Nat} {cs rest : List Char}

theorem items?_isSimple (hread : ∀ cs item rest, read cs = some (item, rest) → item.IsSimple)
    {items : List Inline} (h : items? read fuel cs = some (items, rest)) :
    ∀ item ∈ items, item.IsSimple := by
  induction fuel generalizing cs items with
  | zero => cases h
  | succ fuel ih =>
    obtain ⟨start, -, h⟩ := Option.bind_eq_some_iff.1 h
    split at h
    · cases h
      simp
    · obtain ⟨⟨first, behind⟩, hfirst, h⟩ := Option.bind_eq_some_iff.1 h
      have hsimple := hread _ _ _ hfirst
      obtain ⟨next, -, h⟩ := Option.bind_eq_some_iff.1 h
      split at h
      · obtain ⟨⟨others, rest'⟩, hothers, h⟩ := Option.bind_eq_some_iff.1 h
        cases h
        exact List.forall_mem_cons.2 ⟨hsimple, ih hothers⟩
      · cases h
        exact List.forall_mem_singleton.2 hsimple
      · cases h

theorem members?_isSimple (hread : ∀ cs item rest, read cs = some (item, rest) → item.IsSimple)
    {members : List Entry} (h : members? read fuel cs = some (members, rest)) :
    ∀ member ∈ members, member.2.IsSimple := by
  induction fuel generalizing cs members with
  | zero => cases h
  | succ fuel ih =>
    obtain ⟨start, -, h⟩ := Option.bind_eq_some_iff.1 h
    split at h
    · cases h
      simp
    · obtain ⟨⟨path, behind⟩, -, h⟩ := Option.bind_eq_some_iff.1 h
      obtain ⟨next, -, h⟩ := Option.bind_eq_some_iff.1 h
      split at h
      · obtain ⟨behind', -, h⟩ := Option.bind_eq_some_iff.1 h
        obtain ⟨⟨item, left⟩, hitem, h⟩ := Option.bind_eq_some_iff.1 h
        have hsimple := hread _ _ _ hitem
        obtain ⟨next', -, h⟩ := Option.bind_eq_some_iff.1 h
        split at h
        · obtain ⟨⟨others, rest'⟩, hothers, h⟩ := Option.bind_eq_some_iff.1 h
          cases h
          exact List.forall_mem_cons.2 ⟨hsimple, ih hothers⟩
        · cases h
          exact List.forall_mem_singleton.2 hsimple
        · cases h
      · cases h

end Items

/-- A value that is read is built from single values. -/
theorem inline?_isSimple {depth : Nat} {cs rest : List Char} {item : Inline}
    (h : inline? depth cs = some (item, rest)) : item.IsSimple := by
  induction depth using Nat.strongRecOn generalizing cs rest item with
  | ind depth ih =>
    rw [inline?.eq_def] at h
    split at h
    · split at h
      · cases h
      · rename_i depth
        obtain ⟨⟨items, behind⟩, hitems, heq⟩ := Option.map_eq_some_iff.1 h
        cases heq
        exact .list (items?_isSimple (fun _ _ _ => ih depth (Nat.lt_succ_self depth)) hitems)
    · split at h
      · cases h
      · rename_i depth
        obtain ⟨⟨members, behind⟩, hmembers, heq⟩ := Option.map_eq_some_iff.1 h
        cases heq
        exact .entries (members?_isSimple (fun _ _ _ => ih depth (Nat.lt_succ_self depth)) hmembers)
    · obtain ⟨⟨text, behind⟩, -, heq⟩ := Option.map_eq_some_iff.1 h
      cases heq
      exact .atom (.string text)
    · obtain ⟨⟨text, behind⟩, -, heq⟩ := Option.map_eq_some_iff.1 h
      cases heq
      exact .atom (.string text)
    · obtain ⟨v, hv, heq⟩ := Option.map_eq_some_iff.1 h
      cases heq
      exact .atom (scalar?_isOrdered hv)

theorem statement?_isSimple {cs rest : List Char} {path : List String} {item : Inline}
    (h : statement? cs = some (.entry path item, rest)) : item.IsSimple := by
  rw [statement?.eq_def] at h
  split at h
  · obtain ⟨⟨path', behind⟩, -, h⟩ := Option.bind_eq_some_iff.1 h
    dsimp only at h
    split at h <;> cases h
  · obtain ⟨⟨path', behind⟩, -, h⟩ := Option.bind_eq_some_iff.1 h
    dsimp only at h
    split at h <;> cases h
  · obtain ⟨⟨path', behind⟩, -, h⟩ := Option.bind_eq_some_iff.1 h
    dsimp only at h
    split at h
    · obtain ⟨⟨v, left⟩, hv, h⟩ := Option.bind_eq_some_iff.1 h
      cases h
      exact inline?_isSimple hv
    · cases h

theorem statementsWithin?_areSimple {fuel : Nat} {cs : List Char} {statements : List Statement}
    (h : statementsWithin? fuel cs = some statements) : AreSimple statements := by
  induction fuel generalizing cs statements with
  | zero => cases h
  | succ fuel ih =>
    obtain ⟨start, -, h⟩ := Option.bind_eq_some_iff.1 h
    split at h
    · cases h
      intro path item hmem
      cases hmem
    · obtain ⟨⟨first, behind⟩, hfirst, h⟩ := Option.bind_eq_some_iff.1 h
      have hsimple : ∀ path item, first = .entry path item → item.IsSimple := by
        rintro path item rfl
        exact statement?_isSimple hfirst
      dsimp only at h
      split at h
      · cases h
        intro path item hmem
        exact hsimple path item (List.mem_singleton.1 hmem).symm
      · obtain ⟨next, -, h⟩ := Option.bind_eq_some_iff.1 h
        obtain ⟨others, hothers, h⟩ := Option.bind_eq_some_iff.1 h
        cases h
        intro path item hmem
        rcases List.mem_cons.1 hmem with heq | hmem
        · exact hsimple path item heq.symm
        · exact ih hothers path item hmem

/-- The table of the text of a document is in order. -/
theorem parse?_isOrdered {text : List Char} {members : List (String × Toml)}
    (h : parse? text = some members) : (table members).IsOrdered := by
  obtain ⟨statements, hstatements, h⟩ := Option.bind_eq_some_iff.1 h
  exact document?_isOrdered (statementsWithin?_areSimple hstatements) h

/-! ## Dates -/

theorem ofDated?_isOrdered {members : List (String × Toml)} {v : Toml}
    (h : ofDated? members = some v) : v.IsOrdered := by
  rw [ofDated?.eq_def] at h
  split at h
  · obtain ⟨chars, -, rfl⟩ := Option.map_eq_some_iff.1 h
    exact .object (List.pairwise_singleton _ _) (List.forall_mem_singleton.2 (.string _))
  · cases h

/-- Reading dates keeps the names of a table. -/
theorem names_of_datedMembers? {members members' : List (String × Toml)}
    (h : datedMembers? members = some members') :
    members'.map Prod.fst = members.map Prod.fst := by
  induction members generalizing members' with
  | nil =>
    cases h
    rfl
  | cons member rest ih =>
    obtain ⟨first, -, h⟩ := Option.bind_eq_some_iff.1 h
    obtain ⟨others, hothers, h⟩ := Option.bind_eq_some_iff.1 h
    cases h
    rw [List.map_cons, List.map_cons, ih hothers]

theorem sorted_of_datedMembers? {members members' : List (String × Toml)}
    (sorted : Entries.Sorted members) (h : datedMembers? members = some members') :
    Entries.Sorted members' := by
  have hnames : (members.map Prod.fst).Pairwise (· < ·) := List.pairwise_map.2 sorted
  rw [← names_of_datedMembers? h] at hnames
  exact List.pairwise_map.1 hnames

mutual

/-- Reading dates keeps a value in order. -/
theorem dated?_isOrdered : ∀ {item v : Toml}, item.IsOrdered → dated? item = some v → v.IsOrdered
  | .array items, v, hitem, h => by
    obtain ⟨items', hitems, rfl⟩ := Option.map_eq_some_iff.1 h
    exact isOrdered_array.2 (datedItems?_isOrdered (isOrdered_array.1 hitem) hitems)
  | .table members, v, hitem, h => by
    rw [dated?] at h
    split at h
    · exact ofDated?_isOrdered h
    · obtain ⟨members', hmembers, rfl⟩ := Option.map_eq_some_iff.1 h
      obtain ⟨sorted, hitems⟩ := isOrdered_table.1 hitem
      exact isOrdered_table.2
        ⟨sorted_of_datedMembers? sorted hmembers, datedMembers?_isOrdered hitems hmembers⟩
  | .string _, _, hitem, h | .integer _, _, hitem, h | .float _, _, hitem, h
  | .unreadable, _, hitem, h | .boolean _, _, hitem, h | .datetime _, _, hitem, h => by
    cases h
    exact hitem

theorem datedItems?_isOrdered : ∀ {items items' : List Toml}, (∀ item ∈ items, item.IsOrdered) →
    datedItems? items = some items' → ∀ item ∈ items', item.IsOrdered
  | [], _, _, h => by
    cases h
    simp
  | item :: rest, _, hitems, h => by
    obtain ⟨first, hfirst, h⟩ := Option.bind_eq_some_iff.1 h
    obtain ⟨others, hothers, h⟩ := Option.bind_eq_some_iff.1 h
    cases h
    refine List.forall_mem_cons.2 ⟨?_, ?_⟩
    · exact dated?_isOrdered (hitems item List.mem_cons_self) hfirst
    · exact datedItems?_isOrdered (fun item h => hitems item (List.mem_cons_of_mem _ h)) hothers

theorem datedMembers?_isOrdered : ∀ {members members' : List (String × Toml)},
    (∀ member ∈ members, member.2.IsOrdered) → datedMembers? members = some members' →
    ∀ member ∈ members', member.2.IsOrdered
  | [], _, _, h => by
    cases h
    simp
  | (name, item) :: rest, _, hmembers, h => by
    obtain ⟨first, hfirst, h⟩ := Option.bind_eq_some_iff.1 h
    obtain ⟨others, hothers, h⟩ := Option.bind_eq_some_iff.1 h
    cases h
    refine List.forall_mem_cons.2 ⟨?_, ?_⟩
    · exact dated?_isOrdered (hmembers (name, item) List.mem_cons_self) hfirst
    · exact datedMembers?_isOrdered (fun item h => hmembers item (List.mem_cons_of_mem _ h)) hothers

end

end Toml

/-! ## Configurations -/

namespace Config

open Toml

theorem stored?_isOrdered {members : List (String × Toml)} {stored : Entries Toml}
    (h : (table members).IsOrdered) (hstored : stored? members = some stored) :
    (table stored).IsOrdered := by
  have hmembers := (isOrdered_table.1 h).2
  rw [stored?.eq_def] at hstored
  split at hstored
  · cases hstored
    exact areOrdered_nil
  · rename_i inner hfound
    obtain ⟨hdated, -⟩ := Option.filter_eq_some_iff.1 hstored
    obtain ⟨sorted, hinner⟩ := isOrdered_table.1 (hmembers _ (Entries.mem_of_find? hfound))
    exact isOrdered_table.2
      ⟨sorted_of_datedMembers? sorted hdated, datedMembers?_isOrdered hinner hdated⟩
  · rename_i text _
    cases hstored
    exact .object (List.pairwise_singleton _ _) (List.forall_mem_singleton.2 (.string text))
  · cases hstored

/-- The values that a configuration stores are in order. -/
theorem isOrdered_of_load {files : Files} {name : String} {config : Config}
    (h : load files name = .ok config) : ∀ entry ∈ config.storedValues, entry.2.IsOrdered := by
  have hordered : (table config.stored).IsOrdered := by
    rw [load] at h
    split at h
    · split at h
      · cases h
      · split at h
        · cases h
        · rename_i found hfound
          have hsame : found = config := by
            rw [validate] at h
            split at h
            · cases h
            · split at h
              · cases h
              · exact Except.ok.inj h
          subst hsame
          obtain ⟨members, hmembers, hfound⟩ := Option.bind_eq_some_iff.1 hfound
          obtain ⟨-, -, hfound⟩ := Option.bind_eq_some_iff.1 hfound
          obtain ⟨models, -, hfound⟩ := Option.bind_eq_some_iff.1 hfound
          obtain ⟨fails, -, hfound⟩ := Option.bind_eq_some_iff.1 hfound
          obtain ⟨stored, hstored, hfound⟩ := Option.bind_eq_some_iff.1 hfound
          cases hfound
          exact stored?_isOrdered (parse?_isOrdered hmembers) hstored
    · cases h
      exact areOrdered_nil
  intro entry hentry
  exact Value.IsOrdered.of_mem hordered entry hentry

end Config

end RankedRules
