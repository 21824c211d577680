/-
Overrides that go different ways can come in any order.

Two overrides are independent if neither path goes on where the other one ends. Then the writes can
change places, whatever they replace and remove on their ways, and so can all in a list of
independent ones. The values of a configuration are in order, so the context of a source is one to
which this applies.

* `Context.takePaths` — one write at a path after the other;
* `Override.Independent` — neither path goes on where the other one ends;
* `Context.takePaths_perm` — independent writes in any order;
* `Override.isOrdered_of_parseAll` — the values of overrides that are read are in order;
* `Source.overrides_commute` — what independent overrides store in any order.
-/
import RankedRules.Proofs.Context.Writes
import RankedRules.Proofs.Rule.RightSide
import RankedRules.Proofs.Toml.Ordered
import RankedRules.Query.Source

namespace RankedRules

/-! ## Writes in any order -/

/-- Neither path goes on where the other one ends, if both are valid. -/
def Override.Independent (a b : Override) : Prop :=
  ∀ segments ∈ KeyPath.segments? a.key, ∀ others ∈ KeyPath.segments? b.key,
    ¬segments <+: others ∧ ¬others <+: segments

instance (a b : Override) : Decidable (a.Independent b) :=
  inferInstanceAs (Decidable (∀ segments ∈ KeyPath.segments? a.key,
    ∀ others ∈ KeyPath.segments? b.key, ¬segments <+: others ∧ ¬others <+: segments))

theorem Override.Independent.symm {a b : Override} (h : a.Independent b) : b.Independent a :=
  fun segments hsegments others hothers => (h others hothers segments hsegments).symm

namespace Context

variable {c d : Context} {overrides others : List Override}

/-- Takes one value after the other at its path. The first invalid path ends it. -/
def takePaths (c : Context) : List Override → Except EvalError Context
  | [] => .ok c
  | ⟨key, value⟩ :: rest => do
    let taken ← c.takePath value key
    taken.takePaths rest

theorem takePaths_cons (c : Context) (o : Override) (rest : List Override) :
    c.takePaths (o :: rest) = c.takePath o.value o.key >>= fun d => d.takePaths rest := rfl

/-- Writes at valid paths do not fail. -/
theorem exists_takePaths (c : Context)
    (hvalid : ∀ o ∈ overrides, (KeyPath.segments? o.key).isSome = true) :
    ∃ d, c.takePaths overrides = .ok d := by
  induction overrides generalizing c with
  | nil => exact ⟨c, rfl⟩
  | cons o rest ih =>
    obtain ⟨segments, hsegments⟩ := Option.isSome_iff_exists.1 (hvalid o List.mem_cons_self)
    obtain ⟨d, hd⟩ := ih _ fun o ho => hvalid o (List.mem_cons_of_mem _ ho)
    rw [takePaths_cons, takePath_eq hsegments]
    exact ⟨d, hd⟩

/-- Independent writes leave the same in any order. -/
theorem takePaths_perm (hperm : overrides.Perm others) (hc : c.IsOrdered)
    (hvalid : ∀ o ∈ overrides, (KeyPath.segments? o.key).isSome = true)
    (hvalues : ∀ o ∈ overrides, o.value.IsOrdered)
    (hpaths : overrides.Pairwise Override.Independent) :
    c.takePaths overrides = c.takePaths others := by
  induction hperm generalizing c with
  | nil => rfl
  | @cons o overrides others _ ih =>
    obtain ⟨segments, hsegments⟩ := Option.isSome_iff_exists.1 (hvalid o List.mem_cons_self)
    have htaken := takePath_eq hsegments c o.value
    rw [takePaths_cons, takePaths_cons, htaken]
    exact ih (hc.takePath (hvalues o List.mem_cons_self) htaken)
      (fun o ho => hvalid o (List.mem_cons_of_mem _ ho))
      (fun o ho => hvalues o (List.mem_cons_of_mem _ ho)) (List.pairwise_cons.1 hpaths).2
  | swap a b rest =>
    have hmem : a ∈ b :: a :: rest := List.mem_cons_of_mem b List.mem_cons_self
    obtain ⟨segments, hb⟩ := Option.isSome_iff_exists.1 (hvalid b List.mem_cons_self)
    obtain ⟨others, ha⟩ := Option.isSome_iff_exists.1 (hvalid a hmem)
    have hdiverge : Value.Diverge segments others :=
      (List.pairwise_cons.1 hpaths).1 a List.mem_cons_self segments hb others ha
    -- The two writes are put together in front of the others, and change places.
    calc c.takePaths (b :: a :: rest)
        = (c.takePath b.value b.key >>= fun d => d.takePath a.value a.key) >>=
            fun d => d.takePaths rest := (bind_assoc _ _ _).symm
      _ = (c.takePath a.value a.key >>= fun e => e.takePath b.value b.key) >>=
            fun d => d.takePaths rest := by rw [takePath_comm hc hb ha hdiverge]
      _ = c.takePaths (a :: b :: rest) := bind_assoc _ _ _
  | trans hleft _ ih ih' =>
    refine (ih hc hvalid hvalues hpaths).trans (ih' hc ?_ ?_ ?_)
    · exact fun o ho => hvalid o (hleft.mem_iff.2 ho)
    · exact fun o ho => hvalues o (hleft.mem_iff.2 ho)
    · exact hleft.pairwise hpaths fun h => h.symm

end Context

/-! ## Overrides that are read -/

namespace Override

theorem isOrdered_of_printable {v : Value} (h : PropertyList.Printable v) : v.IsOrdered := by
  induction h with
  | number _ => exact .number _
  | string s => exact .string s
  | array _ ih => exact .array ih
  | object sorted _ ih => exact .object sorted ih

theorem isOrdered_of_isConstant {v : Value} (h : RightSide.IsConstant v) : v.IsOrdered := by
  cases h with
  | null => exact .null
  | bool holds => exact .bool holds
  | string s => exact .string s
  | number _ => exact .number _
  | array h => exact isOrdered_of_printable h
  | object h => exact isOrdered_of_printable h

theorem isOrdered_of_value? {key : String} {text : List Char} {v : Value}
    (h : value? key text = .ok v) : v.IsOrdered := by
  rw [value?] at h
  split at h
  · rename_i found hfound
    cases h
    rcases RightSide.parse_ok hfound with ⟨w, hw, hconstant⟩ | ⟨hpath, -⟩
    · cases hw
      exact isOrdered_of_isConstant hconstant
    · cases hpath
  · cases h
    exact .string _
  · cases h
    exact .string _
  · cases h

/-- The value of an override that is read is in order. -/
theorem isOrdered_of_parse {text : String} {o : Override} (h : parse text = .ok o) :
    o.value.IsOrdered := by
  rw [parse] at h
  split at h
  · cases h
  · split at h
    · cases h
    · obtain ⟨v, hv, h⟩ := bind_eq_ok_iff.1 h
      cases h
      exact isOrdered_of_value? hv

theorem isOrdered_of_parseAll {texts : List String} {overrides : List Override}
    (h : parseAll texts = .ok overrides) : ∀ o ∈ overrides, o.value.IsOrdered := by
  induction texts generalizing overrides with
  | nil =>
    cases h
    simp
  | cons text rest ih =>
    obtain ⟨first, hfirst, h⟩ := bind_eq_ok_iff.1 h
    obtain ⟨others, hothers, h⟩ := bind_eq_ok_iff.1 h
    cases h
    exact List.forall_mem_cons.2 ⟨isOrdered_of_parse hfirst, ih hothers⟩

end Override

/-! ## Sources -/

namespace Source

variable {files : Files} {overrides others : List Override}

theorem store_of_takePaths {c d : Context} (h : c.takePaths overrides = .ok d) :
    store c overrides = .ok d := by
  induction overrides generalizing c with
  | nil =>
    cases h
    rfl
  | cons o rest ih =>
    obtain ⟨taken, htaken, hrest⟩ := bind_eq_ok_iff.1 h
    rw [store, htaken]
    exact ih hrest

/-- The stored values of a configuration are in order. -/
theorem isOrdered_of_resolve {source : Source} {config : Config} {names : List String}
    (h : source.resolve files = .ok (config, names)) :
    ∀ entry ∈ config.storedValues, entry.2.IsOrdered := by
  rw [resolve] at h
  split at h
  · cases h
    intro entry hentry
    cases hentry
  · split at h
    · rename_i name _ _
      obtain ⟨loaded, hloaded, h⟩ := bind_eq_ok_iff.1 h
      cases h
      cases hload : Config.load files name with
      | error failure =>
        rw [hload] at hloaded
        cases hloaded
      | ok found =>
        rw [hload] at hloaded
        cases hloaded
        exact Config.isOrdered_of_load hload
    · cases h

/-- The context of a source depends on its overrides by what they store. -/
theorem context_congr {source : Source} (hoverrides : source.overrides = overrides)
    (hstore : ∀ c : Context, c.IsOrdered → store c overrides = store c others) :
    source.context files = context files { source with overrides := others } := by
  have hresolve : resolve files { source with overrides := others } = source.resolve files := rfl
  rw [context, context, hresolve]
  cases hresolved : source.resolve files with
  | error failure => rfl
  | ok resolved =>
    obtain ⟨config, names⟩ := resolved
    show (Model.loadAll files config.failOnParseError names >>= fun rules =>
      store (Context.takeAll { model := some ⟨rules⟩ } config.storedValues) source.overrides) =
        Model.loadAll files config.failOnParseError names >>= fun rules =>
          store (Context.takeAll { model := some ⟨rules⟩ } config.storedValues) others
    rw [hoverrides]
    refine congrArg _ (funext fun rules => hstore _ ?_)
    exact (Context.isOrdered_of_no_stored rfl).takeAll (isOrdered_of_resolve hresolved)

/-- Overrides at valid paths of which none goes on where another one ends can come in any order,
with null among the values and whatever is stored on their ways: from any context, writing them
leaves the same, and a source with them has the same context. -/
theorem overrides_commute (hperm : overrides.Perm others)
    (hvalid : ∀ o ∈ overrides, (KeyPath.segments? o.key).isSome = true)
    (hvalues : ∀ o ∈ overrides, o.value.IsOrdered)
    (hpaths : overrides.Pairwise Override.Independent) :
    (∀ c : Context, c.IsOrdered →
      ∃ d, c.takePaths overrides = .ok d ∧ c.takePaths others = .ok d) ∧
    ∀ (files : Files) (source : Source), source.overrides = overrides →
      source.context files = context files { source with overrides := others } := by
  have hwrites : ∀ c : Context, c.IsOrdered →
      ∃ d, c.takePaths overrides = .ok d ∧ c.takePaths others = .ok d := by
    intro c hc
    obtain ⟨d, hd⟩ := c.exists_takePaths hvalid
    exact ⟨d, hd, by rw [← Context.takePaths_perm hperm hc hvalid hvalues hpaths, hd]⟩
  refine ⟨hwrites, fun files source hsource => context_congr hsource fun c hc => ?_⟩
  obtain ⟨d, hleft, hright⟩ := hwrites c hc
  rw [store_of_takePaths hleft, store_of_takePaths hright]

/-- A text and a list, where writes make objects. -/
def occupied : Context where
  stored := [("a", .string "text"), ("d", .array [.bool true])]

theorem isOrdered_occupied : occupied.IsOrdered := by
  refine .object (List.pairwise_pair.2 (by decide)) fun member hmember => ?_
  rcases List.mem_cons.1 hmember with rfl | hmember
  · exact .string "text"
  · rw [List.mem_singleton.1 hmember]
    exact .array (List.forall_mem_singleton.2 (.bool true))

/-- Two overrides have a common beginning and one of them removes; another goes through a list. -/
theorem overrides_commute_occupied : ∃ overrides d,
    Override.parseAll ["a.b.c=\x7by=1; x=2;\x7d", "a.b.e=null", "d.0=YES"] = .ok overrides ∧
      occupied.takePaths overrides = .ok d ∧ occupied.takePaths overrides.reverse = .ok d ∧
      ∀ files, context files { overrides } = context files { overrides := overrides.reverse } := by
  have hread : Override.parseAll ["a.b.c=\x7by=1; x=2;\x7d", "a.b.e=null", "d.0=YES"] =
      .ok [⟨"a.b.c", .object [("x", .ofInt 2), ("y", .ofInt 1)]⟩, ⟨"a.b.e", .null⟩,
        ⟨"d.0", .bool true⟩] := rfl
  obtain ⟨hwrites, hcontext⟩ := overrides_commute (List.reverse_perm _).symm
    (by decide +kernel) (Override.isOrdered_of_parseAll hread) (by decide +kernel)
  obtain ⟨d, hleft, hright⟩ := hwrites occupied isOrdered_occupied
  exact ⟨_, d, hread, hleft, hright, fun files => hcontext files { overrides := _ } rfl⟩

end Source

end RankedRules
