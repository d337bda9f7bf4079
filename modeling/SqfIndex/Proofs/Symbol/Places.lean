import SqfIndex.Symbol.Store

/-!
# Places by document

What each operation of the tables does to the places that a document contributes to a name. A table of
places is read through `entry`, which takes an absent document for one without places; `Proper` says
that the two are never told apart by the table itself.
-/

namespace SqfIndex.Tables

open Std (ExtTreeMap)

/-! ## Lists by document -/

section Entries

variable {α : Type} {table : ExtTreeMap Uri (List α)} {u : Uri}

/-- What a document has in a table; an absent document has nothing. -/
def entry (table : ExtTreeMap Uri (List α)) (u : Uri) : List α := (table[u]?).getD []

/-- A list that has something. -/
def present : List α → Option (List α)
  | [] => none
  | a :: as => some (a :: as)

theorem present_eq_some {items : List α} (h : items ≠ []) : present items = some items := by
  cases items with
  | nil => exact absurd rfl h
  | cons => rfl

/-- No document is kept with an empty list. -/
def Proper (table : ExtTreeMap Uri (List α)) : Prop := ∀ u : Uri, table[u]? ≠ some []

@[simp] theorem entry_empty (u : Uri) : entry (∅ : ExtTreeMap Uri (List α)) u = [] := by
  simp [entry]

@[simp] theorem entry_erase (table : ExtTreeMap Uri (List α)) (u v : Uri) :
    entry (table.erase u) v = if u = v then [] else entry table v := by
  by_cases h : u = v <;> simp [entry, ExtTreeMap.getElem?_erase, h]

@[simp] theorem entry_contribute (table : ExtTreeMap Uri (List α)) (u : Uri) (items : List α) (v : Uri) :
    entry (contribute table u items) v = entry table v ++ if u = v then items else [] := by
  unfold contribute
  split
  · next h => simp [h]
  · by_cases h : u = v
    · subst h; simp [entry]
    · simp [entry, ExtTreeMap.getElem?_alter, h]

theorem Proper.empty : Proper (∅ : ExtTreeMap Uri (List α)) := by
  intro u; simp

theorem Proper.erase (h : Proper table) (u : Uri) : Proper (table.erase u) := by
  intro v
  rw [ExtTreeMap.getElem?_erase]
  split
  · simp
  · exact h v

theorem Proper.contribute (h : Proper table) (u : Uri) (items : List α) :
    Proper (contribute table u items) := by
  unfold Tables.contribute
  split
  · exact h
  · next hi =>
    intro v
    rw [ExtTreeMap.getElem?_alter]
    split
    · simp [hi]
    · exact h v

/-- A proper table keeps a document exactly if it has something. -/
theorem Proper.getElem?_eq (h : Proper table) (u : Uri) :
    table[u]? = present (entry table u) := by
  cases hu : table[u]? with
  | none => simp [entry, hu, present]
  | some items =>
      have hi : items ≠ [] := by rintro rfl; exact h u hu
      simp [entry, hu, present_eq_some hi]

theorem any_toList_iff (table : ExtTreeMap Uri (List α)) :
    (table.toList.any fun (_, items) => !items.isEmpty) = true ↔ ∃ u, entry table u ≠ [] := by
  rw [List.any_eq_true]
  constructor
  · rintro ⟨⟨u, items⟩, hmem, hi⟩
    rw [ExtTreeMap.mem_toList_iff_getElem?_eq_some] at hmem
    exact ⟨u, by simpa [entry, hmem] using hi⟩
  · rintro ⟨u, hu⟩
    cases hi : table[u]? with
    | none => simp [entry, hi] at hu
    | some items =>
        refine ⟨(u, items), ExtTreeMap.mem_toList_iff_getElem?_eq_some.mpr hi, ?_⟩
        simpa [entry, hi] using hu

end Entries

end SqfIndex.Tables

namespace SqfIndex

open Std (ExtTreeMap)

/-! ## Both kinds of mention -/

/-- The two ways in which a document mentions a variable. -/
inductive Mention
  | definition
  | usage
deriving DecidableEq, Repr

def Variable.places {α : Type} (v : Variable α) : Mention → List α
  | .definition => v.definitions
  | .usage => v.usages

def Global.places (g : Global) : Mention → ExtTreeMap Uri (List Range)
  | .definition => g.definitions
  | .usage => g.usages

theorem Global.places_forget (g : Global) (uri : Uri) (m : Mention) :
    (g.forget uri).places m = (g.places m).erase uri := by
  cases m <;> rfl

/-- A global is kept by a sweep exactly if some document mentions it. -/
theorem Global.isMentioned_iff (g : Global) :
    (g.isDefined || g.isUsed) = true ↔ ∃ m u, Tables.entry (g.places m) u ≠ [] := by
  rw [Bool.or_eq_true, Global.isDefined, Global.isUsed, Tables.any_toList_iff, Tables.any_toList_iff]
  constructor
  · rintro (⟨u, h⟩ | ⟨u, h⟩)
    · exact ⟨.definition, u, h⟩
    · exact ⟨.usage, u, h⟩
  · rintro ⟨m, u, h⟩
    cases m with
    | definition => exact Or.inl ⟨u, h⟩
    | usage => exact Or.inr ⟨u, h⟩

namespace Tables

/-- The places at which a document mentions the global of a key. -/
def placesIn (globals : ExtTreeMap String Global) (m : Mention) (key : String) (u : Uri) : List Range :=
  ((globals[key]?).map fun g => entry (g.places m) u).getD []

/-- No global keeps a document without places. -/
def AllProper (globals : ExtTreeMap String Global) : Prop :=
  ∀ (key : String) (g : Global), globals[key]? = some g → ∀ m, Proper (g.places m)

variable {globals : ExtTreeMap String Global}

theorem placesIn_of_getElem? {key : String} {g : Global} (h : globals[key]? = some g) (m : Mention) (u : Uri) :
    placesIn globals m key u = entry (g.places m) u := by
  simp [placesIn, h]

theorem placesIn_of_absent {key : String} (h : globals[key]? = none) (m : Mention) (u : Uri) :
    placesIn globals m key u = [] := by
  simp [placesIn, h]

/-- In proper tables a document is absent from a global exactly if it has no places there. -/
theorem AllProper.getElem?_bind (h : AllProper globals) (m : Mention) (key : String) (u : Uri) :
    ((globals[key]?).bind fun g => (g.places m)[u]?) = present (placesIn globals m key u) := by
  cases hg : globals[key]? with
  | none => simp [placesIn, hg, present]
  | some g =>
      rw [placesIn_of_getElem? hg]
      exact (h key g hg m).getElem?_eq u

/-! ## Leaving a document out -/

theorem placesIn_forget (globals : ExtTreeMap String Global) (u : Uri) (m : Mention) (key : String) (v : Uri) :
    placesIn (globals.map fun _ (g : Global) => g.forget u) m key v =
      if u = v then [] else placesIn globals m key v := by
  cases hg : globals[key]? with
  | none => simp [placesIn, hg]
  | some g => simp [placesIn, hg, Global.places_forget]

theorem AllProper.forget (h : AllProper globals) (u : Uri) :
    AllProper (globals.map fun _ g => g.forget u) := by
  intro key g hg m
  rw [ExtTreeMap.getElem?_map, Option.map_eq_some_iff] at hg
  obtain ⟨old, hold, rfl⟩ := hg
  rw [Global.places_forget]
  exact (h key old hold m).erase u

/-! ## Adding a variable -/

/-- The global after a document said something about it, or a new one. -/
def addedTo (uri : Uri) (v : Variable Range) (old : Option Global) : Global :=
  let g := old.getD { name := v.name }
  { g with
    comment := g.comment.or (nonBlank v.comment)
    definitions := contribute g.definitions uri v.definitions
    usages := contribute g.usages uri v.usages }

theorem getElem?_addGlobal (uri : Uri) (globals : ExtTreeMap String Global) (v : Variable Range) (key : String) :
    (addGlobal uri globals v)[key]? =
      if Text.lowered v.name = key then some (addedTo uri v globals[key]?) else globals[key]? := by
  unfold addGlobal
  rw [ExtTreeMap.getElem?_alter]
  by_cases h : Text.lowered v.name = key
  · subst h; simp [addedTo]
  · simp [h]

theorem places_addedTo (uri : Uri) (v : Variable Range) (old : Option Global) (m : Mention) :
    (addedTo uri v old).places m =
      contribute ((old.map (·.places m)).getD ∅) uri (v.places m) := by
  cases old <;> cases m <;> rfl

theorem placesIn_addGlobal (uri : Uri) (globals : ExtTreeMap String Global) (v : Variable Range)
    (m : Mention) (key : String) (u : Uri) :
    placesIn (addGlobal uri globals v) m key u =
      placesIn globals m key u ++ if Text.lowered v.name = key ∧ uri = u then v.places m else [] := by
  unfold placesIn
  rw [getElem?_addGlobal]
  by_cases hk : Text.lowered v.name = key
  · simp only [hk, ↓reduceIte, Option.map_some, Option.getD_some, places_addedTo, entry_contribute, true_and]
    cases globals[key]? <;> simp
  · simp [hk]

theorem AllProper.addGlobal (h : AllProper globals) (uri : Uri) (v : Variable Range) :
    AllProper (addGlobal uri globals v) := by
  intro key g hg m
  rw [getElem?_addGlobal] at hg
  split at hg
  · simp only [Option.some.injEq] at hg
    subst hg
    rw [places_addedTo]
    apply Proper.contribute
    cases hold : globals[key]? with
    | none => exact Proper.empty
    | some old => exact h key old hold m
  · exact h key g hg m

/-! ## Adding all variables of a report -/

/-- The places at which some variables mention a key, in order. -/
def gathered (vs : List (Variable Range)) (m : Mention) (key : String) : List Range :=
  (vs.filter fun v => Text.lowered v.name = key).flatMap (·.places m)

@[simp] theorem gathered_nil (m : Mention) (key : String) : gathered [] m key = [] := rfl

theorem gathered_cons (v : Variable Range) (vs : List (Variable Range)) (m : Mention) (key : String) :
    gathered (v :: vs) m key = (if Text.lowered v.name = key then v.places m else []) ++ gathered vs m key := by
  by_cases h : Text.lowered v.name = key <;> simp [gathered, h]

theorem placesIn_addGlobals (uri : Uri) (vs : List (Variable Range)) (globals : ExtTreeMap String Global)
    (m : Mention) (key : String) (u : Uri) :
    placesIn (vs.foldl (Tables.addGlobal uri) globals) m key u =
      placesIn globals m key u ++ if uri = u then gathered vs m key else [] := by
  induction vs generalizing globals with
  | nil => simp
  | cons v vs ih =>
      rw [List.foldl_cons, ih, placesIn_addGlobal, gathered_cons]
      by_cases hu : uri = u <;> simp [hu]

theorem AllProper.addGlobals (h : AllProper globals) (uri : Uri) (vs : List (Variable Range)) :
    AllProper (vs.foldl (Tables.addGlobal uri) globals) := by
  induction vs generalizing globals with
  | nil => exact h
  | cons v vs ih => exact ih (h.addGlobal uri v)

/-! ## Sweeping -/

theorem mem_swept_iff (globals : ExtTreeMap String Global) (key : String) :
    key ∈ (globals.filter fun _ g => g.isDefined || g.isUsed) ↔ ∃ m u, placesIn globals m key u ≠ [] := by
  rw [ExtTreeMap.mem_iff_isSome_getElem?, ExtTreeMap.getElem?_filter']
  cases hg : globals[key]? with
  | none => simp [placesIn, hg]
  | some g =>
      simp only [placesIn_of_getElem? hg, ← Global.isMentioned_iff]
      cases hm : (g.isDefined || g.isUsed) <;> simp [Option.filter, hm]

theorem placesIn_sweep (globals : ExtTreeMap String Global) (m : Mention) (key : String) (u : Uri) :
    placesIn (globals.filter fun _ g => g.isDefined || g.isUsed) m key u = placesIn globals m key u := by
  cases hg : globals[key]? with
  | none => simp [placesIn, hg]
  | some g =>
      cases hm : (g.isDefined || g.isUsed) with
      | true => simp [placesIn, hg, Option.filter, hm]
      | false =>
          -- a global that goes has no places, so that none are lost
          have hnone : entry (g.places m) u = [] := by
            by_cases h : entry (g.places m) u = []
            · exact h
            · have := g.isMentioned_iff.mpr ⟨m, u, h⟩
              rw [hm] at this; cases this
          simp [placesIn, hg, Option.filter, hm, hnone]

theorem AllProper.sweep (h : AllProper globals) :
    AllProper (globals.filter fun _ g => g.isDefined || g.isUsed) := by
  intro key g hg m
  rw [ExtTreeMap.getElem?_filter', Option.filter_eq_some_iff] at hg
  exact h key g hg.1 m

end Tables

end SqfIndex
