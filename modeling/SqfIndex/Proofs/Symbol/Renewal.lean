import SqfIndex.Proofs.Symbol.History

/-!
# One call and one key

A call treats every key on its own. The entry of a key is the old one, or a fresh one if the call
mentions the key; it is renewed by what the call says about the key, and then kept or dropped:
`getElem?_globals_apply`, `getElem?_macros_apply`.
-/

namespace SqfIndex

open Std (ExtTreeMap)

namespace Call

def settings : Call → Settings
  | reconcile settings _ _ _ => settings
  | remove settings _ => settings

/-- The variables that the document of a call contributes to the globals. -/
def tracked : Call → List (Variable Range)
  | reconcile _ owns _ report => report.vars.filter (Tables.isTracked owns)
  | remove _ _ => []

def occurrences : Call → List MacroOccurrence
  | reconcile _ _ _ report => report.macros
  | remove _ _ => []

def variablesAt (c : Call) (key : String) : List (Variable Range) :=
  c.tracked.filter fun v => Text.lowered v.name = key

def macrosAt (c : Call) (key : String) : List MacroOccurrence :=
  c.occurrences.filter fun o => Text.lowered o.name = key

end Call

/-! ## Globals -/

namespace Global

def fresh (vs : List (Variable Range)) : Option Global := vs.head?.map fun v => { name := v.name }

/-- The global with all that some variables say about it. -/
def extend (uri : Uri) (vs : List (Variable Range)) (g : Global) : Global :=
  { g with
    comment := g.comment.or (vs.findSome? fun v => Tables.nonBlank v.comment)
    definitions := Tables.contribute g.definitions uri (vs.flatMap (·.definitions))
    usages := Tables.contribute g.usages uri (vs.flatMap (·.usages)) }

/-- The global with what a document says now in place of what it said before. -/
def renew (uri : Uri) (vs : List (Variable Range)) (g : Global) : Global := (g.forget uri).extend uri vs

@[simp] theorem name_renew (uri : Uri) (vs : List (Variable Range)) (g : Global) : (g.renew uri vs).name = g.name := rfl

theorem comment_renew (uri : Uri) (vs : List (Variable Range)) (g : Global) :
    (g.renew uri vs).comment = g.comment.or (vs.findSome? fun v => Tables.nonBlank v.comment) := rfl

theorem places_renew (uri : Uri) (vs : List (Variable Range)) (g : Global) (m : Mention) :
    (g.renew uri vs).places m = Tables.contribute ((g.places m).erase uri) uri (vs.flatMap (·.places m)) := by
  cases m <;> rfl

theorem lowered_fresh {c : Call} {key : String} {g : Global} (h : fresh (c.variablesAt key) = some g) :
    Text.lowered g.name = key := by
  obtain ⟨v, hv, rfl⟩ := Option.map_eq_some_iff.mp h
  have hmem := List.mem_of_head? hv
  simpa using (List.mem_filter.mp hmem).2

end Global

namespace Tables

theorem contribute_nil {α : Type} (table : ExtTreeMap Uri (List α)) (u : Uri) : contribute table u [] = table := by
  simp [contribute]

theorem contribute_append {α : Type} (table : ExtTreeMap Uri (List α)) (u : Uri) (as bs : List α) :
    contribute (contribute table u as) u bs = contribute table u (as ++ bs) := by
  by_cases ha : as = []
  · simp [ha, contribute_nil]
  · by_cases hb : bs = []
    · simp [hb, contribute_nil]
    · apply ExtTreeMap.ext_getElem?
      intro v
      by_cases hv : u = v
      · subst hv; simp [contribute, ha, hb]
      · simp [contribute, ha, hb, ExtTreeMap.getElem?_alter, hv]

theorem getElem?_contribute_erase {α : Type} (table : ExtTreeMap Uri (List α)) (uri : Uri) (items : List α) (u : Uri) :
    (contribute (table.erase uri) uri items)[u]? = if uri = u then present items else table[u]? := by
  unfold contribute
  cases items with
  | nil => by_cases h : uri = u <;> simp [present, ExtTreeMap.getElem?_erase, h]
  | cons a as =>
      by_cases h : uri = u
      · subst h; simp [present]
      · simp [ExtTreeMap.getElem?_alter, ExtTreeMap.getElem?_erase, h]

theorem getElem?_addGlobals (uri : Uri) (vs : List (Variable Range)) (globals : ExtTreeMap String Global) (key : String) :
    (vs.foldl (addGlobal uri) globals)[key]? =
      (vs.filter fun v => Text.lowered v.name = key).foldl (fun g v => some (addedTo uri v g)) globals[key]? := by
  induction vs generalizing globals with
  | nil => rfl
  | cons v vs ih =>
      rw [List.foldl_cons, ih, getElem?_addGlobal]
      by_cases h : Text.lowered v.name = key <;> simp [h]

theorem extend_addedTo (uri : Uri) (v : Variable Range) (vs : List (Variable Range)) (old : Option Global) :
    (addedTo uri v old).extend uri vs = (old.getD { name := v.name }).extend uri (v :: vs) := by
  simp only [Global.extend, addedTo, contribute_append, Option.or_assoc, List.findSome?_cons, List.flatMap_cons]
  cases nonBlank v.comment <;> rfl

theorem foldl_addedTo (uri : Uri) (vs : List (Variable Range)) (old : Option Global) :
    vs.foldl (fun g v => some (addedTo uri v g)) old = (old.or (Global.fresh vs)).map (Global.extend uri vs) := by
  induction vs generalizing old with
  | nil => cases old <;> simp [Global.fresh, Global.extend, contribute_nil]
  | cons v vs ih =>
      rw [List.foldl_cons, ih, Option.some_or, Option.map_some, extend_addedTo]
      cases old <;> rfl

theorem globals_apply (c : Call) (s : Store) :
    (c.apply s).tables.globals =
      (c.tracked.foldl (addGlobal c.uri) (s.tables.globals.map fun _ g => g.forget c.uri)).filter
        fun _ g => g.isDefined || g.isUsed := by
  cases c <;> rfl

theorem getElem?_globals_apply (c : Call) (s : Store) (key : String) :
    (c.apply s).tables.globals[key]? =
      (((s.tables.globals[key]?).or (Global.fresh (c.variablesAt key))).map (Global.renew c.uri (c.variablesAt key))).filter
        fun g => g.isDefined || g.isUsed := by
  -- a new global has nothing to forget
  have hfresh : (Global.fresh (c.variablesAt key)).map (Global.renew c.uri (c.variablesAt key)) =
      (Global.fresh (c.variablesAt key)).map (Global.extend c.uri (c.variablesAt key)) := by
    cases hf : (c.variablesAt key).head? <;> simp [Global.fresh, hf, Global.renew, Global.forget]
  rw [globals_apply, ExtTreeMap.getElem?_filter', getElem?_addGlobals, foldl_addedTo, ExtTreeMap.getElem?_map]
  congr 1
  cases s.tables.globals[key]? with
  | none => simpa [Call.variablesAt] using hfresh.symm
  | some g => rfl

theorem placesIn_apply (c : Call) (s : Store) (m : Mention) (key : String) (u : Uri) :
    placesIn (c.apply s).tables.globals m key u =
      if c.uri = u then gathered c.tracked m key else placesIn s.tables.globals m key u := by
  rw [globals_apply, placesIn_sweep, placesIn_addGlobals, placesIn_forget]
  by_cases h : c.uri = u <;> simp [h]

theorem mem_globals_apply (c : Call) (s : Store) (key : String) :
    key ∈ (c.apply s).tables.globals ↔ ∃ m u, placesIn (c.apply s).tables.globals m key u ≠ [] := by
  simp only [globals_apply, mem_swept_iff, placesIn_sweep]

/-- Every global has a name that goes with its key. -/
def Named (t : Tables) : Prop := ∀ (key : String) (g : Global), t.globals[key]? = some g → Text.lowered g.name = key

theorem Named.apply {s : Store} (h : s.tables.Named) (c : Call) : (c.apply s).tables.Named := by
  intro key g hg
  rw [getElem?_globals_apply, Option.filter_eq_some_iff, Option.map_eq_some_iff] at hg
  obtain ⟨⟨old, hold, rfl⟩, -⟩ := hg
  rw [Global.name_renew]
  rcases Option.or_eq_some_iff.mp hold with hold | ⟨-, hold⟩
  · exact h key old hold
  · exact Global.lowered_fresh hold

end Tables

/-! ## Macros -/

namespace GlobalMacro

def fresh (os : List MacroOccurrence) : Option GlobalMacro := os.head?.map fun o => { name := o.name }

/-- The macro with all that some occurrences say about it; the last one decides on the arguments. -/
def extend (uri : Uri) (os : List MacroOccurrence) (m : GlobalMacro) : GlobalMacro :=
  match os.getLast? with
  | none => m
  | some o =>
    { m with
      arguments := o.arguments
      definitions := m.definitions.alter uri fun ds => some (ds.getD [] ++ os.flatMap (·.definitions)) }

/-- The macro with what a document says now in place of what it said before. -/
def renew (uri : Uri) (os : List MacroOccurrence) (m : GlobalMacro) : GlobalMacro := (m.forget uri).extend uri os

theorem name_renew (uri : Uri) (os : List MacroOccurrence) (m : GlobalMacro) : (m.renew uri os).name = m.name := by
  unfold renew extend
  split <;> rfl

theorem arguments_renew (uri : Uri) (os : List MacroOccurrence) (m : GlobalMacro) :
    (m.renew uri os).arguments = (os.getLast?.map (·.arguments)).getD m.arguments := by
  unfold renew extend
  split
  · next h => simp [h, forget]
  · next h => simp [h]

/-- What a document has in the table of a macro that it mentions so; it need not define it. -/
def share (os : List MacroOccurrence) : Option (List MacroDefinition) :=
  if os = [] then none else some (os.flatMap (·.definitions))

theorem getElem?_definitions_renew (uri : Uri) (os : List MacroOccurrence) (m : GlobalMacro) (u : Uri) :
    (m.renew uri os).definitions[u]? = if uri = u then share os else m.definitions[u]? := by
  unfold renew extend
  split
  · next h =>
    have hos : os = [] := List.getLast?_eq_none_iff.mp h
    by_cases hu : uri = u <;> simp [forget, share, hos, ExtTreeMap.getElem?_erase, hu]
  · next o h =>
    have hos : os ≠ [] := by rintro rfl; cases h
    by_cases hu : uri = u
    · subst hu; simp [forget, share, hos]
    · simp [forget, ExtTreeMap.getElem?_alter, ExtTreeMap.getElem?_erase, hu]

end GlobalMacro

namespace Tables

/-- The macro after one more occurrence, or a new one. -/
def definedBy (uri : Uri) (o : MacroOccurrence) (old : Option GlobalMacro) : GlobalMacro :=
  let m := old.getD { name := o.name }
  { m with
    arguments := o.arguments
    definitions := m.definitions.alter uri fun ds => some (ds.getD [] ++ o.definitions) }

theorem getElem?_addMacro (uri : Uri) (macros : ExtTreeMap String GlobalMacro) (o : MacroOccurrence) (key : String) :
    (addMacro uri macros o)[key]? =
      if Text.lowered o.name = key then some (definedBy uri o macros[key]?) else macros[key]? := by
  unfold addMacro
  rw [ExtTreeMap.getElem?_alter]
  by_cases h : Text.lowered o.name = key
  · subst h; simp [definedBy]
  · simp [h]

theorem getElem?_addMacros (uri : Uri) (os : List MacroOccurrence) (macros : ExtTreeMap String GlobalMacro) (key : String) :
    (os.foldl (addMacro uri) macros)[key]? =
      (os.filter fun o => Text.lowered o.name = key).foldl (fun m o => some (definedBy uri o m)) macros[key]? := by
  induction os generalizing macros with
  | nil => rfl
  | cons o os ih =>
      rw [List.foldl_cons, ih, getElem?_addMacro]
      by_cases h : Text.lowered o.name = key <;> simp [h]

theorem extend_definedBy (uri : Uri) (o : MacroOccurrence) (os : List MacroOccurrence) (old : Option GlobalMacro) :
    (definedBy uri o old).extend uri os = (old.getD { name := o.name }).extend uri (o :: os) := by
  cases os with
  | nil => simp [definedBy, GlobalMacro.extend]
  | cons o' os =>
      -- both occurrences append to the same list
      have halter (table : ExtTreeMap Uri (List MacroDefinition)) (as bs : List MacroDefinition) :
          ((table.alter uri fun ds => some (ds.getD [] ++ as)).alter uri fun ds => some (ds.getD [] ++ bs)) =
            table.alter uri fun ds => some (ds.getD [] ++ (as ++ bs)) := by
        apply ExtTreeMap.ext_getElem?
        intro u
        by_cases hu : uri = u
        · subst hu; simp
        · simp [ExtTreeMap.getElem?_alter, hu]
      cases hlast : (o' :: os).getLast? with
      | none => simp at hlast
      | some last => simp [definedBy, GlobalMacro.extend, List.getLast?_cons, halter]

theorem foldl_definedBy (uri : Uri) (os : List MacroOccurrence) (old : Option GlobalMacro) :
    os.foldl (fun m o => some (definedBy uri o m)) old = (old.or (GlobalMacro.fresh os)).map (GlobalMacro.extend uri os) := by
  induction os generalizing old with
  | nil => cases old <;> simp [GlobalMacro.fresh, GlobalMacro.extend]
  | cons o os ih =>
      rw [List.foldl_cons, ih, Option.some_or, Option.map_some, extend_definedBy]
      cases old <;> rfl

def keeps (settings : Settings) (m : GlobalMacro) : Bool := !settings.evictOrphanMacros || m.isDefined

theorem macros_apply (c : Call) (s : Store) :
    (c.apply s).tables.macros =
      (c.occurrences.foldl (addMacro c.uri) (s.tables.macros.map fun _ m => m.forget c.uri)).filter
        fun _ m => keeps c.settings m := by
  have hkeeps (settings : Settings) (macros : ExtTreeMap String GlobalMacro) :
      (if settings.evictOrphanMacros then macros.filter fun _ m => m.isDefined else macros) =
        macros.filter fun _ m => keeps settings m := by
    apply ExtTreeMap.ext_getElem?
    intro key
    cases he : settings.evictOrphanMacros with
    | false => cases hm : macros[key]? <;> simp [keeps, he, hm, Option.filter]
    | true => simp [keeps, he]
  cases c with
  | reconcile settings owns uri report => exact hkeeps settings _
  | remove settings uri => exact hkeeps settings _

theorem getElem?_macros_apply (c : Call) (s : Store) (key : String) :
    (c.apply s).tables.macros[key]? =
      (((s.tables.macros[key]?).or (GlobalMacro.fresh (c.macrosAt key))).map (GlobalMacro.renew c.uri (c.macrosAt key))).filter
        (keeps c.settings) := by
  have hfresh : (GlobalMacro.fresh (c.macrosAt key)).map (GlobalMacro.renew c.uri (c.macrosAt key)) =
      (GlobalMacro.fresh (c.macrosAt key)).map (GlobalMacro.extend c.uri (c.macrosAt key)) := by
    cases hf : (c.macrosAt key).head? <;> simp [GlobalMacro.fresh, hf, GlobalMacro.renew, GlobalMacro.forget]
  rw [macros_apply, ExtTreeMap.getElem?_filter', getElem?_addMacros, foldl_definedBy, ExtTreeMap.getElem?_map]
  congr 1
  cases s.tables.macros[key]? with
  | none => simpa [Call.macrosAt] using hfresh.symm
  | some m => rfl

end Tables

end SqfIndex
