import Mathlib.Data.List.Induction
import SqfIndex.Proofs.Symbol.Places

/-!
# The tables after any calls

The store is changed by reconciling and by removing documents. After any sequence of such calls the
places in the tables are those of the last call about each document: `tables_reflect_last_calls`. The
invariant is `Reflects`; `Reflects.replace` and `Reflects.remove` keep it.
-/

namespace SqfIndex

open Std (ExtTreeMap)

/-- A change of the store. -/
inductive Call
  | reconcile (settings : Settings) (owns : String → Bool) (uri : Uri) (report : Report)
  | remove (settings : Settings) (uri : Uri)

/-- What a document was reconciled with. -/
structure Account where
  owns : String → Bool
  report : Report

namespace Account

/-- The variables that count as globals. -/
def tracked (a : Account) : List (Variable Range) := a.report.vars.filter (Tables.isTracked a.owns)

/-- The variables that count as locals. -/
def locals (a : Account) : List (Variable Range) := a.report.vars.filter fun v => Name.isLocal v.name

end Account

namespace Call

def uri : Call → Uri
  | reconcile _ _ uri _ => uri
  | remove _ uri => uri

/-- What the document of a call stands for after it; a removed document stands for nothing. -/
def account? : Call → Option Account
  | reconcile _ owns _ report => some ⟨owns, report⟩
  | remove _ _ => none

def apply (s : Store) : Call → Store
  | reconcile settings owns uri report => (s.reconcile settings owns uri report).1
  | remove settings uri => s.remove settings uri

end Call

/-- The store after some calls, from the empty one. -/
def Store.after (calls : List Call) : Store := calls.foldl Call.apply {}

/-- What the last call about a document left it with. A document is live if there is something. -/
def latest (calls : List Call) (u : Uri) : Option Account :=
  (calls.reverse.find? (·.uri = u)).bind (·.account?)

theorem Store.after_append (calls : List Call) (c : Call) :
    Store.after (calls ++ [c]) = c.apply (Store.after calls) := by
  simp [Store.after]

theorem latest_append (calls : List Call) (c : Call) (u : Uri) :
    latest (calls ++ [c]) u = if c.uri = u then c.account? else latest calls u := by
  by_cases h : c.uri = u <;> simp [latest, h]

namespace Tables

/-! ## Locals -/

/-- The local after one more variable of its name, or a new one. -/
def joinedTo (v : Variable Range) (old : Option (Variable Range)) : Variable Range :=
  let l := old.getD { name := v.name }
  { l with
    comment := l.comment.or (nonBlank v.comment)
    definitions := l.definitions ++ v.definitions
    usages := l.usages ++ v.usages }

theorem getElem?_addLocal (table : ExtTreeMap String (Variable Range)) (v : Variable Range) (key : String) :
    (addLocal table v)[key]? =
      if Text.lowered v.name = key then some (joinedTo v table[key]?) else table[key]? := by
  unfold addLocal
  rw [ExtTreeMap.getElem?_alter]
  by_cases h : Text.lowered v.name = key
  · subst h; simp [joinedTo]
  · simp [h]

theorem places_joinedTo (v : Variable Range) (old : Option (Variable Range)) (m : Mention) :
    (joinedTo v old).places m = (old.map (·.places m)).getD [] ++ v.places m := by
  cases old <;> cases m <;> simp [joinedTo, Variable.places]

theorem mem_addLocals (vs : List (Variable Range)) (table : ExtTreeMap String (Variable Range)) (key : String) :
    key ∈ vs.foldl addLocal table ↔ key ∈ table ∨ ∃ v ∈ vs, Text.lowered v.name = key := by
  induction vs generalizing table with
  | nil => simp
  | cons v vs ih =>
      have hadd : key ∈ addLocal table v ↔ key ∈ table ∨ Text.lowered v.name = key := by
        rw [ExtTreeMap.mem_iff_isSome_getElem?, getElem?_addLocal, ExtTreeMap.mem_iff_isSome_getElem?]
        by_cases h : Text.lowered v.name = key <;> simp [h]
      rw [List.foldl_cons, ih, hadd]
      simp [or_assoc]

theorem places_addLocals (vs : List (Variable Range)) (table : ExtTreeMap String (Variable Range))
    (key : String) (m : Mention) :
    (((vs.foldl addLocal table)[key]?).map (Variable.places · m)).getD [] =
      ((table[key]?).map (Variable.places · m)).getD [] ++ gathered vs m key := by
  induction vs generalizing table with
  | nil => simp
  | cons v vs ih =>
      rw [List.foldl_cons, ih, getElem?_addLocal, gathered_cons]
      by_cases h : Text.lowered v.name = key <;> simp [h, places_joinedTo]

theorem localsOf_report (a : Account) : localsOf a.report.vars = a.locals.foldl addLocal ∅ := rfl

/-! ## The invariant -/

/-- The places that a document contributes to a key. -/
def contributed (m : Mention) (key : String) : Option Account → List Range
  | none => []
  | some a => gathered a.tracked m key

/-- The tables hold, for every document, what it stands for, and nothing else. -/
structure Reflects (said : Uri → Option Account) (t : Tables) : Prop where
  locals : ∀ u : Uri, t.locals[u]? = (said u).map fun a => localsOf a.report.vars
  places : ∀ m key u, placesIn t.globals m key u = contributed m key (said u)
  proper : AllProper t.globals
  keys : ∀ key : String, key ∈ t.globals ↔ ∃ m u, placesIn t.globals m key u ≠ []

theorem Reflects.empty : Reflects (fun _ => none) {} where
  locals := by simp
  places := by simp [placesIn, contributed]
  proper := by intro key g h; simp at h
  keys := by simp [placesIn]

theorem Reflects.sweep {said : Uri → Option Account} {t : Tables} (settings : Settings)
    (hlocals : ∀ u : Uri, t.locals[u]? = (said u).map fun a => localsOf a.report.vars)
    (hplaces : ∀ m key u, placesIn t.globals m key u = contributed m key (said u))
    (hproper : AllProper t.globals) : Reflects said (t.sweep settings) where
  locals := hlocals
  places := by
    intro m key u
    rw [← hplaces]
    exact placesIn_sweep t.globals m key u
  proper := hproper.sweep
  keys := by
    intro key
    simp only [Tables.sweep, mem_swept_iff, placesIn_sweep]

theorem Reflects.replace {said : Uri → Option Account} {t : Tables} (h : Reflects said t)
    (settings : Settings) (owns : String → Bool) (uri : Uri) (r : Report) :
    Reflects (fun u => if uri = u then some ⟨owns, r⟩ else said u) (t.replace settings owns uri r) := by
  refine Reflects.sweep settings ?_ ?_ ((h.proper.forget uri).addGlobals uri _)
  · intro u
    by_cases hu : uri = u <;> simp [forget, ExtTreeMap.getElem?_insert, hu, h.locals]
  · intro m key u
    rw [placesIn_addGlobals]
    simp only [forget, placesIn_forget, h.places]
    by_cases hu : uri = u <;> simp [hu, contributed, Account.tracked]

theorem Reflects.remove {said : Uri → Option Account} {t : Tables} (h : Reflects said t)
    (settings : Settings) (uri : Uri) :
    Reflects (fun u => if uri = u then none else said u) (t.remove settings uri) := by
  refine Reflects.sweep settings ?_ ?_ (h.proper.forget uri)
  · intro u
    by_cases hu : uri = u <;> simp [forget, ExtTreeMap.getElem?_erase, hu, h.locals]
  · intro m key u
    simp only [forget, placesIn_forget, h.places]
    by_cases hu : uri = u <;> simp [hu, contributed]

theorem Reflects.apply {said : Uri → Option Account} {s : Store} (h : Reflects said s.tables) (c : Call) :
    Reflects (fun u => if c.uri = u then c.account? else said u) (c.apply s).tables := by
  cases c with
  | reconcile settings owns uri report => exact h.replace settings owns uri report
  | remove settings uri => exact h.remove settings uri

theorem reflects_after (calls : List Call) : Reflects (latest calls) (Store.after calls).tables := by
  induction calls using List.reverseRecOn with
  | nil => exact Reflects.empty
  | append_singleton calls c ih =>
      rw [Store.after_append, show latest (calls ++ [c]) = _ from funext (latest_append calls c)]
      exact ih.apply c

end Tables

/-- After any calls the tables of variables are told by the last call about each document. A document
has locals exactly if it is live, and these are the locals of its report; a global has places of a
document exactly if the tracked variables of its report have some under the key, and it has those; and
a key is that of a global exactly if a live document has places for it. -/
theorem tables_reflect_last_calls (calls : List Call) :
    let t := (Store.after calls).tables
    (∀ u : Uri, u ∈ t.locals ↔ (latest calls u).isSome) ∧
    (∀ (u : Uri) (a : Account), latest calls u = some a → ∃ table, t.locals[u]? = some table ∧
      ∀ key : String, (key ∈ table ↔ ∃ v ∈ a.locals, Text.lowered v.name = key) ∧
        ∀ l, table[key]? = some l → ∀ m, l.places m = Tables.gathered a.locals m key) ∧
    (∀ (m : Mention) (key : String) (u : Uri), ((t.globals[key]?).bind fun g => (g.places m)[u]?) =
      (latest calls u).bind fun a => Tables.present (Tables.gathered a.tracked m key)) ∧
    ∀ key : String, key ∈ t.globals ↔
      ∃ (u : Uri) (a : Account), latest calls u = some a ∧
        (Tables.gathered a.tracked .definition key ≠ [] ∨ Tables.gathered a.tracked .usage key ≠ []) := by
  have h := Tables.reflects_after calls
  refine ⟨?_, ?_, ?_, ?_⟩
  · intro u
    rw [ExtTreeMap.mem_iff_isSome_getElem?, h.locals, Option.isSome_map]
  · intro u a ha
    refine ⟨Tables.localsOf a.report.vars, by rw [h.locals, ha]; rfl, ?_⟩
    intro key
    constructor
    · rw [Tables.localsOf_report, Tables.mem_addLocals]
      simp
    · intro l hl m
      have hp := Tables.places_addLocals a.locals ∅ key m
      rw [← Tables.localsOf_report, hl] at hp
      simpa using hp
  · intro m key u
    rw [h.proper.getElem?_bind, h.places]
    cases latest calls u <;> rfl
  · intro key
    rw [h.keys]
    constructor
    · rintro ⟨m, u, hne⟩
      rw [h.places] at hne
      cases ha : latest calls u with
      | none => simp [ha, Tables.contributed] at hne
      | some a =>
          rw [ha] at hne
          refine ⟨u, a, ha, ?_⟩
          cases m with
          | definition => exact Or.inl hne
          | usage => exact Or.inr hne
    · rintro ⟨u, a, ha, hne | hne⟩
      · exact ⟨.definition, u, by rw [h.places, ha]; exact hne⟩
      · exact ⟨.usage, u, by rw [h.places, ha]; exact hne⟩

end SqfIndex
