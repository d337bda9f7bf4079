import Mathlib.Data.List.Nodup
import SqfIndex.Proofs.Symbol.Macros
import SqfIndex.Proofs.Symbol.Warnings

/-!
# Calls that are made again

Some calls about different documents are made one after the other, and then all of them again. After
the first run the tables are `Settled`: every document contributes what its call says. A call of a later
run then does no more than renew the entries that are there (`Settled.apply_eq`), so the keys, the places
and the names stay, and a third run changes nothing at all (`run_third`). For one call already the second
time changes nothing (`apply_apply`).
-/

namespace SqfIndex

open Std (ExtTreeMap)

def Store.run (s : Store) (calls : List Call) : Store := calls.foldl Call.apply s

@[simp] theorem Store.run_nil (s : Store) : s.run [] = s := rfl

@[simp] theorem Store.run_cons (s : Store) (c : Call) (calls : List Call) : s.run (c :: calls) = (c.apply s).run calls := rfl

@[simp] theorem Store.run_append (s : Store) (calls calls' : List Call) : s.run (calls ++ calls') = (s.run calls).run calls' :=
  List.foldl_append

/-! ## Renewing an entry by several calls -/

namespace Global

def renewAll (calls : List Call) (key : String) (g : Global) : Global :=
  calls.foldl (fun g c => g.renew c.uri (c.variablesAt key)) g

theorem renewAll_append (calls : List Call) (c : Call) (key : String) (g : Global) :
    g.renewAll (calls ++ [c]) key = (g.renewAll calls key).renew c.uri (c.variablesAt key) := by
  simp [renewAll]

theorem eq_of_places {g h : Global} (hname : g.name = h.name) (hcomment : g.comment = h.comment)
    (hplaces : ∀ m, g.places m = h.places m) : g = h := by
  have hd : g.definitions = h.definitions := hplaces .definition
  have hu : g.usages = h.usages := hplaces .usage
  cases g
  cases h
  simp_all

theorem name_renewAll (calls : List Call) (key : String) (g : Global) : (g.renewAll calls key).name = g.name := by
  induction calls using List.reverseRecOn with
  | nil => rfl
  | append_singleton calls c ih => rw [renewAll_append, name_renew, ih]

theorem comment_renewAll (calls : List Call) (key : String) (g : Global) :
    (g.renewAll calls key).comment =
      g.comment.or (calls.findSome? fun c => (c.variablesAt key).findSome? fun v => Tables.nonBlank v.comment) := by
  induction calls using List.reverseRecOn with
  | nil => simp [renewAll]
  | append_singleton calls c ih => rw [renewAll_append, comment_renew, ih, Option.or_assoc, List.findSome?_append]; simp

theorem getElem?_places_renewAll (calls : List Call) (key : String) (g : Global) (m : Mention) (u : Uri) :
    ((g.renewAll calls key).places m)[u]? =
      (calls.reverse.find? (·.uri = u)).elim (g.places m)[u]? fun c =>
        Tables.present ((c.variablesAt key).flatMap (·.places m)) := by
  induction calls using List.reverseRecOn with
  | nil => rfl
  | append_singleton calls c ih =>
      rw [renewAll_append, places_renew, Tables.getElem?_contribute_erase, ih]
      by_cases hu : c.uri = u <;> simp [hu]

theorem renewAll_renewAll (calls : List Call) (key : String) (g : Global) :
    (g.renewAll calls key).renewAll calls key = g.renewAll calls key := by
  refine eq_of_places (by simp only [name_renewAll]) ?_ ?_
  · simp only [comment_renewAll, Option.or_assoc, Option.or_self]
  · intro m
    apply ExtTreeMap.ext_getElem?
    intro u
    rw [getElem?_places_renewAll calls key (g.renewAll calls key), getElem?_places_renewAll]
    cases calls.reverse.find? (·.uri = u) <;> rfl

end Global

namespace GlobalMacro

def renewAll (calls : List Call) (key : String) (m : GlobalMacro) : GlobalMacro :=
  calls.foldl (fun m c => m.renew c.uri (c.macrosAt key)) m

theorem renewAll_append (calls : List Call) (c : Call) (key : String) (m : GlobalMacro) :
    m.renewAll (calls ++ [c]) key = (m.renewAll calls key).renew c.uri (c.macrosAt key) := by
  simp [renewAll]

theorem name_renewAll (calls : List Call) (key : String) (m : GlobalMacro) : (m.renewAll calls key).name = m.name := by
  induction calls using List.reverseRecOn with
  | nil => rfl
  | append_singleton calls c ih => rw [renewAll_append, name_renew, ih]

theorem arguments_renewAll (calls : List Call) (key : String) (m : GlobalMacro) :
    (m.renewAll calls key).arguments =
      ((calls.flatMap (·.macrosAt key)).getLast?.map (·.arguments)).getD m.arguments := by
  induction calls using List.reverseRecOn with
  | nil => rfl
  | append_singleton calls c ih =>
      rw [renewAll_append, arguments_renew, ih, List.flatMap_append, List.flatMap_singleton, List.getLast?_append]
      cases (c.macrosAt key).getLast? <;> rfl

theorem getElem?_definitions_renewAll (calls : List Call) (key : String) (m : GlobalMacro) (u : Uri) :
    (m.renewAll calls key).definitions[u]? =
      (calls.reverse.find? (·.uri = u)).elim m.definitions[u]? fun c => share (c.macrosAt key) := by
  induction calls using List.reverseRecOn with
  | nil => rfl
  | append_singleton calls c ih =>
      rw [renewAll_append, getElem?_definitions_renew, ih]
      by_cases hu : c.uri = u <;> simp [hu]

theorem renewAll_renewAll (calls : List Call) (key : String) (m : GlobalMacro) :
    (m.renewAll calls key).renewAll calls key = m.renewAll calls key := by
  have hname : ((m.renewAll calls key).renewAll calls key).name = (m.renewAll calls key).name := name_renewAll _ _ _
  have harguments : ((m.renewAll calls key).renewAll calls key).arguments = (m.renewAll calls key).arguments := by
    rw [arguments_renewAll calls key (m.renewAll calls key), arguments_renewAll]
    cases (calls.flatMap (·.macrosAt key)).getLast? <;> rfl
  have hdefinitions : ((m.renewAll calls key).renewAll calls key).definitions = (m.renewAll calls key).definitions := by
    apply ExtTreeMap.ext_getElem?
    intro u
    rw [getElem?_definitions_renewAll calls key (m.renewAll calls key), getElem?_definitions_renewAll]
    cases calls.reverse.find? (·.uri = u) <;> rfl
  revert hname harguments hdefinitions
  cases (m.renewAll calls key).renewAll calls key
  cases m.renewAll calls key
  simp_all

end GlobalMacro

namespace Tables

/-- The tables with every entry renewed by some calls. -/
def renewAll (calls : List Call) (t : Tables) : Tables :=
  { t with
    globals := t.globals.map (Global.renewAll calls)
    macros := t.macros.map (GlobalMacro.renewAll calls) }

theorem map_eq_self {α : Type} {table : ExtTreeMap String α} {f : String → α → α}
    (h : ∀ key a, table[key]? = some a → f key a = a) : table.map f = table := by
  apply ExtTreeMap.ext_getElem?
  intro key
  rw [ExtTreeMap.getElem?_map]
  cases ha : table[key]? with
  | none => rfl
  | some a => exact congrArg some (h key a ha)

theorem renewAll_nil (t : Tables) : t.renewAll [] = t := by
  calc t.renewAll [] = { t with globals := t.globals.map fun _ g => g, macros := t.macros.map fun _ m => m } := rfl
    _ = t := by rw [map_eq_self fun _ _ _ => rfl, map_eq_self fun _ _ _ => rfl]

theorem renewAll_cons (c : Call) (calls : List Call) (t : Tables) :
    t.renewAll (c :: calls) = (t.renewAll [c]).renewAll calls := by
  simp only [renewAll, ExtTreeMap.map_map]
  rfl

theorem renewAll_renewAll (calls : List Call) (t : Tables) : (t.renewAll calls).renewAll calls = t.renewAll calls := by
  simp only [renewAll, ExtTreeMap.map_map, Global.renewAll_renewAll, GlobalMacro.renewAll_renewAll]

/-! ## Tables that agree -/

/-- Two tables that differ at most in comments and in the arguments of macros. -/
structure Agrees (t t' : Tables) : Prop where
  locals : t'.locals = t.locals
  globals : ∀ key, key ∈ t'.globals ↔ key ∈ t.globals
  names : ∀ key, t'.nameOf key = t.nameOf key
  places : ∀ m key u, placesIn t'.globals m key u = placesIn t.globals m key u
  macros : ∀ key, key ∈ t'.macros ↔ key ∈ t.macros
  definitions : ∀ key u, definitionsIn t'.macros key u = definitionsIn t.macros key u

theorem Agrees.refl (t : Tables) : Agrees t t where
  locals := rfl
  globals _ := Iff.rfl
  names _ := rfl
  places _ _ _ := rfl
  macros _ := Iff.rfl
  definitions _ _ := rfl

theorem Agrees.trans {t t' t'' : Tables} (h : Agrees t t') (h' : Agrees t' t'') : Agrees t t'' where
  locals := h'.locals.trans h.locals
  globals key := (h'.globals key).trans (h.globals key)
  names key := (h'.names key).trans (h.names key)
  places m key u := (h'.places m key u).trans (h.places m key u)
  macros key := (h'.macros key).trans (h.macros key)
  definitions key u := (h'.definitions key u).trans (h.definitions key u)

theorem Agrees.undefined {t t' : Tables} (h : Agrees t t') (settings : Settings) (owns : String → Bool) (uri : Uri) (r : Report) :
    t'.undefined settings owns uri r = t.undefined settings owns uri r := by
  have hunexplained (key : String) : Unexplained settings t' key ↔ Unexplained settings t key := by
    simp only [Unexplained, h.places, h.names, h.macros]
  unfold Tables.undefined
  congr 1
  funext key
  rw [undefinedAt_eq, undefinedAt_eq, h.places, h.names]
  by_cases hu : Unexplained settings t key
  · rw [if_pos hu, if_pos ((hunexplained key).mpr hu)]
  · rw [if_neg hu, if_neg (mt (hunexplained key).mp hu)]

/-! ## Settled tables -/

theorem getElem?_locals_apply (c : Call) (s : Store) (u : Uri) :
    (c.apply s).tables.locals[u]? =
      if c.uri = u then c.account?.map fun a => localsOf a.report.vars else s.tables.locals[u]? := by
  cases c with
  | reconcile settings owns uri report =>
      show (s.tables.locals.insert uri (localsOf report.vars))[u]? = _
      by_cases hu : uri = u <;> simp [ExtTreeMap.getElem?_insert, Call.uri, Call.account?, hu]
  | remove settings uri =>
      show (s.tables.locals.erase uri)[u]? = _
      by_cases hu : uri = u <;> simp [ExtTreeMap.getElem?_erase, Call.uri, Call.account?, hu]

/-- The documents of some calls contribute what the calls say. -/
structure Told (evict : Bool) (calls : List Call) (t : Tables) : Prop where
  locals : ∀ c ∈ calls, t.locals[c.uri]? = c.account?.map fun a => localsOf a.report.vars
  places : ∀ c ∈ calls, ∀ m key, placesIn t.globals m key c.uri = gathered c.tracked m key
  definitions : ∀ c ∈ calls, ∀ key, definitionsIn t.macros key c.uri = (c.macrosAt key).flatMap (·.definitions)
  mentions : evict = false → ∀ c ∈ calls, ∀ key, c.macrosAt key ≠ [] → key ∈ t.macros

/-- The documents of some calls contribute what the calls say, and the tables have been swept. -/
structure Settled (evict : Bool) (calls : List Call) (t : Tables) : Prop extends Told evict calls t where
  globals : ∀ key, key ∈ t.globals ↔ ∃ m u, placesIn t.globals m key u ≠ []
  macros : evict = true → ∀ key, key ∈ t.macros ↔ ∃ u, definitionsIn t.macros key u ≠ []

variable {evict : Bool} {calls : List Call} {s : Store}

/-- What a call replaces for its document only: afterwards it is right for this document as well. -/
theorem told_append {α : Type} {old new : Uri → α} {said : Call → α} {c : Call} (hnew : ∀ c' ∈ calls, c.uri ≠ c'.uri)
    (happly : ∀ u, new u = if c.uri = u then said c else old u) (h : ∀ c' ∈ calls, old c'.uri = said c') :
    ∀ c' ∈ calls ++ [c], new c'.uri = said c' := by
  intro c' hc'
  rw [happly]
  rcases List.mem_append.mp hc' with hc' | hc'
  · rw [if_neg (hnew c' hc'), h c' hc']
  · rw [List.mem_singleton.mp hc', if_pos rfl]

/-- A call that says what is there already replaces nothing. -/
theorem told_again {α : Type} {old new : Uri → α} {said : α} {c : Call}
    (happly : ∀ u, new u = if c.uri = u then said else old u) (h : old c.uri = said) (u : Uri) : new u = old u := by
  rw [happly]
  split
  · next hu => rw [← hu, h]
  · rfl

theorem Told.apply (h : Told evict calls s.tables) {c : Call} (hc : c.settings.evictOrphanMacros = evict)
    (hnew : ∀ c' ∈ calls, c.uri ≠ c'.uri) : Told evict (calls ++ [c]) (c.apply s).tables where
  locals := told_append hnew (getElem?_locals_apply c s) h.locals
  places c' hc' m key := told_append hnew (placesIn_apply c s m key) (fun c hc => h.places c hc m key) c' hc'
  definitions c' hc' key := told_append hnew (definitionsIn_apply c s key) (fun c hc => h.definitions c hc key) c' hc'
  mentions := by
    intro hkeep c' hc' key hkey
    rw [mem_macros_apply_of_keep (hc.trans hkeep)]
    rcases List.mem_append.mp hc' with hc' | hc'
    · exact Or.inl (h.mentions hkeep c' hc' key hkey)
    · exact Or.inr (List.mem_singleton.mp hc' ▸ hkey)

theorem told_run (hdistinct : (calls.map Call.uri).Nodup) (hevict : ∀ c ∈ calls, c.settings.evictOrphanMacros = evict)
    (s : Store) : Told evict calls (s.run calls).tables := by
  induction calls using List.reverseRecOn with
  | nil => exact ⟨by simp, by simp, by simp, by simp⟩
  | append_singleton calls c ih =>
      rw [List.map_append, List.nodup_append] at hdistinct
      obtain ⟨hdistinct, -, hnew⟩ := hdistinct
      rw [Store.run_append]
      -- the call does not touch what the earlier ones said, since it is about another document
      refine (ih hdistinct fun c' hc' => hevict c' (by simp [hc'])).apply (hevict c (by simp)) ?_
      intro c' hc'
      exact (hnew c'.uri (List.mem_map_of_mem hc') c.uri (by simp)).symm

theorem Told.settled {c : Call} (h : Told evict calls (c.apply s).tables) (hc : c.settings.evictOrphanMacros = evict) :
    Settled evict calls (c.apply s).tables where
  toTold := h
  globals := mem_globals_apply c s
  macros hevict := mem_macros_apply_of_evict (hc.trans hevict) s

theorem settled_run (hdistinct : (calls.map Call.uri).Nodup) (hevict : ∀ c ∈ calls, c.settings.evictOrphanMacros = evict)
    (hne : calls ≠ []) (s : Store) : Settled evict calls (s.run calls).tables := by
  have htold := told_run hdistinct hevict s
  cases calls using List.reverseRecOn with
  | nil => exact absurd rfl hne
  | append_singleton calls c =>
      rw [Store.run_append] at htold ⊢
      exact htold.settled (hevict c (by simp))

/-! ## Calls on settled tables -/

theorem eq_map_of_isSome {α : Type} {old new fresh : Option α} {renew : α → α} {keep : α → Bool}
    (hnew : new = ((old.or fresh).map renew).filter keep) (hsome : new.isSome = old.isSome) : new = old.map renew := by
  cases old with
  | none => simpa using hsome
  | some a =>
      cases hk : keep (renew a) with
      | true => simp [hnew, Option.filter, hk]
      | false => simp [hnew, Option.filter, hk] at hsome

theorem Settled.placesIn_apply (h : Settled evict calls s.tables) {c : Call} (hc : c ∈ calls) (m : Mention) (key : String)
    (u : Uri) : placesIn (c.apply s).tables.globals m key u = placesIn s.tables.globals m key u :=
  told_again (Tables.placesIn_apply c s m key) (h.places c hc m key) u

theorem Settled.definitionsIn_apply (h : Settled evict calls s.tables) {c : Call} (hc : c ∈ calls) (key : String) (u : Uri) :
    definitionsIn (c.apply s).tables.macros key u = definitionsIn s.tables.macros key u :=
  told_again (Tables.definitionsIn_apply c s key) (h.definitions c hc key) u

theorem Settled.mem_globals_apply (h : Settled evict calls s.tables) {c : Call} (hc : c ∈ calls) (key : String) :
    key ∈ (c.apply s).tables.globals ↔ key ∈ s.tables.globals := by
  rw [Tables.mem_globals_apply, h.globals]
  simp only [h.placesIn_apply hc]

theorem Settled.mem_macros_apply (h : Settled evict calls s.tables) {c : Call} (hc : c ∈ calls)
    (hevict : c.settings.evictOrphanMacros = evict) (key : String) :
    key ∈ (c.apply s).tables.macros ↔ key ∈ s.tables.macros := by
  cases evict with
  | true =>
      rw [mem_macros_apply_of_evict hevict, h.macros rfl]
      simp only [h.definitionsIn_apply hc]
  | false =>
      rw [mem_macros_apply_of_keep hevict]
      exact ⟨fun hkey => hkey.elim id (h.mentions rfl c hc key), Or.inl⟩

/-- A call that the tables know already renews the entries that are there. -/
theorem Settled.apply_eq (h : Settled evict calls s.tables) {c : Call} (hc : c ∈ calls)
    (hevict : c.settings.evictOrphanMacros = evict) : (c.apply s).tables = s.tables.renewAll [c] := by
  have hlocals : (c.apply s).tables.locals = s.tables.locals := by
    apply ExtTreeMap.ext_getElem?
    intro u
    exact told_again (getElem?_locals_apply c s) (h.locals c hc) u
  have hglobals : (c.apply s).tables.globals = s.tables.globals.map (Global.renewAll [c]) := by
    apply ExtTreeMap.ext_getElem?
    intro key
    rw [ExtTreeMap.getElem?_map]
    have hmem := h.mem_globals_apply hc key
    rw [ExtTreeMap.mem_iff_isSome_getElem?, ExtTreeMap.mem_iff_isSome_getElem?] at hmem
    exact eq_map_of_isSome (getElem?_globals_apply c s key) (Bool.eq_iff_iff.mpr hmem)
  have hmacros : (c.apply s).tables.macros = s.tables.macros.map (GlobalMacro.renewAll [c]) := by
    apply ExtTreeMap.ext_getElem?
    intro key
    rw [ExtTreeMap.getElem?_map]
    have hmem := h.mem_macros_apply hc hevict key
    rw [ExtTreeMap.mem_iff_isSome_getElem?, ExtTreeMap.mem_iff_isSome_getElem?] at hmem
    exact eq_map_of_isSome (getElem?_macros_apply c s key) (Bool.eq_iff_iff.mpr hmem)
  unfold renewAll
  rw [← hlocals, ← hglobals, ← hmacros]

theorem Settled.agrees_apply (h : Settled evict calls s.tables) {c : Call} (hc : c ∈ calls)
    (hevict : c.settings.evictOrphanMacros = evict) : Agrees s.tables (c.apply s).tables where
  locals := by rw [h.apply_eq hc hevict]; rfl
  globals := h.mem_globals_apply hc
  names := by
    intro key
    rw [h.apply_eq hc hevict]
    cases hg : s.tables.globals[key]? <;> simp [nameOf, renewAll, hg, Global.name_renewAll]
  places := h.placesIn_apply hc
  macros := h.mem_macros_apply hc hevict
  definitions := h.definitionsIn_apply hc

theorem Agrees.settled {t t' : Tables} (h : Agrees t t') (hs : Settled evict calls t) : Settled evict calls t' where
  locals c hc := by rw [h.locals, hs.locals c hc]
  places c hc m key := by rw [h.places, hs.places c hc]
  definitions c hc key := by rw [h.definitions, hs.definitions c hc]
  mentions hkeep c hc key hkey := (h.macros key).mpr (hs.mentions hkeep c hc key hkey)
  globals key := by simp only [h.globals, hs.globals, h.places]
  macros hevict key := by simp only [h.macros, hs.macros hevict, h.definitions]

/-- Calls that the tables know already renew the entries, and the tables stay settled. -/
theorem Settled.run (h : Settled evict calls s.tables) (hevict : ∀ c ∈ calls, c.settings.evictOrphanMacros = evict)
    {again : List Call} (hagain : ∀ c ∈ again, c ∈ calls) :
    Agrees s.tables (s.run again).tables ∧ (s.run again).tables = s.tables.renewAll again := by
  induction again generalizing s with
  | nil => exact ⟨.refl _, (renewAll_nil _).symm⟩
  | cons c again ih =>
      have hc := hagain c (by simp)
      have hstep := h.agrees_apply hc (hevict c hc)
      obtain ⟨hagrees, heq⟩ := ih (hstep.settled h) fun c' hc' => hagain c' (by simp [hc'])
      refine ⟨hstep.trans hagrees, ?_⟩
      rw [Store.run_cons, heq, h.apply_eq hc (hevict c hc), renewAll_cons c again]

end Tables

/-! ## Second and third runs -/

section

variable {evict : Bool} {calls : List Call}

theorem Store.index_run {calls : List Call} (hne : calls ≠ []) (s : Store) : (s.run calls).index = none := by
  cases calls using List.reverseRecOn with
  | nil => exact absurd rfl hne
  | append_singleton calls c =>
      rw [Store.run_append]
      cases c <;> rfl

theorem Store.eq_of_tables {s s' : Store} (h : s.tables = s'.tables) (hindex : s.index = s'.index) : s = s' := by
  cases s
  cases s'
  simp_all

theorem Store.run_third (hdistinct : (calls.map Call.uri).Nodup)
    (hevict : ∀ c ∈ calls, c.settings.evictOrphanMacros = evict) (s : Store) :
    ((s.run calls).run calls).run calls = (s.run calls).run calls := by
  by_cases hne : calls = []
  · simp [hne]
  · have hsettled := Tables.settled_run hdistinct hevict hne s
    obtain ⟨hagrees, hsecond⟩ := hsettled.run hevict fun c hc => hc
    obtain ⟨-, hthird⟩ := (hagrees.settled hsettled).run hevict fun c hc => hc
    -- the second run renews every entry, and so does the third, which is no different from doing it once
    refine Store.eq_of_tables ?_ (by simp only [Store.index_run hne])
    rw [hthird, hsecond, Tables.renewAll_renewAll]

/-- What a reconciliation of the second run warns about is read off the tables at its end. -/
theorem Store.warnings_of_second_run (hdistinct : (calls.map Call.uri).Nodup)
    (hevict : ∀ c ∈ calls, c.settings.evictOrphanMacros = evict) (s : Store) {before after : List Call}
    {settings : Settings} {owns : String → Bool} {uri : Uri} {r : Report}
    (hcalls : calls = before ++ .reconcile settings owns uri r :: after) :
    (((s.run calls).run before).reconcile settings owns uri r).2 =
      ((s.run calls).run calls).tables.undefined settings owns uri r := by
  have hne : calls ≠ [] := by simp [hcalls]
  have hsettled := Tables.settled_run hdistinct hevict hne s
  have hmet : ∀ c ∈ before ++ [.reconcile settings owns uri r], c ∈ calls := by
    intro c hc
    simp only [List.mem_append, List.mem_singleton] at hc
    simp only [hcalls, List.mem_append, List.mem_cons]
    tauto
  -- the tables right after the call agree with those at the end, as both agree with those before the run
  have hthen := (hsettled.run hevict hmet).1
  have hend := (hsettled.run hevict fun c hc => hc).1
  rw [hend.undefined, ← hthen.undefined, Store.run_append]
  rfl

end

/-! ## One call twice -/

namespace Tables

theorem renewAll_apply (c : Call) (s : Store) : (c.apply s).tables.renewAll [c] = (c.apply s).tables := by
  -- whatever the store was, each entry that a call leaves is one that it has renewed
  have hglobals : (c.apply s).tables.globals.map (Global.renewAll [c]) = (c.apply s).tables.globals := by
    refine map_eq_self ?_
    intro key g hg
    rw [getElem?_globals_apply, Option.filter_eq_some_iff, Option.map_eq_some_iff] at hg
    obtain ⟨⟨old, -, rfl⟩, -⟩ := hg
    exact Global.renewAll_renewAll [c] key old
  have hmacros : (c.apply s).tables.macros.map (GlobalMacro.renewAll [c]) = (c.apply s).tables.macros := by
    refine map_eq_self ?_
    intro key m hm
    rw [getElem?_macros_apply, Option.filter_eq_some_iff, Option.map_eq_some_iff] at hm
    obtain ⟨⟨old, -, rfl⟩, -⟩ := hm
    exact GlobalMacro.renewAll_renewAll [c] key old
  unfold renewAll
  rw [hglobals, hmacros]

end Tables

theorem Call.apply_apply (c : Call) (s : Store) : c.apply (c.apply s) = c.apply s := by
  have hsettled : Tables.Settled c.settings.evictOrphanMacros [c] (s.run [c]).tables :=
    Tables.settled_run (by simp) (by simp) (by simp) s
  rw [Store.run_cons, Store.run_nil] at hsettled
  have htables : (c.apply (c.apply s)).tables = (c.apply s).tables := by
    rw [hsettled.apply_eq (List.mem_singleton_self c) rfl, Tables.renewAll_apply]
  refine Store.eq_of_tables htables ?_
  cases c <;> rfl

/-- Taking the same report in twice is no different from taking it in once, in any store: the tables, the index
and the warnings are the same. -/
theorem Store.reconcile_twice (settings : Settings) (owns : String → Bool) (uri : Uri) (r : Report) (s : Store) :
    (s.reconcile settings owns uri r).1.reconcile settings owns uri r = s.reconcile settings owns uri r := by
  have hstore : ((s.reconcile settings owns uri r).1.reconcile settings owns uri r).1 =
      (s.reconcile settings owns uri r).1 := Call.apply_apply (.reconcile settings owns uri r) s
  -- the warnings are read off the tables that a reconciliation leaves
  have hwarnings (s : Store) : (s.reconcile settings owns uri r).2 =
      (s.reconcile settings owns uri r).1.tables.undefined settings owns uri r := rfl
  refine Prod.ext hstore ?_
  rw [hwarnings, hstore, ← hwarnings]

end SqfIndex
