import SqfIndex.Proofs.Symbol.Renewal

/-!
# The macro table after any calls

Macros do not live as long as globals do: unless the settings ask for it, a macro stays when no document
defines it any more. `macro_table_of_run` says what the table holds after any calls.
-/

namespace SqfIndex

open Std (ExtTreeMap)

/-! ## One call -/

theorem GlobalMacro.isDefined_iff (m : GlobalMacro) : m.isDefined = true ↔ ∃ u, Tables.entry m.definitions u ≠ [] := by
  rw [GlobalMacro.isDefined, Tables.any_toList_iff]

namespace Tables

/-- The definitions that a document has in the table under a key. -/
def definitionsIn (macros : ExtTreeMap String GlobalMacro) (key : String) (u : Uri) : List MacroDefinition :=
  ((macros[key]?).map fun m => entry m.definitions u).getD []

theorem entry_renew (uri : Uri) (os : List MacroOccurrence) (m : GlobalMacro) (u : Uri) :
    entry (m.renew uri os).definitions u = if uri = u then os.flatMap (·.definitions) else entry m.definitions u := by
  unfold entry
  rw [GlobalMacro.getElem?_definitions_renew]
  by_cases hu : uri = u
  · cases os <;> simp [hu, GlobalMacro.share]
  · simp [hu]

/-- A macro that goes has no definitions, so that none are lost. -/
theorem entry_filter_keeps (settings : Settings) (found : Option GlobalMacro) (u : Uri) :
    ((found.filter (keeps settings)).map fun m => entry m.definitions u).getD [] =
      (found.map fun m => entry m.definitions u).getD [] := by
  cases found with
  | none => rfl
  | some m =>
      cases hk : keeps settings m with
      | true => simp [Option.filter, hk]
      | false =>
          have hundefined : m.isDefined = false := by
            simp only [keeps, Bool.or_eq_false_iff] at hk
            exact hk.2
          have hnone : entry m.definitions u = [] := by
            by_contra hne
            rw [m.isDefined_iff.mpr ⟨u, hne⟩] at hundefined
            cases hundefined
          simp [Option.filter, hk, hnone]

theorem definitionsIn_apply (c : Call) (s : Store) (key : String) (u : Uri) :
    definitionsIn (c.apply s).tables.macros key u =
      if c.uri = u then (c.macrosAt key).flatMap (·.definitions) else definitionsIn s.tables.macros key u := by
  unfold definitionsIn
  rw [getElem?_macros_apply, entry_filter_keeps, Option.map_map]
  cases s.tables.macros[key]? with
  | some m => simp [entry_renew]
  | none =>
      cases hos : c.macrosAt key with
      | nil => simp [GlobalMacro.fresh]
      | cons o os => simp [GlobalMacro.fresh, entry_renew]

theorem mem_of_definitionsIn_ne {macros : ExtTreeMap String GlobalMacro} {key : String} {u : Uri}
    (h : definitionsIn macros key u ≠ []) : key ∈ macros := by
  rw [ExtTreeMap.mem_iff_isSome_getElem?]
  cases hm : macros[key]? with
  | none => simp [definitionsIn, hm] at h
  | some m => rfl

/-- Where orphans go, a call leaves exactly the macros that some document defines. -/
theorem mem_macros_apply_of_evict {c : Call} (hc : c.settings.evictOrphanMacros = true) (s : Store) (key : String) :
    key ∈ (c.apply s).tables.macros ↔ ∃ u, definitionsIn (c.apply s).tables.macros key u ≠ [] := by
  constructor
  · intro h
    obtain ⟨m, hm⟩ := Option.isSome_iff_exists.mp (ExtTreeMap.mem_iff_isSome_getElem?.mp h)
    have hkept := hm
    rw [getElem?_macros_apply, Option.filter_eq_some_iff] at hkept
    have hdefined : m.isDefined = true := by simpa [keeps, hc] using hkept.2
    obtain ⟨u, hu⟩ := m.isDefined_iff.mp hdefined
    exact ⟨u, by simpa [definitionsIn, hm] using hu⟩
  · rintro ⟨u, hu⟩
    exact mem_of_definitionsIn_ne hu

theorem mem_macros_apply_of_keep {c : Call} (hc : c.settings.evictOrphanMacros = false) (s : Store) (key : String) :
    key ∈ (c.apply s).tables.macros ↔ key ∈ s.tables.macros ∨ c.macrosAt key ≠ [] := by
  have hkeeps : keeps c.settings = fun _ => true := by
    funext m
    simp [keeps, hc]
  rw [ExtTreeMap.mem_iff_isSome_getElem?, ExtTreeMap.mem_iff_isSome_getElem?, getElem?_macros_apply, hkeeps]
  cases s.tables.macros[key]? with
  | some m => simp [Option.filter]
  | none => cases hos : c.macrosAt key <;> simp [GlobalMacro.fresh, Option.filter]

/-! ## Runs -/

/-- The definitions that a document stands for under a key. -/
def definitionsOf (key : String) : Option Account → List MacroDefinition
  | none => []
  | some a => (a.report.macros.filter fun o => Text.lowered o.name = key).flatMap (·.definitions)

theorem definitionsOf_account (c : Call) (key : String) :
    definitionsOf key c.account? = (c.macrosAt key).flatMap (·.definitions) := by
  cases c <;> rfl

theorem definitionsIn_after (calls : List Call) (key : String) (u : Uri) :
    definitionsIn (Store.after calls).tables.macros key u = definitionsOf key (latest calls u) := by
  induction calls using List.reverseRecOn with
  | nil => simp [definitionsIn, definitionsOf, latest, Store.after]
  | append_singleton calls c ih =>
      rw [Store.after_append, latest_append, definitionsIn_apply, ih]
      by_cases hu : c.uri = u <;> simp [hu, definitionsOf_account]

theorem mem_macros_after_of_evict {calls : List Call} (h : ∀ c ∈ calls, c.settings.evictOrphanMacros = true) (key : String) :
    key ∈ (Store.after calls).tables.macros ↔ ∃ u, definitionsOf key (latest calls u) ≠ [] := by
  simp only [← definitionsIn_after]
  cases calls using List.reverseRecOn with
  | nil => simp [definitionsIn, Store.after]
  | append_singleton calls c =>
      rw [Store.after_append]
      exact mem_macros_apply_of_evict (h c (by simp)) (Store.after calls) key

theorem mem_macros_after_of_keep {calls : List Call} (h : ∀ c ∈ calls, c.settings.evictOrphanMacros = false) (key : String) :
    key ∈ (Store.after calls).tables.macros ↔ ∃ c ∈ calls, c.macrosAt key ≠ [] := by
  induction calls using List.reverseRecOn with
  | nil => simp [Store.after]
  | append_singleton calls c ih =>
      rw [Store.after_append, mem_macros_apply_of_keep (h c (by simp)), ih fun c' hc' => h c' (by simp [hc'])]
      simp only [List.mem_append, List.mem_singleton, or_and_right, exists_or, exists_eq_left]

/-- The last word on a macro decides on its arguments. If the macro went in between, it came back with
a later word. -/
theorem arguments_after {calls : List Call} {key : String} {m : GlobalMacro}
    (h : (Store.after calls).tables.macros[key]? = some m) :
    ∃ o, (calls.flatMap (·.macrosAt key)).getLast? = some o ∧ m.arguments = o.arguments := by
  induction calls using List.reverseRecOn generalizing m with
  | nil => simp [Store.after] at h
  | append_singleton calls c ih =>
      rw [Store.after_append, getElem?_macros_apply, Option.filter_eq_some_iff, Option.map_eq_some_iff] at h
      obtain ⟨⟨old, hold, rfl⟩, -⟩ := h
      rw [List.flatMap_append, List.flatMap_singleton, List.getLast?_append, GlobalMacro.arguments_renew]
      cases hlast : (c.macrosAt key).getLast? with
      | some o => exact ⟨o, rfl, rfl⟩
      | none =>
          rw [List.getLast?_eq_none_iff.mp hlast] at hold
          obtain ⟨o, ho, harguments⟩ := ih (by simpa [GlobalMacro.fresh] using hold)
          exact ⟨o, ho, harguments⟩

end Tables

/-- After any calls under settings that agree on orphans: a document has the definitions of its last
report and none if it is not live; a macro is in the table exactly if some document defines it, or, where
orphans stay, if some report ever mentioned it; and its arguments are those of its last mention. -/
theorem macro_table_of_run (evict : Bool) (calls : List Call)
    (hevict : ∀ c ∈ calls, c.settings.evictOrphanMacros = evict) (key : String) :
    let macros := (Store.after calls).tables.macros
    (∀ u, Tables.definitionsIn macros key u = Tables.definitionsOf key (latest calls u)) ∧
    (key ∈ macros ↔
      if evict then ∃ u, Tables.definitionsOf key (latest calls u) ≠ []
      else ∃ c ∈ calls, ∃ o ∈ c.occurrences, Text.lowered o.name = key) ∧
    ∀ m, macros[key]? = some m →
      ∃ o, ((calls.flatMap Call.occurrences).filter fun o => Text.lowered o.name = key).getLast? = some o ∧
        m.arguments = o.arguments := by
  refine ⟨fun u => Tables.definitionsIn_after calls key u, ?_, ?_⟩
  · cases evict with
    | true => simpa using Tables.mem_macros_after_of_evict hevict key
    | false => simpa [Call.macrosAt] using Tables.mem_macros_after_of_keep hevict key
  · intro m hm
    rw [List.filter_flatMap]
    exact Tables.arguments_after hm

/-- A document defines a macro and is removed. -/
def definedAndRemoved (evict : Bool) : List Call :=
  [.reconcile { evictOrphanMacros := evict } (fun _ => false) "file:///a"
      { macros := [⟨"M", none, [⟨⟨⟨0, 8⟩, ⟨0, 9⟩⟩, "1", .ofText "/a"⟩]⟩] },
    .remove { evictOrphanMacros := evict } "file:///a"]

theorem orphan_stays_unless_evicted :
    (∀ evict, ∀ c ∈ definedAndRemoved evict, c.settings.evictOrphanMacros = evict) ∧
      "m" ∈ (Store.after (definedAndRemoved false)).tables.macros ∧
      "m" ∉ (Store.after (definedAndRemoved true)).tables.macros := by
  have hevict : ∀ evict, ∀ c ∈ definedAndRemoved evict, c.settings.evictOrphanMacros = evict := by
    simp [definedAndRemoved, Call.settings]
  refine ⟨hevict, ?_, ?_⟩
  · rw [(macro_table_of_run false _ (hevict false) "m").2.1]
    exact ⟨_, List.mem_cons_self, _, List.mem_cons_self, by decide +kernel⟩
  · rw [(macro_table_of_run true _ (hevict true) "m").2.1]
    rintro ⟨u, hu⟩
    by_cases h : "file:///a" = u <;> simp [definedAndRemoved, latest, Call.uri, Call.account?, h, Tables.definitionsOf] at hu

end SqfIndex
