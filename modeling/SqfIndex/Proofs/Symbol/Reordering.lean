import SqfIndex.Proofs.Symbol.Settling

/-!
# Calls in another order

Some calls about different documents are made twice, from the empty store. Names and comments may depend
on their order, but not what is explained, so that the warnings stand at the same places:
`Store.warned_places_perm`.
-/

namespace SqfIndex

open Std (ExtTreeMap)

variable {calls calls' : List Call}

/-! ## The last call about a document -/

theorem find?_uri_eq_some_iff (hdistinct : (calls.map Call.uri).Nodup) {u : Uri} {c : Call} :
    calls.find? (·.uri = u) = some c ↔ c ∈ calls ∧ c.uri = u := by
  constructor
  · intro h
    exact ⟨List.mem_of_find?_eq_some h, by simpa using List.find?_some h⟩
  · rintro ⟨hc, rfl⟩
    have hfound : (calls.find? (·.uri = c.uri)).isSome := List.find?_isSome.mpr ⟨c, hc, by simp⟩
    obtain ⟨c', hc'⟩ := Option.isSome_iff_exists.mp hfound
    have huri : c'.uri = c.uri := by simpa using List.find?_some hc'
    rw [hc', List.inj_on_of_nodup_map hdistinct (List.mem_of_find?_eq_some hc') hc huri]

theorem latest_append_self (calls : List Call) (u : Uri) : latest (calls ++ calls) u = latest calls u := by
  simp [latest]

theorem latest_perm (hdistinct : (calls.map Call.uri).Nodup) (hperm : calls.Perm calls') (u : Uri) :
    latest calls' u = latest calls u := by
  have hreversed : (calls.reverse.map Call.uri).Nodup := by simpa using hdistinct
  have hreversed' : (calls'.reverse.map Call.uri).Nodup := by
    simpa using (hperm.map Call.uri).nodup_iff.mp hdistinct
  unfold latest
  congr 1
  ext c
  rw [find?_uri_eq_some_iff hreversed, find?_uri_eq_some_iff hreversed', List.mem_reverse, List.mem_reverse,
    hperm.mem_iff]

namespace Tables

/-! ## What is explained -/

theorem Named.run {s : Store} (h : s.tables.Named) (calls : List Call) : (s.run calls).tables.Named := by
  induction calls generalizing s with
  | nil => exact h
  | cons c calls ih => exact ih (h.apply c)

theorem named_after (calls : List Call) : (Store.after calls).tables.Named := by
  refine Named.run ?_ calls
  intro key g h
  simp at h

theorem Named.lowered_nameOf {t : Tables} (h : t.Named) {m : Mention} {key : String} {u : Uri}
    (hplaces : placesIn t.globals m key u ≠ []) : Text.lowered (t.nameOf key) = key := by
  cases hg : t.globals[key]? with
  | none => exact absurd (placesIn_of_absent hg m u) hplaces
  | some g =>
      simp only [nameOf, hg, Option.map_some, Option.getD_some]
      exact h key g hg

theorem mem_macros_after_congr {evict : Bool} (hevict : ∀ c ∈ calls, c.settings.evictOrphanMacros = evict)
    (hmem : ∀ c, c ∈ calls' ↔ c ∈ calls) (hlatest : ∀ u, latest calls' u = latest calls u) (key : String) :
    key ∈ (Store.after calls').tables.macros ↔ key ∈ (Store.after calls).tables.macros := by
  have hevict' : ∀ c ∈ calls', c.settings.evictOrphanMacros = evict := fun c hc => hevict c ((hmem c).mp hc)
  cases evict with
  | true => simp only [mem_macros_after_of_evict hevict, mem_macros_after_of_evict hevict', hlatest]
  | false => simp only [mem_macros_after_of_keep hevict, mem_macros_after_of_keep hevict', hmem]

open Classical in
theorem places_undefined (settings : Settings) (owns : String → Bool) (uri : Uri) (r : Report) (t : Tables) :
    (t.undefined settings owns uri r).map (·.place) =
      ((r.vars.filter (isTracked owns)).map fun v => Text.lowered v.name).eraseDups.flatMap fun key =>
        if Unexplained settings t key then placesIn t.globals .usage key uri else [] := by
  unfold undefined
  rw [List.map_flatMap]
  congr 1
  funext key
  rw [undefinedAt_eq]
  split <;> simp [Function.comp_def]

open Classical in
theorem places_undefined_congr {evict : Bool} (hevict : ∀ c ∈ calls, c.settings.evictOrphanMacros = evict)
    (hmem : ∀ c, c ∈ calls' ↔ c ∈ calls) (hlatest : ∀ u, latest calls' u = latest calls u)
    (settings : Settings) (owns : String → Bool) (uri : Uri) (r : Report) :
    ((Store.after calls').tables.undefined settings owns uri r).map (·.place) =
      ((Store.after calls).tables.undefined settings owns uri r).map (·.place) := by
  have hplaces (m : Mention) (key : String) (u : Uri) :
      placesIn (Store.after calls').tables.globals m key u = placesIn (Store.after calls).tables.globals m key u := by
    rw [(reflects_after calls').places, (reflects_after calls).places, hlatest]
  rw [places_undefined, places_undefined]
  congr 1
  funext key
  by_cases hused : placesIn (Store.after calls).tables.globals .usage key uri = []
  · simp only [hplaces, hused, ite_self]
  · -- a key that is used is there under both orders, and so its names say the same to the settings
    have hname := (named_after calls).lowered_nameOf hused
    have hname' := (named_after calls').lowered_nameOf (hplaces .usage key uri ▸ hused)
    have hmacros := mem_macros_after_congr hevict hmem hlatest key
    simp only [Unexplained, hplaces, hname, hname', hmacros]

end Tables

/-- The index plays no part in what calls make of the tables. -/
theorem Store.tables_run_congr {s s' : Store} (h : s'.tables = s.tables) (calls : List Call) :
    (s'.run calls).tables = (s.run calls).tables := by
  induction calls generalizing s s' with
  | nil => exact h
  | cons c calls ih =>
      rw [Store.run_cons, Store.run_cons]
      apply ih
      cases c with
      | reconcile settings owns uri report => exact congrArg (·.replace settings owns uri report) h
      | remove settings uri => exact congrArg (·.remove settings uri) h

theorem Store.warned_places_perm {evict : Bool} (hdistinct : (calls.map Call.uri).Nodup)
    (hevict : ∀ c ∈ calls, c.settings.evictOrphanMacros = evict) (hperm : calls.Perm calls')
    (settings : Settings) (owns : String → Bool) (uri : Uri) (r : Report) :
    ((Store.after (calls' ++ calls')).tables.undefined settings owns uri r).map (·.place) =
      ((Store.after (calls ++ calls)).tables.undefined settings owns uri r).map (·.place) := by
  have htwice : ∀ c ∈ calls ++ calls, c.settings.evictOrphanMacros = evict := by simpa using hevict
  refine Tables.places_undefined_congr htwice ?_ ?_ settings owns uri r
  · simp [hperm.mem_iff]
  · intro u
    rw [latest_append_self, latest_append_self, latest_perm hdistinct hperm]

end SqfIndex
