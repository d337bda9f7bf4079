import Mathlib.Data.List.Nodup
import Mathlib.Data.List.Perm.Basic
import SqfIndex.Proofs.Symbol.Reordering

/-!
# Search by the start of a name

An index that was built from some entries gives, for any query, the values whose names start with it, each
as often as it was added (`PrefixIndex.find_ofEntries_perm`), by whichever of its two tables it looks. A
store drops its index with every change of the tables, so that a search after any operations gives exactly
the symbols that are in the tables then: `Store.search_after_perm`.
-/

namespace SqfIndex

open Std (ExtTreeMap)

theorem values_eq_map_toList {β : Type} (table : ExtTreeMap String β) : table.values = table.toList.map (·.2) := by
  have hfold : table.values = table.foldr (fun _ b bs => b :: bs) [] := rfl
  rw [hfold, ExtTreeMap.foldr_eq_foldr_toList]
  induction table.toList with
  | nil => rfl
  | cons e es ih => rw [List.foldr_cons, ih, List.map_cons]

/-- Gathering by distinct keys gives each item once, if its key is among them. -/
theorem flatMap_filter_perm {α κ : Type} [DecidableEq κ] (key : α → κ) (items : List α) {keys : List κ} (h : keys.Nodup) :
    (keys.flatMap fun k => items.filter fun a => key a = k).Perm (items.filter fun a => key a ∈ keys) := by
  induction keys with
  | nil => simp
  | cons k keys ih =>
      obtain ⟨hk, hkeys⟩ := List.nodup_cons.mp h
      have hfirst : (items.filter fun a => key a = k) =
          (items.filter fun a => key a ∈ k :: keys).filter fun a => key a = k := by
        rw [List.filter_filter]
        refine List.filter_congr ?_
        intro a _
        by_cases ha : key a = k <;> simp [ha]
      have hrest : (items.filter fun a => key a ∈ keys) =
          (items.filter fun a => key a ∈ k :: keys).filter fun a => !decide (key a = k) := by
        rw [List.filter_filter]
        refine List.filter_congr ?_
        intro a _
        by_cases ha : key a = k <;> simp [ha, hk]
      rw [List.flatMap_cons]
      refine ((ih hkeys).append_left _).trans ?_
      rw [hfirst, hrest]
      exact List.filter_append_perm _ _

namespace PrefixIndex

variable {α : Type}

/-! ## The two tables -/

/-- The values under a key. -/
def filed (table : ExtTreeMap String (List α)) (key : String) : List α := (table[key]?).getD []

theorem filed_file (table : ExtTreeMap String (List α)) (key : String) (value : α) (k : String) :
    filed (file table key value) k = filed table k ++ if key = k then [value] else [] := by
  unfold filed file
  rw [ExtTreeMap.getElem?_alter]
  by_cases h : key = k
  · subst h; simp
  · simp [h]

theorem mem_file (table : ExtTreeMap String (List α)) (key : String) (value : α) (k : String) :
    k ∈ file table key value ↔ k ∈ table ∨ key = k := by
  rw [ExtTreeMap.mem_iff_isSome_getElem?, ExtTreeMap.mem_iff_isSome_getElem?, file, ExtTreeMap.getElem?_alter]
  by_cases h : key = k <;> simp [h]

theorem filed_foldl_file (value : α) {keys : List String} (h : keys.Nodup) (table : ExtTreeMap String (List α)) (k : String) :
    filed (keys.foldl (fun table key => file table key value) table) k =
      filed table k ++ if k ∈ keys then [value] else [] := by
  induction keys generalizing table with
  | nil => simp
  | cons key keys ih =>
      obtain ⟨hkey, hkeys⟩ := List.nodup_cons.mp h
      rw [List.foldl_cons, ih hkeys, filed_file]
      by_cases hk : key = k
      · subst hk; simp [hkey]
      · simp [hk, Ne.symm hk]

theorem nodup_starts (name : List Char) : (starts name).Nodup := by
  refine List.Nodup.map_on ?_ List.nodup_range
  intro i hi j hj h
  -- two starts of a name differ in length
  have hlength := congrArg List.length (String.ofList_inj.mp h)
  simp only [List.mem_range, List.length_take] at hi hj hlength
  omega

theorem mem_starts {start name : List Char} :
    String.ofList start ∈ starts name ↔ start ≠ [] ∧ start.length ≤ bucketLimit ∧ start <+: name := by
  simp only [starts, List.mem_map, List.mem_range, String.ofList_inj]
  constructor
  · rintro ⟨i, hi, rfl⟩
    refine ⟨?_, ?_, List.take_prefix _ _⟩
    · apply List.ne_nil_of_length_pos
      rw [List.length_take]
      omega
    · rw [List.length_take]
      omega
  · rintro ⟨hne, hlimit, hstart⟩
    have hpos := List.length_pos_iff.mpr hne
    have hle := hstart.length_le
    refine ⟨start.length - 1, by omega, ?_⟩
    rw [show start.length - 1 + 1 = start.length by omega]
    exact (List.prefix_iff_eq_take.mp hstart).symm

/-! ## An index built from entries -/

/-- The index of some values with their names. -/
def ofEntries (entries : List (String × α)) : PrefixIndex α := entries.foldl (fun ix e => ix.add e.1 e.2) {}

theorem ofEntries_append (entries : List (String × α)) (e : String × α) :
    ofEntries (entries ++ [e]) = (ofEntries entries).add e.1 e.2 := by
  simp [ofEntries]

theorem filed_exact (entries : List (String × α)) (key : String) :
    filed (ofEntries entries).exact key = (entries.filter fun e => Text.lowered e.1 = key).map (·.2) := by
  induction entries using List.reverseRecOn with
  | nil => simp [ofEntries, filed]
  | append_singleton entries e ih =>
      rw [ofEntries_append, add, filed_file, ih, List.filter_append, List.map_append]
      by_cases h : Text.lowered e.1 = key <;> simp [h]

theorem mem_exact (entries : List (String × α)) (key : String) :
    key ∈ (ofEntries entries).exact ↔ ∃ e ∈ entries, Text.lowered e.1 = key := by
  induction entries using List.reverseRecOn with
  | nil => simp [ofEntries]
  | append_singleton entries e ih =>
      rw [ofEntries_append, add, mem_file, ih]
      simp [or_and_right, exists_or]

theorem filed_buckets (entries : List (String × α)) (key : String) :
    filed (ofEntries entries).buckets key =
      (entries.filter fun e => key ∈ starts (Text.lower e.1.toList)).map (·.2) := by
  induction entries using List.reverseRecOn with
  | nil => simp [ofEntries, filed]
  | append_singleton entries e ih =>
      rw [ofEntries_append, add, filed_foldl_file e.2 (nodup_starts _), ih, List.filter_append, List.map_append]
      by_cases h : key ∈ starts (Text.lower e.1.toList) <;> simp [h]

theorem flatMap_toList (table : ExtTreeMap String (List α)) (p : String → Bool) :
    (table.toList.filter fun e => p e.1).flatMap (·.2) = (table.keys.filter p).flatMap (filed table) := by
  rw [← ExtTreeMap.map_fst_toList_eq_keys, List.filter_map, List.flatMap_map]
  refine List.flatMap_congr ?_
  intro e he
  have hmem := (List.mem_filter.mp he).1
  rw [ExtTreeMap.mem_toList_iff_getElem?_eq_some] at hmem
  simp [filed, hmem]

/-- A look through the names gives the entries whose names pass. -/
theorem scan_perm (entries : List (String × α)) (p : String → Bool) :
    (((ofEntries entries).exact.toList.filter fun e => p e.1).flatMap (·.2)).Perm
      ((entries.filter fun e => p (Text.lowered e.1)).map (·.2)) := by
  have hkeys : ((ofEntries entries).exact.keys.filter p).Nodup := ExtTreeMap.nodup_keys.filter p
  have hgathered := (flatMap_filter_perm (fun e : String × α => Text.lowered e.1) entries hkeys).map (·.2)
  rw [List.map_flatMap] at hgathered
  have hmem : (entries.filter fun e => Text.lowered e.1 ∈ (ofEntries entries).exact.keys.filter p) =
      entries.filter fun e => p (Text.lowered e.1) := by
    refine List.filter_congr ?_
    intro e he
    have hkey : Text.lowered e.1 ∈ (ofEntries entries).exact := (mem_exact entries _).mpr ⟨e, he, rfl⟩
    simp [List.mem_filter, ExtTreeMap.mem_keys, hkey]
  rw [flatMap_toList, funext (filed_exact entries)]
  rwa [hmem] at hgathered

theorem find_ofEntries_perm (entries : List (String × α)) (query : String) :
    ((ofEntries entries).find query).Perm
      ((entries.filter fun e => Text.lower query.toList <+: Text.lower e.1.toList).map (·.2)) := by
  unfold find
  dsimp only
  split
  · -- everything starts with nothing
    next hempty =>
    have hall := scan_perm entries fun _ => true
    rw [hempty]
    simpa [values_eq_map_toList, List.flatMap_def] using hall
  · next hne =>
    split
    · next hlimit =>
      have hbucket := filed_buckets entries (String.ofList (Text.lower query.toList))
      rw [filed] at hbucket
      rw [hbucket]
      refine List.Perm.of_eq (congrArg _ (List.filter_congr ?_))
      intro e _
      simp [mem_starts, hne, hlimit]
    · have hscan := scan_perm entries fun key => (Text.lower query.toList).isPrefixOf key.toList
      refine hscan.trans (List.Perm.of_eq (congrArg _ (List.filter_congr ?_)))
      intro e _
      rw [Bool.eq_iff_iff, List.isPrefixOf_iff_prefix, decide_eq_true_iff]
      simp [Text.lowered]

theorem ofSymbols_eq (symbols : List Symbol) : ofSymbols symbols = ofEntries (symbols.map fun s => (s.name, s)) := by
  rw [ofEntries, List.foldl_map]
  rfl

end PrefixIndex

/-! ## The symbols of the tables -/

namespace Tables

/-- Every macro has a name that goes with its key. -/
def MacrosNamed (t : Tables) : Prop :=
  ∀ (key : String) (m : GlobalMacro), t.macros[key]? = some m → Text.lowered m.name = key

theorem MacrosNamed.apply {s : Store} (h : s.tables.MacrosNamed) (c : Call) : (c.apply s).tables.MacrosNamed := by
  intro key m hm
  rw [getElem?_macros_apply, Option.filter_eq_some_iff, Option.map_eq_some_iff] at hm
  obtain ⟨⟨old, hold, rfl⟩, -⟩ := hm
  rw [GlobalMacro.name_renew]
  rcases Option.or_eq_some_iff.mp hold with hold | ⟨-, hold⟩
  · exact h key old hold
  · obtain ⟨o, ho, rfl⟩ := Option.map_eq_some_iff.mp hold
    simpa using (List.mem_filter.mp (List.mem_of_head? ho)).2

theorem macrosNamed_after (calls : List Call) : (Store.after calls).tables.MacrosNamed := by
  induction calls using List.reverseRecOn with
  | nil => intro key m h; simp [Store.after] at h
  | append_singleton calls c ih => rw [Store.after_append]; exact ih.apply c

/-- Entries whose names go with their keys have different names. -/
theorem nodup_names {β : Type} {table : ExtTreeMap String β} {name : β → String}
    (h : ∀ key b, table[key]? = some b → Text.lowered (name b) = key) : (table.values.map name).Nodup := by
  have hkeys : (table.values.map name).map Text.lowered = table.keys := by
    rw [values_eq_map_toList, List.map_map, List.map_map, ← ExtTreeMap.map_fst_toList_eq_keys]
    refine List.map_congr_left ?_
    intro e he
    exact h e.1 e.2 (ExtTreeMap.mem_toList_iff_getElem?_eq_some.mp he)
  exact List.Nodup.of_map Text.lowered (hkeys ▸ ExtTreeMap.nodup_keys)

theorem nodup_symbols {t : Tables} (hglobals : t.Named) (hmacros : t.MacrosNamed) : t.symbols.Nodup := by
  have hinjective (kind : SymbolKind) : Function.Injective fun name => (⟨name, kind⟩ : Symbol) := by
    intro name name' h
    exact (Symbol.mk.injEq .. ▸ h).1
  have hglobals := (nodup_names hglobals).map (hinjective .globalVariable)
  have hmacros := (nodup_names hmacros).map (hinjective .macroName)
  rw [List.map_map] at hglobals hmacros
  refine List.nodup_append.mpr ⟨hglobals, hmacros, ?_⟩
  intro a ha b hb
  obtain ⟨g, -, rfl⟩ := List.mem_map.mp ha
  obtain ⟨m, -, rfl⟩ := List.mem_map.mp hb
  simp

end Tables

/-! ## Any operations -/

/-- A change of the store, or a search in it. -/
inductive Operation
  | call (c : Call)
  | search (query : String)

namespace Operation

def apply (s : Store) : Operation → Store
  | call c => c.apply s
  | search query => (s.search query).2

def call? : Operation → Option Call
  | call c => some c
  | search _ => none

end Operation

namespace Store

/-- The store after some operations, from the empty one. -/
def afterAll (operations : List Operation) : Store := operations.foldl Operation.apply {}

theorem afterAll_append (operations : List Operation) (o : Operation) :
    afterAll (operations ++ [o]) = o.apply (afterAll operations) := by
  simp [afterAll]

/-- The index, if there is one, is that of the symbols in the tables. -/
def Fresh (s : Store) : Prop := ∀ ix, s.index = some ix → ix = .ofSymbols s.tables.symbols

theorem Fresh.apply {s : Store} (h : s.Fresh) (o : Operation) : (o.apply s).Fresh := by
  cases o with
  | call c =>
      -- whatever a call changes, the index goes
      intro ix hix
      cases c <;> cases hix
  | search query =>
      intro ix hix
      simp only [Operation.apply, Store.search, Option.some.injEq] at hix ⊢
      subst hix
      cases hindex : s.index with
      | none => rfl
      | some old => exact h old hindex

theorem fresh_afterAll (operations : List Operation) : (afterAll operations).Fresh := by
  induction operations using List.reverseRecOn with
  | nil => intro ix h; cases h
  | append_singleton operations o ih => rw [afterAll_append]; exact ih.apply o

theorem tables_afterAll (operations : List Operation) :
    (afterAll operations).tables = (Store.after (operations.filterMap Operation.call?)).tables := by
  induction operations using List.reverseRecOn with
  | nil => rfl
  | append_singleton operations o ih =>
      rw [afterAll_append, List.filterMap_append]
      cases o with
      | call c =>
          rw [show [Operation.call c].filterMap Operation.call? = [c] from rfl, Store.after_append]
          exact tables_run_congr ih [c]
      | search query =>
          rw [show [Operation.search query].filterMap Operation.call? = [] from rfl, List.append_nil]
          exact ih

theorem Fresh.search_perm {s : Store} (h : s.Fresh) (query : String) :
    (s.search query).1.Perm
      (s.tables.symbols.filter fun x => Text.lower query.toList <+: Text.lower x.name.toList) := by
  have hindex : s.index.getD (.ofSymbols s.tables.symbols) = .ofSymbols s.tables.symbols := by
    cases hix : s.index with
    | none => rfl
    | some ix => exact h ix hix
  have hfind := PrefixIndex.find_ofEntries_perm (s.tables.symbols.map fun x => (x.name, x)) query
  rw [← PrefixIndex.ofSymbols_eq, List.filter_map, List.map_map] at hfind
  simpa [Store.search, hindex, Function.comp_def] using hfind

/-- After any changes and searches, a search gives one symbol for every global and every macro that is in the
tables now and whose name starts with the query, both in lower case, and nothing else; it gives none twice
and leaves the tables as they are, so that the tables are those of the changes alone. -/
theorem search_after_perm (operations : List Operation) (query : String) :
    let s := afterAll operations
    let starts (name : String) : Bool := Text.lower query.toList <+: Text.lower name.toList
    (s.search query).1.Perm
      ((s.tables.globals.values.filter fun g => starts g.name).map (fun g => ⟨g.name, .globalVariable⟩) ++
        (s.tables.macros.values.filter fun m => starts m.name).map fun m => ⟨m.name, .macroName⟩) ∧
    (s.search query).1.Nodup ∧ (s.search query).2.tables = s.tables ∧
    s.tables = (Store.after (operations.filterMap Operation.call?)).tables := by
  intro s starts
  have hperm := (fresh_afterAll operations).search_perm query
  have htables := tables_afterAll operations
  refine ⟨?_, ?_, rfl, htables⟩
  · simpa [Tables.symbols, List.filter_append, List.filter_map, Function.comp_def] using hperm
  · refine hperm.nodup_iff.mpr (List.Nodup.filter _ ?_)
    rw [htables]
    exact Tables.nodup_symbols (Tables.named_after _) (Tables.macrosNamed_after _)

end Store

end SqfIndex
