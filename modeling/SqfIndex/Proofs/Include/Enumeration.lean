import SqfIndex.Include

/-!
# Aliases in any order

The entries of an alias map come in no particular order. Which name of an alias is used for a path does not
depend on it, but several entries may have the same name once they are normalized, and of these the one that
comes first counts (`aliased?_of_first`). `resolve_order_free_iff` tells when this is seen in the paths.
-/

namespace SqfIndex.Include

/-- The alias of an entry, if it has a name left. -/
def alias? : String × String → Option Alias
  | (written, target) =>
    let name := normalize written.toList
    if name = [] then none else some ⟨name, .ofText target⟩

def configured (entries : List (String × String)) : List Alias := entries.filterMap alias?

variable {entries es : List (String × String)} {path : List Char} {a b : Alias}

theorem alias?_eq_some {e : String × String} (h : alias? e = some a) :
    a.name ≠ [] ∧ a = ⟨normalize e.1.toList, .ofText e.2⟩ := by
  obtain ⟨written, target⟩ := e
  simp only [alias?] at h ⊢
  generalize normalize written.toList = name at h ⊢
  split at h
  · cases h
  · next hname =>
    cases h
    exact ⟨hname, rfl⟩

theorem name_ne_nil (h : a ∈ configured entries) : a.name ≠ [] := by
  obtain ⟨e, -, he⟩ := List.mem_filterMap.mp h
  exact (alias?_eq_some he).1

/-! ## The order in which aliases are tried -/

theorem Alias.precedes_iff :
    a.precedes b = true ↔ Text.width b.name < Text.width a.name ∨
      Text.width a.name = Text.width b.name ∧ String.ofList a.name ≤ String.ofList b.name := by
  simp [Alias.precedes]

theorem Alias.precedes_trans (a b c : Alias) (hab : a.precedes b = true) (hbc : b.precedes c = true) :
    a.precedes c = true := by
  rw [precedes_iff] at hab hbc ⊢
  rcases hab with hab | ⟨hab, hle⟩ <;> rcases hbc with hbc | ⟨hbc, hle'⟩
  · exact Or.inl (by omega)
  · exact Or.inl (by omega)
  · exact Or.inl (by omega)
  · exact Or.inr ⟨hab.trans hbc, String.le_trans hle hle'⟩

theorem Alias.precedes_total (a b : Alias) : (a.precedes b || b.precedes a) = true := by
  rw [Bool.or_eq_true, precedes_iff, precedes_iff]
  rcases Nat.lt_trichotomy (Text.width a.name) (Text.width b.name) with h | h | h
  · exact Or.inr (Or.inl h)
  · rcases String.le_total (String.ofList a.name) (String.ofList b.name) with hle | hle
    · exact Or.inl (Or.inr ⟨h, hle⟩)
    · exact Or.inr (Or.inr ⟨h.symm, hle⟩)
  · exact Or.inl (Or.inl h)

theorem Alias.name_eq_of_precedes (hab : a.precedes b = true) (hba : b.precedes a = true) : a.name = b.name := by
  rw [precedes_iff] at hab hba
  rcases hab with hab | ⟨hab, hle⟩ <;> rcases hba with hba | ⟨hba, hle'⟩
  · omega
  · omega
  · omega
  · exact String.ofList_inj.mp (String.le_antisymm hle hle')

theorem mem_aliases : a ∈ aliases entries ↔ a ∈ configured entries := List.mem_mergeSort

theorem aliases_ordered (entries : List (String × String)) :
    (aliases entries).Pairwise fun a b => a.precedes b = true :=
  List.pairwise_mergeSort Alias.precedes_trans Alias.precedes_total _

/-! ## The alias that is used -/

theorem Alias.isSome_pathFor? : (a.pathFor? path).isSome = (a.rest? path).isSome := by
  simp [pathFor?]

theorem Alias.rest?_nil (h : a.name ≠ []) : a.rest? [] = none := by
  obtain ⟨name, target⟩ := a
  cases name with
  | nil => exact absurd rfl h
  | cons c cs =>
      obtain ⟨n, hn⟩ : ∃ n, Text.width (c :: cs) = n + 1 :=
        ⟨Text.width (c :: cs) - 1, by have := c.utf8Size_pos; simp; omega⟩
      simp [Alias.rest?, hn, Text.cutAt?]

/-- The alias matches, and no alias that matches is tried before it unless it has the same name. -/
structure Picked (entries : List (String × String)) (path : List Char) (a : Alias) : Prop where
  mem : a ∈ configured entries
  suits : (a.rest? path).isSome = true
  first : ∀ b ∈ configured entries, (b.rest? path).isSome = true → a.precedes b = true

theorem Picked.perm (h : Picked entries path a) (hperm : es.Perm entries) : Picked es path a := by
  have hmem (b : Alias) : b ∈ configured es ↔ b ∈ configured entries := (hperm.filterMap alias?).mem_iff
  refine ⟨(hmem a).mpr h.mem, h.suits, ?_⟩
  intro b hb
  exact h.first b ((hmem b).mp hb)

theorem Picked.name_eq (h : Picked entries path a) (h' : Picked entries path b) : a.name = b.name :=
  Alias.name_eq_of_precedes (h.first b h'.mem h'.suits) (h'.first a h.mem h.suits)

theorem aliased?_eq_none : aliased? (aliases entries) path = none ↔ ∀ a ∈ configured entries, a.rest? path = none := by
  simp [aliased?, List.findSome?_eq_none_iff, mem_aliases, Alias.pathFor?]

theorem picked_of_split {before after : List Alias} (hsplit : aliases entries = before ++ a :: after)
    (ha : (a.pathFor? path).isSome = true) (hbefore : ∀ b ∈ before, b.pathFor? path = none) : Picked entries path a := by
  have hordered := aliases_ordered entries
  rw [hsplit, List.pairwise_append, List.pairwise_cons] at hordered
  refine ⟨?_, ?_, ?_⟩
  · exact mem_aliases.mp (by rw [hsplit]; simp)
  · rwa [← Alias.isSome_pathFor?]
  · intro b hb hsuits
    rw [← mem_aliases, hsplit, List.mem_append, List.mem_cons] at hb
    rcases hb with hb | rfl | hb
    · rw [← Alias.isSome_pathFor?, hbefore b hb] at hsuits
      cases hsuits
    · simpa using Alias.precedes_total b b
    · exact hordered.2.1.1 b hb

theorem exists_picked {p : Path} (h : aliased? (aliases entries) path = some p) :
    ∃ a, Picked entries path a ∧ a.pathFor? path = some p := by
  obtain ⟨before, a, after, hsplit, ha, hbefore⟩ := List.findSome?_eq_some_iff.mp h
  exact ⟨a, picked_of_split hsplit (by rw [ha]; rfl) hbefore, ha⟩

/-- Of the entries with the name that is used, the first one counts. -/
theorem aliased?_of_first {e : String × String} (he : alias? e = some a) (h : Picked (e :: es) path a) :
    aliased? (aliases (e :: es)) path = a.pathFor? path := by
  have haliases : aliases (e :: es) = (a :: configured es).mergeSort Alias.precedes := by
    show (configured (e :: es)).mergeSort _ = _
    rw [configured, List.filterMap_cons_some he]
    rfl
  -- sorting keeps the order of aliases that neither precedes the other
  obtain ⟨before, after, hsplit, -, hbefore⟩ :=
    List.mergeSort_cons Alias.precedes_trans Alias.precedes_total a (configured es)
  have hnone : before.findSome? (·.pathFor? path) = none := by
    rw [List.findSome?_eq_none_iff]
    intro b hb
    have hmem : b ∈ configured (e :: es) := by
      rw [← mem_aliases, haliases, hsplit]
      exact List.mem_append_left _ hb
    cases hpath : b.pathFor? path with
    | none => rfl
    | some p =>
        have hsuits : (b.rest? path).isSome = true := by rw [← Alias.isSome_pathFor?, hpath]; rfl
        exact absurd (h.first b hmem hsuits) (by simpa using hbefore b hb)
  obtain ⟨p, hp⟩ := Option.isSome_iff_exists.mp (Alias.isSome_pathFor?.trans h.suits)
  rw [haliases, hsplit, aliased?, List.findSome?_append, hnone, List.findSome?_cons, hp]
  rfl

/-! ## Paths of includes -/

/-- A path without `.` and `..`, or the path itself if nothing is left. -/
def settled (p : Path) : Path := p.normalize?.getD p

/-- The path that a request comes to through an alias. -/
def Alias.landing? (a : Alias) (path : List Char) : Option Path := (a.pathFor? path).map settled

section

variable {written : String} {includer : Path}

theorem resolve_resolver (entries : List (String × String)) (read : Reader) :
    (resolver entries read).resolve = resolve (aliases entries) := by
  simp only [resolver]

theorem resolve_eq (as : List Alias) :
    resolve as written includer =
      if normalize written.toList = [] then .error .empty
      else .ok (((aliased? as (normalize written.toList)).map settled).getD
        (settled ((includer.parent?.getD ⟨[]⟩).join ⟨Text.encode (normalize written.toList)⟩))) := by
  simp only [resolve]
  split
  · rfl
  · cases aliased? as (normalize written.toList) with
    | none => rw [Option.map_none, Option.getD_none, Option.getD_none, settled]
    | some p => rw [Option.map_some, Option.getD_some, Option.getD_some, settled]

/-- An alias is used before the directory of the including file is. -/
theorem resolve_of_aliased {p : Path} (h : aliased? (aliases entries) (normalize written.toList) = some p) :
    resolve (aliases entries) written includer = .ok (settled p) := by
  have hpath : normalize written.toList ≠ [] := by
    intro hnil
    obtain ⟨a, ha, -⟩ := exists_picked h
    have hsuits := ha.suits
    rw [hnil, Alias.rest?_nil (name_ne_nil ha.mem)] at hsuits
    cases hsuits
  rw [resolve_eq, if_neg hpath, h, Option.map_some, Option.getD_some]

theorem resolve_of_first {e : String × String} (he : alias? e = some a) (h : Picked (e :: es) (normalize written.toList) a) :
    (resolve (aliases (e :: es)) written includer).toOption = a.landing? (normalize written.toList) := by
  obtain ⟨p, hp⟩ := Option.isSome_iff_exists.mp (Alias.isSome_pathFor?.trans h.suits)
  rw [resolve_of_aliased ((aliased?_of_first he h).trans hp), Alias.landing?, hp]
  rfl

/-- Any entry for the name that is used can come first. -/
theorem exists_perm_resolve (includer : Path) (h : Picked entries (normalize written.toList) a) :
    ∃ es, es.Perm entries ∧ (resolve (aliases es) written includer).toOption = a.landing? (normalize written.toList) := by
  obtain ⟨e, hmem, he⟩ := List.mem_filterMap.mp h.mem
  have hperm : (e :: entries.erase e).Perm entries := (List.perm_cons_erase hmem).symm
  exact ⟨_, hperm, resolve_of_first he (h.perm hperm)⟩

theorem aliased?_congr (hperm : es.Perm entries)
    (h : ∀ a b, Picked entries path a → Picked entries path b → a.landing? path = b.landing? path) :
    (aliased? (aliases es) path).map settled = (aliased? (aliases entries) path).map settled := by
  have hnone : aliased? (aliases es) path = none ↔ aliased? (aliases entries) path = none := by
    rw [aliased?_eq_none, aliased?_eq_none, configured, configured]
    simp only [(hperm.filterMap alias?).mem_iff]
  cases hes : aliased? (aliases es) path with
  | none => rw [hnone.mp hes]
  | some p =>
      cases hentries : aliased? (aliases entries) path with
      | none => rw [hnone.mpr hentries] at hes; cases hes
      | some q =>
          obtain ⟨a, ha, hp⟩ := exists_picked hes
          obtain ⟨b, hb, hq⟩ := exists_picked hentries
          have hlanding := h a b (ha.perm hperm.symm) hb
          rwa [Alias.landing?, Alias.landing?, hp, hq] at hlanding

end

/-- The order of the entries is not seen in the path of a request exactly if all entries for the name that is used
for it lead to one path. So it is never seen if entries whose aliases are the same once normalized have one
target. -/
theorem resolve_order_free_iff (entries : List (String × String)) (read : Reader) :
    (∀ (written : String) (includer : Path),
      (∀ es, es.Perm entries →
        (resolver es read).resolve written includer = (resolver entries read).resolve written includer) ↔
      ∀ a b, Picked entries (normalize written.toList) a → Picked entries (normalize written.toList) b →
        a.landing? (normalize written.toList) = b.landing? (normalize written.toList)) ∧
    ((∀ e ∈ entries, ∀ e' ∈ entries, normalize e.1.toList = normalize e'.1.toList → e.2 = e'.2) →
      ∀ es, es.Perm entries → ∀ written includer,
        (resolver es read).resolve written includer = (resolver entries read).resolve written includer) := by
  have hfree (written : String) (includer : Path)
      (h : ∀ a b, Picked entries (normalize written.toList) a → Picked entries (normalize written.toList) b →
        a.landing? (normalize written.toList) = b.landing? (normalize written.toList)) (es : List (String × String))
      (hperm : es.Perm entries) :
      (resolver es read).resolve written includer = (resolver entries read).resolve written includer := by
    rw [resolve_resolver, resolve_resolver, resolve_eq, resolve_eq, aliased?_congr hperm h]
  refine ⟨fun written includer => ⟨?_, hfree written includer⟩, ?_⟩
  · intro h a b ha hb
    obtain ⟨es, hes, hresolve⟩ := exists_perm_resolve includer ha
    obtain ⟨es', hes', hresolve'⟩ := exists_perm_resolve includer hb
    have hsame := (h es hes).trans (h es' hes').symm
    rw [resolve_resolver, resolve_resolver] at hsame
    rw [← hresolve, ← hresolve', hsame]
  · intro hsame es hperm written includer
    refine hfree written includer ?_ es hperm
    intro a b ha hb
    obtain ⟨e, hmem, he⟩ := List.mem_filterMap.mp ha.mem
    obtain ⟨e', hmem', he'⟩ := List.mem_filterMap.mp hb.mem
    have hname := ha.name_eq hb
    obtain ⟨-, rfl⟩ := alias?_eq_some he
    obtain ⟨-, rfl⟩ := alias?_eq_some he'
    have htarget := hsame e hmem e' hmem' hname
    simp only at hname
    rw [hname, htarget]

/-- Two aliases that differ in a leading separator only are one alias once normalized, and each way to
enumerate them gives another path. -/
theorem separator_variants_resolve_by_order :
    let entries := [("x", "/a"), ("\\x", "/b")]
    (entries.map Prod.fst).Nodup ∧ entries.reverse.Perm entries ∧
      ((resolver entries fun _ => .error .notFound).resolve "x/f.hpp" (.ofText "/u.sqf")).toOption =
        some (.ofText "/a/f.hpp") ∧
      ((resolver entries.reverse fun _ => .error .notFound).resolve "x/f.hpp" (.ofText "/u.sqf")).toOption =
        some (.ofText "/b/f.hpp") := by
  intro entries
  have hentries : aliases entries = configured entries := List.mergeSort_of_pairwise (by decide +kernel)
  have hreverse : aliases entries.reverse = configured entries.reverse := List.mergeSort_of_pairwise (by decide +kernel)
  refine ⟨by decide, List.reverse_perm _, ?_, ?_⟩
  · rw [resolve_resolver, hentries]
    decide +kernel
  · rw [resolve_resolver, hreverse]
    decide +kernel

end SqfIndex.Include
