import SqfIndex.Proofs.Include.Containment
import SqfIndex.Proofs.Text.Ends

/-!
# Which alias is used

An alias matches a path if it is the path or stands before a slash of it, whatever the case of its letters
(`Alias.Matches`). Cutting the path after as many bytes as the alias has finds the same aliases, and of those that
match the first one tried is a longest one (`Picked.longest`). How a request is written has no part in this:
`longest_alias_used`.
-/

namespace SqfIndex.Include

open Text (encode width strip Bare)

variable {entries : List (String × String)} {a b : Alias} {path rest cs ds before covered after : List Char}

/-! ## Normalized texts -/

def slashed (cs : List Char) : List Char := Text.replaceChar '\\' '/' cs

def isSeparator (c : Char) : Bool := c == '/' || c == '\\'

theorem normalize_eq_strip (cs : List Char) : normalize cs = strip (· == '/') (slashed (Text.trim cs)) := rfl

theorem slashed_append (cs ds : List Char) : slashed (cs ++ ds) = slashed cs ++ slashed ds := List.map_append

theorem slashed_trim (cs : List Char) : slashed (Text.trim cs) = Text.trim (slashed cs) := by
  refine (Text.strip_map ?_ cs).symm
  intro c
  split
  · next hc =>
    subst hc
    decide
  · rfl

theorem isSpace_of_isSeparator {c : Char} (h : isSeparator c = true) : Text.isSpace c = false := by
  simp only [isSeparator, Bool.or_eq_true, beq_iff_eq] at h
  rcases h with rfl | rfl <;> decide

theorem mem_slashed_of_separators (h : ∀ c ∈ cs, isSeparator c = true) : ∀ c ∈ slashed cs, (c == '/') = true := by
  intro c hc
  obtain ⟨d, hd, rfl⟩ := List.mem_map.mp hc
  have hsep := h d hd
  simp only [isSeparator, Bool.or_eq_true, beq_iff_eq] at hsep
  rcases hsep with rfl | rfl <;> rfl

theorem map_toLower_slashed (cs : List Char) : (slashed cs).map Char.toLower = slashed (cs.map Char.toLower) := by
  rw [slashed, slashed, Text.replaceChar, Text.replaceChar, List.map_map, List.map_map]
  refine List.map_congr_left fun c _ => ?_
  -- no letter becomes a backslash, and no backslash a letter
  have hback : c.toLower = '\\' ↔ c = '\\' := by
    constructor
    · exact fun h => Text.eq_of_toLower_eq (d := '\\') h rfl
    · rintro rfl
      rfl
  simp only [Function.comp_apply, hback]
  split <;> rfl

theorem bare_name (h : a ∈ configured entries) : Bare (· == '/') a.name := by
  obtain ⟨e, -, he⟩ := List.mem_filterMap.mp h
  rw [(alias?_eq_some he).2]
  exact Text.bare_strip _ _

/-- What stands for an alias, with nothing but separators before it, is the front of the normalized text. -/
theorem normalize_covered (hbefore : ∀ c ∈ before, isSeparator c = true) (ha : a ∈ configured entries)
    (hcovered : (slashed covered).map Char.toLower = a.name.map Char.toLower)
    (htrim : Text.trim (before ++ covered ++ after) = before ++ covered ++ after) :
    normalize (before ++ covered ++ after) = slashed covered ++ Text.dropEndWhile (· == '/') (slashed after) := by
  have hbare : Bare (· == '/') (slashed covered) := by
    refine (bare_name ha).recase (fun c hc => ?_) hcovered.symm
    rw [beq_eq_false_iff_ne]
    rintro rfl
    cases hc
  have hsome : slashed covered ≠ [] := by
    intro hnil
    rw [hnil] at hcovered
    exact name_ne_nil ha (List.map_eq_nil_iff.mp hcovered.symm)
  obtain ⟨back, hback, hseparators⟩ := Text.exists_dropEndWhile_parts (· == '/') (slashed after)
  have hparts : slashed (before ++ covered ++ after) =
      slashed before ++ (slashed covered ++ Text.dropEndWhile (· == '/') (slashed after)) ++ back := by
    rw [slashed_append, slashed_append, List.append_assoc, List.append_assoc, List.append_assoc, ← hback]
  rw [normalize_eq_strip, htrim, hparts]
  refine Text.strip_eq_of_parts (mem_slashed_of_separators hbefore) ?_ hseparators
  rintro c (hc | hc)
  · rw [List.head?_append, Option.or_eq_some_iff, List.head?_eq_none_iff] at hc
    exact hbare c (Or.inl (hc.resolve_right fun hnone => hsome hnone.1))
  · rw [List.getLast?_append, Option.or_eq_some_iff] at hc
    rcases hc with hc | ⟨-, hc⟩
    · exact Text.getLast?_dropEndWhile (p := (· == '/')) hc
    · exact hbare c (Or.inr hc)

/-! ## Aliases that match -/

/-- The alias is the path, or stands before a slash of it, up to the case of ASCII letters. -/
def Alias.Matches (a : Alias) (path : List Char) : Prop :=
  path.map Char.toLower = a.name.map Char.toLower ∨ a.name.map Char.toLower ++ ['/'] <+: path.map Char.toLower

theorem Alias.Leads.matches (h : a.Leads path rest) : a.Matches path := by
  obtain ⟨head, rfl, hname, rfl | hrest⟩ := h
  · exact Or.inl (by rw [List.append_nil, hname])
  · obtain ⟨rest, rfl⟩ := List.head?_eq_some_iff.mp hrest
    refine Or.inr ⟨rest.map Char.toLower, ?_⟩
    rw [List.map_append, hname, List.map_cons, List.append_assoc]
    rfl

theorem Alias.Matches.leads (h : a.Matches path) : ∃ rest, a.Leads path rest := by
  rcases h with h | ⟨more, hmore⟩
  · exact ⟨[], path, (List.append_nil path).symm, h, Or.inl rfl⟩
  · rw [List.append_assoc] at hmore
    obtain ⟨head, rest, rfl, hhead, hrest⟩ := List.map_eq_append_iff.mp hmore.symm
    refine ⟨rest, head, rfl, hhead, Or.inr ?_⟩
    obtain ⟨c, rest, rfl, hc, -⟩ := List.map_eq_cons_iff.mp hrest
    rw [Text.eq_of_toLower_eq (d := '/') hc rfl]
    rfl

theorem Alias.isSome_rest?_iff : (a.rest? path).isSome = true ↔ a.Matches path := by
  constructor
  · intro h
    obtain ⟨rest, hrest⟩ := Option.isSome_iff_exists.mp h
    exact (Alias.rest?_eq_some_iff.mp hrest).matches
  · intro h
    obtain ⟨rest, hleads⟩ := h.leads
    rw [Alias.rest?_eq_some_iff.mpr hleads, Option.isSome_some]

theorem Alias.pathFor?_eq_none_iff : a.pathFor? path = none ↔ ¬a.Matches path := by
  rw [← Alias.isSome_rest?_iff, ← Alias.isSome_pathFor?, Option.not_isSome_iff_eq_none]

theorem Alias.Matches.name_prefix (h : a.Matches path) : a.name.map Char.toLower <+: path.map Char.toLower := by
  rcases h with h | h
  · exact h ▸ List.prefix_rfl
  · exact (List.prefix_append _ _).trans h

/-- Of two aliases that match a path the shorter one stands at the front of the other. -/
theorem Alias.Matches.prefix_of_width_le (ha : a.Matches path) (hb : b.Matches path)
    (hwidth : width b.name ≤ width a.name) : b.name.map Char.toLower <+: a.name.map Char.toLower := by
  rcases List.prefix_or_prefix_of_prefix ha.name_prefix hb.name_prefix with ⟨more, hmore⟩ | h
  · have hsum := congrArg width hmore
    rw [Text.width_append, Text.width_map_toLower, Text.width_map_toLower] at hsum
    have hnone : more = [] := Text.width_eq_zero_iff.mp (by omega)
    rw [hnone, List.append_nil] at hmore
    exact hmore ▸ List.prefix_rfl
  · exact h

/-- The alias matches, and no alias that matches takes more bytes. -/
structure Longest (entries : List (String × String)) (path : List Char) (a : Alias) : Prop where
  mem : a ∈ configured entries
  suits : a.Matches path
  longest : ∀ b ∈ configured entries, b.Matches path → width b.name ≤ width a.name

theorem Picked.longest (h : Picked entries path a) : Longest entries path a := by
  refine ⟨h.mem, Alias.isSome_rest?_iff.mp h.suits, ?_⟩
  intro b hb hsuits
  rcases Alias.precedes_iff.mp (h.first b hb (Alias.isSome_rest?_iff.mpr hsuits)) with hlt | ⟨heq, -⟩
  · exact Nat.le_of_lt hlt
  · exact Nat.le_of_eq heq.symm

theorem Longest.length_le (h : Longest entries path a) (hb : b ∈ configured entries) (hsuits : b.Matches path) :
    b.name.length ≤ a.name.length := by
  simpa using (h.suits.prefix_of_width_le hsuits (h.longest b hb hsuits)).length_le

theorem Longest.name_eq (ha : Longest entries path a) (hb : Longest entries path b) :
    a.name.map Char.toLower = b.name.map Char.toLower := by
  have hab := hb.suits.prefix_of_width_le ha.suits (hb.longest a ha.mem ha.suits)
  have hba := ha.suits.prefix_of_width_le hb.suits (ha.longest b hb.mem hb.suits)
  exact hab.eq_of_length_le hba.length_le

/-! ## Requests written in another way -/

/-- Another way to write a request: with other separators, with more of them at its ends, or with letters of another
case where its longest alias stands. -/
inductive Respelled (entries : List (String × String)) : List Char → List Char → Prop
  | slashes {cs ds : List Char} (h : slashed cs = slashed ds) : Respelled entries cs ds
  | padded {before cs after : List Char} (hbefore : ∀ c ∈ before, isSeparator c = true)
      (hafter : ∀ c ∈ after, isSeparator c = true) : Respelled entries cs (before ++ cs ++ after)
  | recased {a : Alias} {before covered other after : List Char} (hbefore : ∀ c ∈ before, isSeparator c = true)
      (ha : Longest entries (normalize (before ++ covered ++ after)) a)
      (hcovered : (slashed covered).map Char.toLower = a.name.map Char.toLower)
      (hcase : other.map Char.toLower = covered.map Char.toLower) :
      Respelled entries (before ++ covered ++ after) (before ++ other ++ after)

theorem normalize_padded (hbefore : ∀ c ∈ before, isSeparator c = true) (hcs : Text.trim cs = cs)
    (hafter : ∀ c ∈ after, isSeparator c = true) : normalize (before ++ cs ++ after) = normalize cs := by
  have hblank : Bare Text.isSpace (before ++ cs ++ after) :=
    Text.bare_append (fun c hc => isSpace_of_isSeparator (hbefore c hc)) (Text.trim_eq_self_iff.mp hcs)
      fun c hc => isSpace_of_isSeparator (hafter c hc)
  rw [normalize_eq_strip, normalize_eq_strip, hcs, Text.trim_eq_self_iff.mpr hblank, slashed_append, slashed_append]
  exact Text.strip_padded (mem_slashed_of_separators hbefore) _ (mem_slashed_of_separators hafter)

theorem aliased?_recased {head head' : List Char} (ha : Longest entries (head ++ rest) a)
    (hhead : head.map Char.toLower = a.name.map Char.toLower) (hcase : head'.map Char.toLower = head.map Char.toLower) :
    ∃ p, aliased? (aliases entries) (head ++ rest) = some p ∧ aliased? (aliases entries) (head' ++ rest) = some p := by
  -- whichever longest alias is found first, it covers as much as `a` does
  have hslash : rest = [] ∨ rest.head? = some '/' := by
    obtain ⟨rest', head'', hsplit, hname, hslash⟩ := ha.suits.leads
    have hlength : head.length = head''.length := by simpa using congrArg List.length (hhead.trans hname.symm)
    rwa [(List.append_inj hsplit hlength).2]
  cases hpath : aliased? (aliases entries) (head ++ rest) with
  | none =>
      have hsuits := Alias.isSome_rest?_iff.mpr ha.suits
      rw [aliased?_eq_none.mp hpath a ha.mem] at hsuits
      cases hsuits
  | some p =>
      obtain ⟨front, b, back, hsplit, hb, hfront⟩ := List.findSome?_eq_some_iff.mp hpath
      have hname : head.map Char.toLower = b.name.map Char.toLower :=
        hhead.trans (ha.name_eq (picked_of_split hsplit (by rw [hb]; rfl) hfront).longest)
      have hrest : b.rest? (head ++ rest) = some rest := Alias.rest?_eq_some_iff.mpr ⟨head, rfl, hname, hslash⟩
      have hrest' : b.rest? (head' ++ rest) = some rest :=
        Alias.rest?_eq_some_iff.mpr ⟨head', rfl, hcase.trans hname, hslash⟩
      refine ⟨p, rfl, List.findSome?_eq_some_iff.mpr ⟨front, b, back, hsplit, ?_, ?_⟩⟩
      · rw [← hb, Alias.pathFor?, Alias.pathFor?, hrest, hrest']
      · -- what is tried before matches neither path
        intro c hc
        have hnone := hfront c hc
        rw [Alias.pathFor?_eq_none_iff] at hnone ⊢
        rwa [Alias.Matches, List.map_append, hcase, ← List.map_append]

theorem Respelled.resolve_eq {cs ds : List Char} (includer : Path) (h : Respelled entries cs ds)
    (htrim : Text.trim cs = cs) :
    resolve (aliases entries) (String.ofList ds) includer = resolve (aliases entries) (String.ofList cs) includer := by
  cases h with
  | slashes h =>
      rw [Include.resolve_eq, Include.resolve_eq, String.toList_ofList, String.toList_ofList, normalize_eq_strip,
        normalize_eq_strip, slashed_trim, slashed_trim, h]
  | padded hbefore hafter =>
      rw [Include.resolve_eq, Include.resolve_eq, String.toList_ofList, String.toList_ofList,
        normalize_padded hbefore htrim hafter]
  | @recased a before covered other after hbefore ha hcovered hcase =>
      have hother : (slashed other).map Char.toLower = (slashed covered).map Char.toLower := by
        rw [map_toLower_slashed, map_toLower_slashed, hcase]
      have htrim' : Text.trim (before ++ other ++ after) = before ++ other ++ after := by
        rw [Text.trim_eq_self_iff] at htrim ⊢
        exact htrim.recase (fun c => Text.isSpace_of_isAlpha) (by simp only [List.map_append, hcase])
      -- both paths begin with the alias, and what follows it is the same
      have hpath := normalize_covered hbefore ha.mem hcovered htrim
      have hpath' := normalize_covered hbefore ha.mem (hother.trans hcovered) htrim'
      rw [hpath] at ha
      obtain ⟨p, hp, hp'⟩ := aliased?_recased ha hcovered hother
      rw [resolve_of_aliased (p := p) (by rwa [String.toList_ofList, hpath']),
        resolve_of_aliased (p := p) (by rwa [String.toList_ofList, hpath])]

/-- A request is resolved through a longest of the aliases that match it, and beside the including file if none does.
Separators of either kind, more of them at the ends and the case of the letters of the alias make no difference. -/
theorem longest_alias_used (entries : List (String × String)) (read : Reader) (written : String) (includer : Path) :
    let path := normalize written.toList
    let result := (resolver entries read).resolve written includer
    (path = [] → result = .error .empty) ∧
    (path ≠ [] → (∀ a ∈ configured entries, ¬a.Matches path) →
      result = .ok (settled ((includer.parent?.getD ⟨[]⟩).join ⟨encode path⟩))) ∧
    ((∃ a ∈ configured entries, a.Matches path) →
      ∃ a rest, Longest entries path a ∧ (∀ b ∈ configured entries, b.Matches path → b.name.length ≤ a.name.length) ∧
        a.Leads path rest ∧
        result = .ok (settled (if rest = [] then a.target else a.target.join ⟨encode rest.tail⟩))) ∧
    (Text.trim written.toList = written.toList → ∀ other : String, Respelled entries written.toList other.toList →
      (resolver entries read).resolve other includer = result) := by
  intro path result
  have hresult : result = resolve (aliases entries) written includer := by
    show (resolver entries read).resolve written includer = _
    rw [resolve_resolver]
  refine ⟨?_, ?_, ?_, ?_⟩
  · intro hempty
    rw [hresult, resolve_eq, if_pos hempty]
  · intro hsome hnone
    have hnot : aliased? (aliases entries) path = none :=
      aliased?_eq_none.mpr fun a ha => by
        rw [← Option.not_isSome_iff_eq_none, Alias.isSome_rest?_iff]
        exact hnone a ha
    rw [hresult, resolve_eq, if_neg hsome, hnot, Option.map_none, Option.getD_none]
  · rintro ⟨a₀, ha₀, hsuits⟩
    obtain ⟨a, rest, p, hpicked, hleads, hp, hresolve⟩ :=
      exists_picked_resolve read includer ⟨a₀, ha₀, hsuits.leads⟩
    refine ⟨a, rest, hpicked.longest, fun b => hpicked.longest.length_le, hleads, hresolve.trans ?_⟩
    rw [Alias.pathFor?, Alias.rest?_eq_some_iff.mpr hleads, Option.map_some, Option.some_inj] at hp
    rw [← hp]
    cases rest <;> rfl
  · intro htrim other h
    rw [hresult, resolve_resolver]
    simpa using h.resolve_eq includer htrim

/-- The longer of two aliases is used, also if it is written in capitals and with slashes. -/
theorem capitals_resolve_by_longest_alias :
    let entries := [("\\x", "/opt/x"), ("\\x\\cba", "/opt/cba")]
    let resolve := (resolver entries fun _ => .error .notFound).resolve
    Longest entries (normalize "\\x\\cba\\main.hpp".toList) ⟨"x/cba".toList, .ofText "/opt/cba"⟩ ∧
      resolve "\\X\\CBA\\main.hpp" (.ofText "/ws/init.sqf") = resolve "\\x\\cba\\main.hpp" (.ofText "/ws/init.sqf") := by
  intro entries resolve
  have hlongest : Longest entries (normalize "\\x\\cba\\main.hpp".toList) ⟨"x/cba".toList, .ofText "/opt/cba"⟩ := by
    refine ⟨by decide +kernel, Or.inr (by decide +kernel), ?_⟩
    have hmax : ∀ b ∈ configured entries, width b.name ≤ width "x/cba".toList := by decide +kernel
    exact fun b hb _ => hmax b hb
  refine ⟨hlongest, ?_⟩
  have hsplit : "\\x\\cba\\main.hpp".toList = ['\\'] ++ "x\\cba".toList ++ "\\main.hpp".toList := by decide +kernel
  have hother : "\\X\\CBA\\main.hpp".toList = ['\\'] ++ "X\\CBA".toList ++ "\\main.hpp".toList := by decide +kernel
  refine (longest_alias_used entries _ "\\x\\cba\\main.hpp" _).2.2.2 (by decide +kernel) _ ?_
  rw [hsplit] at hlongest ⊢
  rw [hother]
  exact .recased (by simp [isSeparator]) hlongest (by decide +kernel) (by decide +kernel)

end SqfIndex.Include
