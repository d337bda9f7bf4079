import SqfIndex.Analysis.Frontend
import SqfIndex.Proofs.Script.Extraction
import SqfIndex.Proofs.Script.Findings

/-!
# Warnings and variables

Warnings about locals are made from the variables of the significant tokens alone. These are the variables of the
script without their comments (`variablesOf_significant`): which names are mentioned, and where, is told by the same
tokens with or without comments around them, and gathering looks at nothing else. So warnings can be read off the
variables of the analysis, and a local that is declared anywhere has none: `warnings_from_variables`.
-/

namespace SqfIndex

def Variable.uncommented {α : Type} (v : Variable α) : Variable α := { v with comment := none }

namespace Script

variable {s : Sighting} {t : Token} {ts all tokens : List Token}

def Sighting.uncommented (s : Sighting) : Sighting := { s with comment := none }

/-- The mention without a comment that is told by what it is apart from one. -/
def Sighting.ofBare : Mention × String × Span → Sighting
  | (m, name, span) => { name, span, defines := decide (m = .definition) }

theorem Sighting.ofBare_bare (s : Sighting) : ofBare s.bare = s.uncommented := by
  obtain ⟨name, span, defines, comment⟩ := s
  cases defines <;> rfl

/-! ## Gathering without comments -/

theorem uncommented_addTo (v : Variable Span) (s : Sighting) :
    (addTo v s).uncommented = addTo v.uncommented s.uncommented := by
  obtain ⟨name, span, defines, comment⟩ := s
  cases defines <;> rfl

theorem uncommented_gather (key : String) (s : Sighting) (found : Gathered) :
    (gather key s found).map (Prod.map id Variable.uncommented) =
      gather key s.uncommented (found.map (Prod.map id Variable.uncommented)) := by
  induction found with
  | nil => exact congrArg (fun v => [(key, v)]) (uncommented_addTo _ s)
  | cons e found ih =>
      obtain ⟨key', v⟩ := e
      by_cases hkey : key' = key
      · simp [gather, hkey, uncommented_addTo]
      · simp [gather, hkey, ih]

theorem uncommented_gatherAll (ss : List Sighting) :
    (gatherAll ss).map Variable.uncommented = gatherAll (ss.map Sighting.uncommented) := by
  have hfound : (gatheredFrom ss).map (Prod.map id Variable.uncommented) =
      gatheredFrom (ss.map Sighting.uncommented) := by
    induction ss using List.reverseRecOn with
    | nil => rfl
    | append_singleton ss s ih =>
        rw [gatheredFrom_append_singleton, uncommented_gather, ih, List.map_append]
        exact (gatheredFrom_append_singleton _ s.uncommented).symm
  rw [gatherAll_eq, gatherAll_eq, ← hfound, List.map_map, List.map_map]
  rfl

/-! ## Mentions without comments -/

theorem commentAbove?_eq_none (h : ∀ t ∈ all, t.kind ≠ .comment) (start : Nat) : commentAbove? start all = none := by
  fun_induction commentAbove? start all with
  | case1 before t rest _ ih => exact ih fun u hu => h u (List.mem_cons_of_mem before hu)
  | case2 before t rest _ hcomment => exact absurd hcomment.2.1 (h before List.mem_cons_self)
  | case3 => rfl
  | case4 => rfl

theorem comment_of_mem_declarations {d : Declarator} (h : s ∈ declarations d ts) : s.comment = none := by
  have hdeclaration {t : Token} (ht : declaration? t = some s) : s.comment = none := by
    simp only [declaration?] at ht
    split at ht <;> cases ht
    rfl
  unfold declarations at h
  split at h
  · cases h
  · split at h
    · exact hdeclaration (Option.mem_toList.mp h)
    · split at h
      · obtain ⟨t, -, ht⟩ := List.mem_filterMap.mp h
        exact hdeclaration ht
      · cases h

theorem comment_of_mem_sightingsFrom (hall : ∀ t ∈ all, t.kind ≠ .comment) {before : Option Token}
    (h : s ∈ sightingsFrom all before ts) : s.comment = none := by
  induction ts generalizing before with
  | nil => cases h
  | cons t ts ih =>
      rcases List.mem_append.mp h with h | h
      · unfold sightingsAt at h
        split at h
        · cases h
        · split at h
          · exact comment_of_mem_declarations h
          · split at h
            · rw [List.mem_singleton.mp h]
              exact commentAbove?_eq_none hall _
            · rw [List.mem_singleton.mp h]
      · exact ih h

/-- Which names are mentioned, and where, does not depend on the tokens in which comments are looked for. -/
theorem uncommented_sightings (ts all all' : List Token) :
    (sightings ts all).map Sighting.uncommented = (sightings ts all').map Sighting.uncommented := by
  have hbare (all : List Token) : (sightings ts all).map Sighting.uncommented =
      ((mentionedFrom ts).map bareMention).map Sighting.ofBare := by
    rw [← bare_sightingsFrom all none ts, List.map_map]
    exact List.map_congr_left fun s _ => s.ofBare_bare.symm
  rw [hbare, hbare]

/-- Without the comments of a script its variables are the same but for their comments. -/
theorem variablesOf_significant (tokens : List Token) :
    variablesOf (significant tokens) (significant tokens) =
      (variablesOf (significant tokens) tokens).map Variable.uncommented := by
  have hall : ∀ t ∈ significant tokens, t.kind ≠ .comment := by
    intro t ht
    simpa [Token.isComment] using (List.mem_filter.mp ht).2
  have hplain : (sightings (significant tokens) (significant tokens)).map Sighting.uncommented =
      sightings (significant tokens) (significant tokens) := by
    refine (List.map_congr_left fun s hs => ?_).trans (List.map_id _)
    rw [Sighting.uncommented, ← comment_of_mem_sightingsFrom hall hs, id]
  rw [variablesOf, variablesOf, uncommented_gatherAll, uncommented_sightings _ tokens (significant tokens), hplain]

/-! ## Declared names -/

/-- The token declares a name: it is a word before `=`, or a string that a declaring word reaches. -/
def DeclaresIn (tokens : List Token) (t : Token) : Prop :=
  ∃ before after, tokens = before ++ t :: after ∧
    (t.kind = .identifier ∧ declarator? t = none ∧ after.head?.any isAssignment = true ∨
      t.namesLocal = true ∧ ∃ front ∈ before.tails, declaresNext front = true)

section

variable {code : List Char} (hlex : lex code = .ok tokens)
include hlex

theorem DeclaresIn.mentioned (h : DeclaresIn (significant tokens) t) :
    (.definition, t) ∈ mentionedFrom (significant tokens) := by
  obtain ⟨before, after, hsplit, hdeclares⟩ := h
  obtain ⟨hbefore, hafter⟩ : t ∉ before ∧ t ∉ after := by
    have hnodup : (significant tokens).Nodup := (laid_of_lex hlex).nodup.filter _
    rw [hsplit, List.nodup_middle, List.nodup_cons, List.mem_append] at hnodup
    exact not_or.mp hnodup.1
  rw [← List.count_pos_iff, hsplit]
  rcases hdeclares with ⟨hkind, hname, hassigned⟩ | ⟨hnames, hreached⟩
  · rw [count_mentionedFrom_name hkind hname hbefore hafter, if_pos hassigned]
    decide
  · rw [count_mentionedFrom_string hnames hbefore hafter, List.countP_pos_iff]
    exact hreached

theorem DeclaresIn.defined (h : DeclaresIn (significant tokens) t) {v : Variable Span}
    (hv : v ∈ variablesOf (significant tokens) tokens)
    (hname : Text.lowered (String.ofList t.word) = Text.lowered v.name) : v.definitions ≠ [] := by
  have hmentioned := h.mentioned hlex
  have hplace : t.place ∈ placesOf .definition (variablesOf (significant tokens) tokens) := by
    rw [(placesOf_variablesOf _ _ _).mem_iff]
    exact List.mem_map.mpr ⟨_, List.mem_filter.mpr ⟨hmentioned, by simp⟩, rfl⟩
  -- the variable with this place has the same name, and names are told apart in lower case
  obtain ⟨w, hw, hmem⟩ := List.mem_flatMap.mp hplace
  obtain ⟨t', ht', -, hsame, hlowered⟩ := exists_token_of_place hw hmem
  rw [← place_inj hlex (mem_of_mem_significant (mem_of_mem_mentionedFrom hmentioned).1) (mem_of_mem_significant ht') hsame,
    hname] at hlowered
  obtain rfl : v = w := List.inj_on_of_nodup_map (nodup_lowered_names _) hv hw hlowered
  exact List.ne_nil_of_mem hmem

theorem word_of_usage {v : Variable Span} (hv : v ∈ variablesOf (significant tokens) tokens) {span : Span}
    (hspan : span ∈ v.usages) :
    ∃ u ∈ significant tokens, u.kind = .identifier ∧ span = u.span ∧
      Text.lowered (String.ofList u.text) = Text.lowered v.name := by
  obtain ⟨u, hu, hkind, rfl⟩ := identifier_of_usage hv hspan
  obtain ⟨u', hu', -, hsame, hlowered⟩ := exists_token_of_place (m := .usage) hv hspan
  have hplace : u.place = u.span := if_neg (by simp [hkind])
  have hword : u.word = u.text := if_neg (by simp [hkind])
  rw [← place_inj hlex (mem_of_mem_significant hu) (mem_of_mem_significant hu') (hplace.trans hsame), hword] at hlowered
  exact ⟨u, hu, hkind, rfl, hlowered⟩

end

/-! ## Warnings -/

theorem isUndefinedLocal_iff {v : Variable Span} :
    isUndefinedLocal v = true ↔
      v.name.toList.head? = some '_' ∧ Text.lowered v.name ∉ Name.magicLocals ∧ v.definitions = [] := by
  simp [isUndefinedLocal, Name.isLocal, Name.isMagicLocal, and_assoc]

theorem undefinedLocals_significant (tokens : List Token) :
    undefinedLocals (significant tokens) =
      ((variablesOf (significant tokens) tokens).filter isUndefinedLocal).flatMap fun v =>
        v.usages.map fun span => ⟨.warning, "Local variable " ++ v.name ++ " is used but never defined", span⟩ := by
  rw [undefinedLocals, variablesOf_significant, List.filter_map, List.flatMap_map]
  rfl

/-- The warnings of a script are one for each usage of its local variables that are not the engine's and have no
definition, in their order. Its variables are the same when no comments are read, but for their own comments. No
local is warned about that is declared anywhere, whatever the case of its letters. -/
theorem warnings_from_variables {code : List Char} {tokens : List Token}
    (htokens : Frontend.script.tokenize code = .ok tokens) :
    ∃ errors tree vars, Frontend.script.parse tokens = .ok (errors, tree) ∧
      Frontend.script.analyze tree tokens code = .ok vars ∧
      Frontend.script.lint tree code =
        (vars.filter fun v =>
          v.name.toList.head? = some '_' ∧ Text.lowered v.name ∉ Name.magicLocals ∧ v.definitions = []).flatMap
          (fun v => v.usages.map fun span =>
            ⟨.warning, "Local variable " ++ v.name ++ " is used but never defined", span⟩) ∧
      Frontend.script.analyze tree tree code = .ok (vars.map Variable.uncommented) ∧
      ∀ f ∈ Frontend.script.lint tree code, ∃ v ∈ vars, ∃ u ∈ tree, u.kind = .identifier ∧
        f = ⟨.warning, "Local variable " ++ v.name ++ " is used but never defined", u.span⟩ ∧
        Text.lowered (String.ofList u.text) = Text.lowered v.name ∧
        ∀ t, DeclaresIn tree t → Text.lowered (String.ofList t.word) ≠ Text.lowered v.name := by
  have hlint : Frontend.script.lint (significant tokens) code = _ := undefinedLocals_significant tokens
  refine ⟨_, _, _, rfl, rfl, hlint.trans ?_, congrArg Except.ok (variablesOf_significant tokens), ?_⟩
  · refine congrArg (List.flatMap _) (List.filter_congr fun v _ => ?_)
    rw [Bool.eq_iff_iff, isUndefinedLocal_iff, decide_eq_true_iff]
  · rw [hlint]
    intro f hf
    obtain ⟨v, hv, hf⟩ := List.mem_flatMap.mp hf
    obtain ⟨span, hspan, rfl⟩ := List.mem_map.mp hf
    obtain ⟨hv, hundefined⟩ := List.mem_filter.mp hv
    obtain ⟨u, hu, hkind, rfl, hname⟩ := word_of_usage htokens hv hspan
    refine ⟨v, hv, u, hu, hkind, rfl, hname, ?_⟩
    intro t ht hsame
    exact ht.defined htokens hv hsame (isUndefinedLocal_iff.mp hundefined).2.2

/-- `private "_b"; /* _c */ a = _B + _c` -/
def lintedCode : List Char := "private \"_b\"; /* _c */ a = _B + _c".toList

def lintedTokens : List Token :=
  [⟨.identifier, [], 0, "private".toList⟩, ⟨.text, [' '], 8, "\"_b\"".toList⟩, ⟨.mark ';', [], 12, [';']⟩,
    ⟨.comment, [' '], 14, "/* _c */".toList⟩, ⟨.identifier, [' '], 23, ['a']⟩, ⟨.operator, [' '], 25, ['=']⟩,
    ⟨.identifier, [' '], 27, ['_', 'B']⟩, ⟨.operator, [' '], 30, ['+']⟩, ⟨.identifier, [' '], 32, ['_', 'c']⟩]

/-- The string declares its local in either case; the comment declares none. -/
theorem lintedCode_warnings :
    lex lintedCode = .ok lintedTokens ∧
      Frontend.script.lint (significant lintedTokens) lintedCode =
        [⟨.warning, "Local variable _c is used but never defined", ⟨32, 34⟩⟩] := by
  have hlex : lex lintedCode = .ok lintedTokens := by decide +kernel
  obtain ⟨errors, tree, vars, hparse, hanalyze, hlint, -⟩ := warnings_from_variables hlex
  cases hparse
  cases hanalyze
  refine ⟨hlex, hlint.trans ?_⟩
  decide +kernel

end Script

end SqfIndex
