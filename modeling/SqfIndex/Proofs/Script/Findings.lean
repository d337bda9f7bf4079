import SqfIndex.Proofs.Script.Brackets
import SqfIndex.Proofs.Script.Mentions

/-!
# What findings of a script are about

A finding about brackets has the place of a bracket, and a warning about a local that of an identifier:
`token_of_finding`.
-/

namespace SqfIndex.Script

/-! ## Brackets -/

theorem lexeme_mark {c m : Char} {rest text after : List Char} (h : lexeme c rest = some (.mark m, text, after)) :
    isMark m = true ∧ text = [m] := by
  unfold lexeme at h
  split at h
  · cases h
  split at h
  · cases h
  split at h
  · simp at h
  split at h
  · cases h
  split at h
  · cases h
  split at h
  · next hc => cases h; exact ⟨hc, rfl⟩
  split at h
  · split at h <;> cases h
  · cases h

theorem text_of_mark {code : List Char} {tokens : List Token} (h : lex code = .ok tokens) {t : Token} (ht : t ∈ tokens)
    {c : Char} (hkind : t.kind = .mark c) : isMark c = true ∧ t.text = [c] := by
  obtain ⟨c', rest, after, hlexeme⟩ := lexeme_of_mem_lexFrom (lex_eq_ok_iff.mp h) ht
  rw [hkind] at hlexeme
  exact lexeme_mark hlexeme

theorem place_finding (fault : BracketFault) : fault.finding.place = fault.token.span := by
  cases fault <;> rfl

/-! ## Locals -/

/-- Only an identifier makes a usage. -/
theorem identifier_of_usage {tokens all : List Token} {v : Variable Span} (hv : v ∈ variablesOf tokens all) {span : Span}
    (hspan : span ∈ v.usages) : ∃ t ∈ tokens, t.kind = .identifier ∧ span = t.span := by
  have hplace : span ∈ placesOf .usage (variablesOf tokens all) := List.mem_flatMap.mpr ⟨v, hv, hspan⟩
  obtain ⟨p, hp, rfl⟩ := List.mem_map.mp ((placesOf_variablesOf _ _ _).mem_iff.mp hplace)
  obtain ⟨hp, husage⟩ := List.mem_filter.mp hp
  obtain ⟨ht, ⟨hkind, -⟩ | ⟨hdefinition, -⟩⟩ := mem_of_mem_mentionedFrom hp
  · exact ⟨p.2, ht, hkind, by rw [Token.place, if_neg (by simp [hkind])]⟩
  · rw [hdefinition] at husage
    simp at husage

/-! ## Findings -/

theorem token_of_finding {code : List Char} {tokens : List Token} (hlex : lex code = .ok tokens) {f : Finding}
    (hf : f ∈ bracketFindings (significant tokens) ++ undefinedLocals (significant tokens)) :
    ∃ t ∈ tokens, f.place = t.span ∧ (t.kind = .identifier ∨ ∃ c, isMark c = true ∧ t.text = [c]) := by
  rcases List.mem_append.mp hf with hf | hf
  · obtain ⟨fault, hfault, rfl⟩ := List.mem_map.mp hf
    rw [place_finding]
    have hmarks : ∀ t ∈ significant tokens, ∀ c, t.kind = .mark c → t ∈ tokens ∧ ∃ c, isMark c = true ∧ t.text = [c] :=
      fun t ht c hkind => ⟨mem_of_mem_significant ht, c, text_of_mark hlex (mem_of_mem_significant ht) hkind⟩
    have hfaults : ∀ fault ∈ bracketFaults [] (significant tokens),
        fault.token ∈ tokens ∧ ∃ c, isMark c = true ∧ fault.token.text = [c] :=
      forall_mem_bracketFaults (by simp) (fun t ht c hkind _ => hmarks t ht c hkind)
        (fun t ht c hkind _ => hmarks t ht c hkind)
    obtain ⟨ht, hmark⟩ := hfaults fault hfault
    exact ⟨fault.token, ht, rfl, Or.inr hmark⟩
  · obtain ⟨v, hv, hf⟩ := List.mem_flatMap.mp hf
    obtain ⟨span, hspan, rfl⟩ := List.mem_map.mp hf
    obtain ⟨t, ht, hkind, hplace⟩ := identifier_of_usage (List.mem_filter.mp hv).1 hspan
    exact ⟨t, mem_of_mem_significant ht, hplace, Or.inl hkind⟩

end SqfIndex.Script
