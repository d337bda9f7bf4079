import Mathlib.Data.List.Induction
import SqfIndex.Proofs.Script.Tokens
import SqfIndex.Proofs.Symbol.Places
import SqfIndex.Proofs.Text.Ends
import SqfIndex.Script.Variables

/-!
# Variables and the words that mention them

Names of variables are identifiers, for which lower case is a matter of ASCII letters
(`same_of_lowered_eq`). Apart from comments, mentions are told by the tokens they are made with (`bare_sightingsFrom`),
and gathering them loses no place and repeats none (`placesOf_variablesOf`). A variable that is not local is mentioned
by identifiers of the script alone, each of which has its name up to case: `identifier_of_place`.
-/

namespace SqfIndex

/-! ## Lower case of words -/

namespace Text

theorem lowerChar_of_ascii {c : Char} (h : c.toNat < 0x80) : lowerChar c = [c.toLower] := by
  rw [lowerChar, if_pos h]

theorem lowerAfter_of_ascii (before : List Char) {cs : List Char} (h : ∀ c ∈ cs, c.toNat < 0x80) :
    lowerAfter before cs = cs.map Char.toLower := by
  induction cs generalizing before with
  | nil => rfl
  | cons c cs ih =>
      have hc := h c List.mem_cons_self
      have hsigma : c ≠ 'Σ' := by
        rintro rfl
        exact absurd hc (by decide)
      rw [lowerAfter, if_neg hsigma, lowerChar_of_ascii hc, ih _ fun d hd => h d (List.mem_cons_of_mem c hd)]
      rfl

theorem lowered_of_ascii {s : String} (h : ∀ c ∈ s.toList, c.toNat < 0x80) : lowered s = asciiLower s := by
  rw [lowered, lower, lowerAfter_of_ascii [] h, asciiLower]

end Text

namespace Script

theorem toNat_lt_of_isWordChar {c : Char} (h : isWordChar c = true) : c.toNat < 0x80 := by
  delta isWordChar Char.isAlphanum Char.isAlpha Char.isUpper Char.isLower Char.isDigit at h
  simp only [Bool.or_eq_true, Bool.and_eq_true, decide_eq_true_eq, beq_iff_eq] at h
  have hval : c.toNat = c.val.toNat := rfl
  rcases h with ((⟨-, h⟩ | ⟨-, h⟩) | ⟨-, h⟩) | rfl
  · have hle := UInt32.le_iff_toNat_le.mp h
    simp at hle
    omega
  · have hle := UInt32.le_iff_toNat_le.mp h
    simp at hle
    omega
  · have hle := UInt32.le_iff_toNat_le.mp h
    simp at hle
    omega
  · decide

theorem lowered_of_isIdentifier {s : String} (h : isIdentifier s.toList = true) : Text.lowered s = Text.asciiLower s :=
  Text.lowered_of_ascii fun _ hc => toNat_lt_of_isWordChar (isWordChar_of_mem h hc)

/-- Identifiers that agree in lower case agree up to the case of ASCII letters. -/
theorem same_of_lowered_eq {s t : String} (hs : isIdentifier s.toList = true) (ht : isIdentifier t.toList = true)
    (h : Text.lowered s = Text.lowered t) : Text.sameIgnoringAsciiCase s t = true := by
  rw [lowered_of_isIdentifier hs, lowered_of_isIdentifier ht] at h
  simp [Text.sameIgnoringAsciiCase, h]

/-- Lower case shows whether an identifier is local. -/
theorem isLocal_of_lowered_eq {s t : String} (hs : isIdentifier s.toList = true) (ht : isIdentifier t.toList = true)
    (h : Text.lowered s = Text.lowered t) (hlocal : Name.isLocal s = true) : Name.isLocal t = true := by
  rw [lowered_of_isIdentifier hs, lowered_of_isIdentifier ht, Text.asciiLower, Text.asciiLower, String.ofList_inj] at h
  have hheads := congrArg List.head? h
  simp only [Name.isLocal, beq_iff_eq] at hlocal ⊢
  rw [List.head?_map, List.head?_map, hlocal] at hheads
  obtain ⟨c, hc, hlower⟩ := Option.map_eq_some_iff.mp hheads.symm
  rw [hc, Text.eq_of_toLower_eq (d := '_') hlower rfl]

/-! ## Mentions -/

namespace Token

/-- What stands between the quotes of a string. -/
def content (t : Token) : List Char := (t.text.drop 1).dropLast

/-- Whether the token is a string that names a local. -/
def namesLocal (t : Token) : Bool := t.kind == .text && t.content.head? == some '_' && isIdentifier t.content

/-- The word that a mention with this token is of. -/
def word (t : Token) : List Char := if t.kind = .text then t.content else t.text

/-- Where that word stands. -/
def place (t : Token) : Span := if t.kind = .text then ⟨t.start + 1, t.stop - 1⟩ else t.span

end Token

/-- The strings that a declaring word declares. -/
def declared (d : Declarator) (after : List Token) : List Token :=
  match after with
  | [] => []
  | t :: _ =>
    if t.kind = .text then [t].filter (·.namesLocal)
    else if t.kind = .mark '[' ∧ d ≠ .forWord then (listedStrings 0 after).filter (·.namesLocal)
    else []

/-- The tokens that are mentions on account of one token: itself, or what it declares. -/
def mentionedAt (t : Token) (after : List Token) : List (Mention × Token) :=
  if t.kind ≠ .identifier then []
  else
    match declarator? t with
    | some d => (declared d after).map (.definition, ·)
    | none => [(if after.head?.any isAssignment then .definition else .usage, t)]

def mentionedFrom : List Token → List (Mention × Token)
  | [] => []
  | t :: after => mentionedAt t after ++ mentionedFrom after

def Sighting.mention (s : Sighting) : Mention := if s.defines then .definition else .usage

/-- What a mention is apart from its comment. -/
def Sighting.bare (s : Sighting) : Mention × String × Span := (s.mention, s.name, s.span)

def bareMention (p : Mention × Token) : Mention × String × Span := (p.1, String.ofList p.2.word, p.2.place)

variable {t : Token} {ts : List Token}

theorem mem_of_mem_listedStrings {depth : Nat} (h : t ∈ listedStrings depth ts) : t ∈ ts ∧ t.kind = .text := by
  fun_induction listedStrings depth ts with
  | case1 => cases h
  | case2 depth u ts hkind ih => exact ⟨List.mem_cons_of_mem u (ih h).1, (ih h).2⟩
  | case3 => cases h
  | case4 depth u ts hkind hdepth ih => exact ⟨List.mem_cons_of_mem u (ih h).1, (ih h).2⟩
  | case5 depth u ts hkind ih =>
      rcases List.mem_cons.mp h with rfl | h
      · exact ⟨List.mem_cons_self, hkind⟩
      · exact ⟨List.mem_cons_of_mem u (ih h).1, (ih h).2⟩
  | case6 depth u ts _ _ _ ih => exact ⟨List.mem_cons_of_mem u (ih h).1, (ih h).2⟩

theorem declaration?_eq (h : t.kind = .text) :
    (declaration? t).map Sighting.bare = if t.namesLocal then some (bareMention (.definition, t)) else none := by
  have hnames : t.namesLocal = true ↔ t.content.head? = some '_' ∧ isIdentifier t.content = true := by
    simp [Token.namesLocal, h]
  rw [declaration?, apply_ite (Option.map Sighting.bare)]
  refine if_congr hnames.symm ?_ rfl
  simp [bareMention, Sighting.bare, Sighting.mention, Token.word, Token.place, h, Token.content]

theorem bare_filterMap_declaration? (h : ∀ t ∈ ts, t.kind = .text) :
    (ts.filterMap declaration?).map Sighting.bare =
      (ts.filter (·.namesLocal)).map fun t => bareMention (.definition, t) := by
  induction ts with
  | nil => rfl
  | cons t ts ih =>
      obtain ⟨ht, hts⟩ := List.forall_mem_cons.mp h
      have hfirst := declaration?_eq ht
      cases hnames : t.namesLocal with
      | true =>
          rw [if_pos hnames, Option.map_eq_some_iff] at hfirst
          obtain ⟨s, hs, hbare⟩ := hfirst
          rw [List.filterMap_cons_some hs, List.filter_cons_of_pos hnames, List.map_cons, List.map_cons, hbare, ih hts]
      | false =>
          rw [if_neg (by simp [hnames]), Option.map_eq_none_iff] at hfirst
          rw [List.filterMap_cons_none hfirst, List.filter_cons_of_neg (by simp [hnames]), ih hts]

theorem bare_declarations (d : Declarator) (after : List Token) :
    (declarations d after).map Sighting.bare = (declared d after).map fun t => bareMention (.definition, t) := by
  unfold declarations declared
  cases after with
  | nil => rfl
  | cons t after =>
      by_cases htext : t.kind = .text
      · simp only [htext, ↓reduceIte]
        rw [← bare_filterMap_declaration? (by simpa using htext)]
        cases hdecl : declaration? t <;> simp [hdecl]
      · by_cases hlist : t.kind = .mark '[' ∧ d ≠ .forWord
        · simp only [if_neg htext, if_pos hlist]
          exact bare_filterMap_declaration? fun u hu => (mem_of_mem_listedStrings hu).2
        · simp only [htext, hlist, ↓reduceIte, List.map_nil]

theorem bare_sightingsAt (all : List Token) (before : Option Token) (t : Token) (after : List Token) :
    (sightingsAt all before t after).map Sighting.bare = (mentionedAt t after).map bareMention := by
  unfold sightingsAt mentionedAt
  by_cases hkind : t.kind = .identifier
  · have hword : t.word = t.text := if_neg (by simp [hkind])
    have hplace : t.place = t.span := if_neg (by simp [hkind])
    simp only [hkind, ne_eq, not_true_eq_false, ↓reduceIte]
    cases declarator? t with
    | some d => rw [bare_declarations, List.map_map]; rfl
    | none =>
        cases after.head?.any isAssignment <;> simp [Sighting.bare, Sighting.mention, bareMention, hword, hplace]
  · simp only [ne_eq, hkind, not_false_eq_true, ↓reduceIte, List.map_nil]

/-- Apart from comments, the mentions in a script are those with certain of its tokens. -/
theorem bare_sightingsFrom (all : List Token) (before : Option Token) (ts : List Token) :
    (sightingsFrom all before ts).map Sighting.bare = (mentionedFrom ts).map bareMention := by
  induction ts generalizing before with
  | nil => rfl
  | cons t ts ih => rw [sightingsFrom, mentionedFrom, List.map_append, List.map_append, bare_sightingsAt, ih]

theorem mem_of_mem_declared {d : Declarator} (h : t ∈ declared d ts) : t ∈ ts ∧ t.namesLocal = true := by
  unfold declared at h
  split at h
  · cases h
  · split at h
    · obtain ⟨hmem, hnames⟩ := List.mem_filter.mp h
      rw [List.mem_singleton.mp hmem] at hnames ⊢
      exact ⟨List.mem_cons_self, hnames⟩
    · split at h
      · obtain ⟨hmem, hnames⟩ := List.mem_filter.mp h
        exact ⟨(mem_of_mem_listedStrings hmem).1, hnames⟩
      · cases h

theorem mem_of_mem_mentionedAt {p : Mention × Token} (h : p ∈ mentionedAt t ts) :
    p.2 = t ∧ t.kind = .identifier ∧ declarator? t = none ∨ p.1 = .definition ∧ p.2 ∈ ts ∧ p.2.namesLocal = true := by
  unfold mentionedAt at h
  split at h
  · cases h
  · next hkind =>
    split at h
    · obtain ⟨u, hu, rfl⟩ := List.mem_map.mp h
      exact Or.inr ⟨rfl, mem_of_mem_declared hu⟩
    · next hnone =>
      rw [List.mem_singleton.mp h]
      exact Or.inl ⟨rfl, Decidable.not_not.mp hkind, hnone⟩

/-- A token with which a name is mentioned is a word other than a declaring one, or it is a string that names a
local, which is then defined. -/
theorem mem_of_mem_mentionedFrom {p : Mention × Token} (h : p ∈ mentionedFrom ts) :
    p.2 ∈ ts ∧ (p.2.kind = .identifier ∧ declarator? p.2 = none ∨ p.1 = .definition ∧ p.2.namesLocal = true) := by
  induction ts with
  | nil => cases h
  | cons t ts ih =>
      rcases List.mem_append.mp h with h | h
      · rcases mem_of_mem_mentionedAt h with ⟨rfl, hname⟩ | ⟨hdefinition, hmem, hnames⟩
        · exact ⟨List.mem_cons_self, Or.inl hname⟩
        · exact ⟨List.mem_cons_of_mem t hmem, Or.inr ⟨hdefinition, hnames⟩⟩
      · exact ⟨List.mem_cons_of_mem t (ih h).1, (ih h).2⟩

theorem exists_mentioned {all : List Token} {before : Option Token} {s : Sighting}
    (h : s ∈ sightingsFrom all before ts) :
    ∃ p ∈ mentionedFrom ts, s.mention = p.1 ∧ s.name = String.ofList p.2.word ∧ s.span = p.2.place := by
  have hbare : s.bare ∈ (mentionedFrom ts).map bareMention := by
    rw [← bare_sightingsFrom all before ts]
    exact List.mem_map_of_mem h
  obtain ⟨p, hp, heq⟩ := List.mem_map.mp hbare
  simp only [bareMention, Sighting.bare, Prod.mk.injEq] at heq
  exact ⟨p, hp, heq.1.symm, heq.2.1.symm, heq.2.2.symm⟩

/-- A mention by a word of the script, or the declaration of a local. -/
def Sighting.Justified (tokens : List Token) (s : Sighting) : Prop :=
  (∃ t ∈ tokens, t.kind = .identifier ∧ s.name = String.ofList t.text ∧ s.span = t.span) ∨
    Name.isLocal s.name = true ∧ isIdentifier s.name.toList = true

theorem sightingsFrom_justified {tokens all : List Token} {before : Option Token} {rest : List Token}
    (hrest : ∀ t ∈ rest, t ∈ tokens) {s : Sighting} (h : s ∈ sightingsFrom all before rest) : s.Justified tokens := by
  obtain ⟨p, hp, -, hname, hspan⟩ := exists_mentioned h
  obtain ⟨hmem, ⟨hkind, -⟩ | ⟨-, hnames⟩⟩ := mem_of_mem_mentionedFrom hp
  · rw [Token.word, if_neg (by simp [hkind])] at hname
    rw [Token.place, if_neg (by simp [hkind])] at hspan
    exact Or.inl ⟨p.2, hrest _ hmem, hkind, hname, hspan⟩
  · simp only [Token.namesLocal, Bool.and_eq_true, beq_iff_eq] at hnames
    obtain ⟨⟨htext, hlocal⟩, hword⟩ := hnames
    rw [Token.word, if_pos htext] at hname
    rw [Sighting.Justified, hname, Name.isLocal, String.toList_ofList, hlocal]
    exact Or.inr ⟨rfl, hword⟩

theorem Sighting.Justified.isIdentifier {code : List Char} {tokens : List Token} (hlex : lex code = .ok tokens)
    {s : Sighting} (h : s.Justified tokens) : Script.isIdentifier s.name.toList = true := by
  rcases h with ⟨t, ht, hkind, hname, -⟩ | ⟨-, h⟩
  · obtain ⟨_, _, -, -, hword⟩ := inText_of_mem_lex hlex ht
    rw [hname, String.toList_ofList]
    exact (hword hkind).1
  · exact h

/-! ## Variables -/

/-- The variable is called as a mention is, and its places are those of mentions that agree in lower case. -/
structure Made (ss : List Sighting) (v : Variable Span) : Prop where
  name : ∃ s ∈ ss, s.name = v.name
  places : ∀ m, ∀ span ∈ v.places m, ∃ s ∈ ss, s.span = span ∧ Text.lowered s.name = Text.lowered v.name

variable {ss : List Sighting} {s : Sighting} {v : Variable Span}

theorem name_addTo (v : Variable Span) (s : Sighting) : (addTo v s).name = v.name := by
  unfold addTo
  split <;> rfl

theorem places_addTo (v : Variable Span) (s : Sighting) (m : Mention) :
    (addTo v s).places m = v.places m ++ if s.mention = m then [s.span] else [] := by
  unfold addTo Sighting.mention
  cases m <;> cases s.defines <;> simp [Variable.places]

theorem mem_places_addTo {m : Mention} {span : Span} (h : span ∈ (addTo v s).places m) :
    span ∈ v.places m ∨ span = s.span := by
  rw [places_addTo] at h
  rcases List.mem_append.mp h with h | h
  · exact Or.inl h
  · split at h
    · exact Or.inr (List.mem_singleton.mp h)
    · cases h

theorem Made.addTo (h : Made ss v) (hs : Text.lowered s.name = Text.lowered v.name) : Made (ss ++ [s]) (addTo v s) where
  name := by
    obtain ⟨s', hs', hname⟩ := h.name
    exact ⟨s', List.mem_append_left _ hs', by rw [name_addTo, hname]⟩
  places := by
    intro m span hspan
    rw [name_addTo]
    rcases mem_places_addTo hspan with hspan | rfl
    · obtain ⟨s', hs', hsame⟩ := h.places m span hspan
      exact ⟨s', List.mem_append_left _ hs', hsame⟩
    · exact ⟨s, by simp, rfl, hs⟩

theorem Made.append (h : Made ss v) (s : Sighting) : Made (ss ++ [s]) v where
  name := by
    obtain ⟨s', hs', hname⟩ := h.name
    exact ⟨s', List.mem_append_left _ hs', hname⟩
  places := by
    intro m span hspan
    obtain ⟨s', hs', hsame⟩ := h.places m span hspan
    exact ⟨s', List.mem_append_left _ hs', hsame⟩

/-- A new variable has the one mention it is made for. -/
theorem Made.single (ss : List Sighting) (s : Sighting) : Made (ss ++ [s]) (Script.addTo { name := s.name } s) where
  name := ⟨s, by simp, by rw [name_addTo]⟩
  places := by
    intro m span hspan
    rw [name_addTo]
    rcases mem_places_addTo hspan with hspan | rfl
    · cases m <;> cases hspan
    · exact ⟨s, by simp, rfl, rfl⟩

theorem made_gather {found : Gathered} (h : ∀ e ∈ found, e.1 = Text.lowered e.2.name ∧ Made ss e.2) (s : Sighting) :
    ∀ e ∈ gather (Text.lowered s.name) s found, e.1 = Text.lowered e.2.name ∧ Made (ss ++ [s]) e.2 := by
  induction found with
  | nil =>
      intro e he
      rw [List.mem_singleton.mp he]
      exact ⟨by rw [name_addTo], Made.single ss s⟩
  | cons e' found ih =>
      obtain ⟨hkey, hmade⟩ := h e' List.mem_cons_self
      have hfound := fun e he => h e (List.mem_cons_of_mem e' he)
      intro e he
      unfold gather at he
      split at he
      · next hsame =>
        rcases List.mem_cons.mp he with rfl | he
        · exact ⟨by rw [name_addTo]; exact hkey, hmade.addTo (by rw [← hkey, hsame])⟩
        · exact ⟨(hfound e he).1, (hfound e he).2.append s⟩
      · rcases List.mem_cons.mp he with rfl | he
        · exact ⟨hkey, hmade.append s⟩
        · exact ih hfound e he

/-- What is gathered from some mentions. -/
def gatheredFrom (ss : List Sighting) : Gathered :=
  ss.foldl (fun found s => gather (Text.lowered s.name) s found) []

theorem gatheredFrom_append_singleton (ss : List Sighting) (s : Sighting) :
    gatheredFrom (ss ++ [s]) = gather (Text.lowered s.name) s (gatheredFrom ss) :=
  List.foldl_append

theorem gatherAll_eq (ss : List Sighting) : gatherAll ss = (gatheredFrom ss).map (·.2) := rfl

theorem made_gatheredFrom (ss : List Sighting) :
    ∀ e ∈ gatheredFrom ss, e.1 = Text.lowered e.2.name ∧ Made ss e.2 := by
  induction ss using List.reverseRecOn with
  | nil => simp [gatheredFrom]
  | append_singleton ss s ih =>
      rw [gatheredFrom_append_singleton]
      exact made_gather ih s

theorem made_of_mem_gatherAll (h : v ∈ gatherAll ss) : Made ss v := by
  obtain ⟨e, he, rfl⟩ := List.mem_map.mp h
  exact (made_gatheredFrom ss e he).2

/-- The places of one kind in all of some variables. -/
def placesOf (m : Mention) (vs : List (Variable Span)) : List Span := vs.flatMap (·.places m)

theorem placesOf_gather (m : Mention) (key : String) (s : Sighting) (found : Gathered) :
    (placesOf m ((gather key s found).map (·.2))).Perm
      (placesOf m (found.map (·.2)) ++ if s.mention = m then [s.span] else []) := by
  induction found with
  | nil =>
      simp only [gather, placesOf, List.map_cons, List.map_nil, List.flatMap_cons, List.flatMap_nil, places_addTo,
        List.append_nil]
      cases m <;> exact .refl _
  | cons e found ih =>
      unfold gather
      split
      · simp only [placesOf, List.map_cons, List.flatMap_cons, places_addTo, List.append_assoc]
        exact List.perm_append_comm.append_left _
      · simp only [placesOf, List.map_cons, List.flatMap_cons, List.append_assoc] at ih ⊢
        exact ih.append_left _

/-- Gathering keeps every mention, and puts none twice. -/
theorem placesOf_gatherAll (m : Mention) (ss : List Sighting) :
    (placesOf m (gatherAll ss)).Perm ((ss.filter (·.mention = m)).map (·.span)) := by
  rw [gatherAll_eq]
  induction ss using List.reverseRecOn with
  | nil => exact .refl _
  | append_singleton ss s ih =>
      rw [gatheredFrom_append_singleton, List.filter_append, List.map_append]
      refine (placesOf_gather m _ s _).trans (ih.append (.of_eq ?_))
      by_cases hs : s.mention = m <;> simp [hs]

/-- The places of the variables of a script are those of the tokens with which names are mentioned. -/
theorem placesOf_variablesOf (m : Mention) (tokens all : List Token) :
    (placesOf m (variablesOf tokens all)).Perm (((mentionedFrom tokens).filter (·.1 = m)).map (·.2.place)) := by
  refine (placesOf_gatherAll m (sightings tokens all)).trans (.of_eq ?_)
  calc ((sightings tokens all).filter (·.mention = m)).map (·.span)
      = (((sightings tokens all).map Sighting.bare).filter (·.1 = m)).map (·.2.2) := by
        rw [List.filter_map, List.map_map]
        rfl
    _ = (((mentionedFrom tokens).map bareMention).filter (·.1 = m)).map (·.2.2) := by
        rw [sightings, bare_sightingsFrom]
    _ = ((mentionedFrom tokens).filter (·.1 = m)).map (·.2.place) := by
        rw [List.filter_map, List.map_map]
        rfl

theorem mem_of_mem_significant {tokens : List Token} (h : t ∈ significant tokens) : t ∈ tokens := (List.mem_filter.mp h).1

/-- The name of a variable is an identifier. If it is not local, every place of it is that of a word of the
script that agrees with the name in lower case. -/
theorem identifier_of_place {code : List Char} {tokens : List Token} (hlex : lex code = .ok tokens)
    (hv : v ∈ variablesOf (significant tokens) tokens) :
    isIdentifier v.name.toList = true ∧
    (Name.isLocal v.name = false → ∀ m, ∀ span ∈ v.places m, ∃ t ∈ tokens, t.kind = .identifier ∧ t.span = span ∧
      Text.lowered (String.ofList t.text) = Text.lowered v.name) := by
  have hmade := made_of_mem_gatherAll hv
  have hjustified : ∀ s ∈ sightings (significant tokens) tokens, s.Justified tokens := by
    intro s hs
    exact sightingsFrom_justified (fun t ht => mem_of_mem_significant ht) hs
  have hname : isIdentifier v.name.toList = true := by
    obtain ⟨s, hs, hname⟩ := hmade.name
    rw [← hname]
    exact (hjustified s hs).isIdentifier hlex
  refine ⟨hname, ?_⟩
  intro hlocal m span hspan
  obtain ⟨s, hs, rfl, hsame⟩ := hmade.places m span hspan
  rcases hjustified s hs with ⟨t, ht, hkind, hs', hspan'⟩ | ⟨hslocal, hsword⟩
  · exact ⟨t, ht, hkind, hspan'.symm, by rw [← hs', hsame]⟩
  · -- a declared name is local, and so would be the variable
    rw [isLocal_of_lowered_eq hsword hname hsame hslocal] at hlocal
    cases hlocal

end Script

end SqfIndex
