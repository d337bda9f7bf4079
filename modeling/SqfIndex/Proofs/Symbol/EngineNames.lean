import SqfIndex.Proofs.Script.Mentions
import SqfIndex.Proofs.Symbol.History

/-!
# Names of the engine among the globals

Reserved words and commands are told from other names up to the case of ASCII letters, while globals are kept
under their names in lower case. The two differ in one character, the Kelvin sign, whose lower case is a `k`
(`exists_beyond_ascii`). So a name of the engine is found among the globals exactly if a live document mentions
it with a Kelvin sign in it: `engine_name_found_iff`.
-/

namespace SqfIndex

namespace Text

/-! ## What becomes ASCII in lower case -/

def kelvinSign : Char := '\u212A'

/-- The case run of the Kelvin sign, or one that leads to characters beyond ASCII. -/
def CaseRun.Beyond (r : CaseRun) : Prop :=
  (r.first = 0x212A ∧ r.last = 0x212A) ∨ 0x80 ≤ (r.first : Int) + r.shift ∧
    ((r.last : Int) + r.shift < 0xD800 ∨ 0xE000 ≤ (r.first : Int) + r.shift ∧ (r.last : Int) + r.shift < 0x110000)

instance (r : CaseRun) : Decidable r.Beyond := inferInstanceAs (Decidable (_ ∨ _))

theorem caseRuns_beyond : ∀ r ∈ caseRuns, r.Beyond := by decide +kernel

theorem toNat_ofNat {n : Nat} (h : n < 0xD800 ∨ 0xE000 ≤ n ∧ n < 0x110000) : (Char.ofNat n).toNat = n := by
  have hvalid : n.isValidChar := by
    rcases h with h | h
    · exact Or.inl h
    · exact Or.inr ⟨by omega, h.2⟩
  rw [Char.ofNat, dif_pos hvalid]
  rfl

/-- The lower case of any other character has a part beyond ASCII. -/
theorem exists_beyond_ascii {c : Char} (hascii : ¬ c.toNat < 0x80) (hkelvin : c ≠ kelvinSign) :
    ∃ d ∈ lowerChar c, ¬ d.toNat < 0x80 := by
  unfold lowerChar
  rw [if_neg hascii]
  split
  · exact ⟨'\u0307', by simp, by decide⟩
  · split
    · next r hr =>
      refine ⟨_, List.mem_singleton_self _, ?_⟩
      have hcovers : r.first ≤ c.toNat ∧ c.toNat ≤ r.last := by
        have hcovers := List.find?_some hr
        simp only [CaseRun.covers, Bool.and_eq_true, decide_eq_true_eq] at hcovers
        exact hcovers.1
      rcases caseRuns_beyond r (List.mem_of_find?_eq_some hr) with hrun | ⟨hlow, hhigh⟩
      · refine absurd (Char.toNat_inj.mp ?_) hkelvin
        show c.toNat = 0x212A
        omega
      · rw [toNat_ofNat (by omega)]
        omega
    · exact ⟨c, List.mem_singleton_self c, hascii⟩

/-- A text with a `k` for every Kelvin sign. -/
def plainK (cs : List Char) : List Char := cs.map fun c => if c = kelvinSign then 'k' else c

theorem lowerAfter_plainK (before : List Char) {cs : List Char} (h : ∀ c ∈ cs, c.toNat < 0x80 ∨ c = kelvinSign) :
    lowerAfter before cs = (plainK cs).map Char.toLower := by
  induction cs generalizing before with
  | nil => rfl
  | cons c cs ih =>
      obtain ⟨hc, hcs⟩ := List.forall_mem_cons.mp h
      rw [lowerAfter, ih _ hcs]
      rcases hc with hc | rfl
      · have hsigma : c ≠ 'Σ' := by rintro rfl; exact absurd hc (by decide)
        have hkelvin : c ≠ kelvinSign := by rintro rfl; exact absurd hc (by decide)
        simp [hsigma, hkelvin, lowerChar_of_ascii hc, plainK]
      · have hlower : lowerChar kelvinSign = ['k'] := by decide +kernel
        simp [hlower, plainK, show kelvinSign ≠ 'Σ' by decide]

theorem ascii_or_kelvin_of_lowerAfter {before cs : List Char} (h : ∀ d ∈ lowerAfter before cs, d.toNat < 0x80) :
    ∀ c ∈ cs, c.toNat < 0x80 ∨ c = kelvinSign := by
  induction cs generalizing before with
  | nil => simp
  | cons c cs ih =>
      obtain ⟨hhead, htail⟩ := List.forall_mem_append.mp h
      refine List.forall_mem_cons.mpr ⟨?_, ih htail⟩
      by_contra hc
      obtain ⟨hascii, hkelvin⟩ := not_or.mp hc
      split at hhead
      · have := hhead _ (List.mem_singleton_self _)
        split at this <;> exact absurd this (by decide)
      · obtain ⟨d, hd, hbeyond⟩ := exists_beyond_ascii hascii hkelvin
        exact hbeyond (hhead d hd)

theorem toNat_lt_of_toLower {c : Char} (h : c.toLower.toNat < 0x80) : c.toNat < 0x80 := by
  rw [toNat_toLower] at h
  split at h <;> omega

/-! ## ASCII by bytes -/

def isAscii (bytes : Bytes) : Bool := bytes.all (·.toNat.blt 0x80)

theorem bytes_eq_encode (s : String) : s.toByteArray.data.toList = encode s.toList := by
  rw [← String.utf8Encode_toList, List.utf8Encode, encode]
  simp

theorem exists_byte_beyond_ascii {c : Char} (h : ¬ c.toNat < 0x80) : ∃ b ∈ String.utf8EncodeChar c, 0x80 ≤ b.toNat := by
  unfold String.utf8EncodeChar
  simp only [Char.toNat] at h
  have hval := c.val.toNat_lt
  simp only
  rw [if_neg (by omega)]
  split
  · exact ⟨_, List.mem_cons_self, by simp; omega⟩
  · split
    · exact ⟨_, List.mem_cons_self, by simp; omega⟩
    · exact ⟨_, List.mem_cons_self, by simp; omega⟩

theorem toNat_lt_of_isAscii {cs : List Char} (h : isAscii (encode cs) = true) {c : Char} (hc : c ∈ cs) : c.toNat < 0x80 := by
  by_contra hbeyond
  obtain ⟨b, hb, hle⟩ := exists_byte_beyond_ascii hbeyond
  have hlt := List.all_eq_true.mp h b (List.mem_flatMap.mpr ⟨c, hc, hb⟩)
  simp only [Nat.blt_eq] at hlt
  omega

end Text

namespace Name

open Text (asciiLower lowered plainK kelvinSign)

/-- What the engine takes for its own, whatever the case of ASCII letters. -/
def isEngineName (name : String) : Bool := isReserved name || isEngineCommand name

theorem isEngineName_iff {name : String} : isEngineName name = true ↔ asciiLower name ∈ reservedWords ++ engineCommands := by
  simp [isEngineName, isReserved, isEngineCommand]

-- the bytes of a literal are at hand, its characters would have to be decoded
theorem engineNames_bytes :
    ((reservedWords ++ engineCommands).all fun word =>
      Text.isAscii word.toByteArray.data.toList && word.toByteArray.data.toList.head? != some 0x5F) = true := by
  decide +kernel

/-- The names of the engine are written in ASCII and do not begin like locals. -/
theorem engineNames_plain {word : String} (h : word ∈ reservedWords ++ engineCommands) :
    (∀ c ∈ word.toList, c.toNat < 0x80) ∧ word.toList.head? ≠ some '_' := by
  have hbytes := List.all_eq_true.mp engineNames_bytes word h
  rw [Text.bytes_eq_encode, Bool.and_eq_true, bne_iff_ne] at hbytes
  refine ⟨fun c hc => Text.toNat_lt_of_isAscii hbytes.1 hc, ?_⟩
  intro hhead
  obtain ⟨rest, hrest⟩ := List.head?_eq_some_iff.mp hhead
  rw [hrest] at hbytes
  exact hbytes.2 rfl

variable {name : String}

theorem ascii_of_isEngineName (h : isEngineName name = true) : ∀ c ∈ name.toList, c.toNat < 0x80 := by
  intro c hc
  refine Text.toNat_lt_of_toLower ((engineNames_plain (isEngineName_iff.mp h)).1 _ ?_)
  rw [asciiLower, String.toList_ofList]
  exact List.mem_map_of_mem hc

theorem isEngineName_of_asciiLower {s : String} (h : isEngineName name = true) (hs : asciiLower s = asciiLower name) :
    isEngineName s = true := by
  rw [isEngineName_iff] at h ⊢
  rwa [hs]

/-- Another spelling of an engine's name in lower case has a Kelvin sign, and is the name up to that. -/
theorem lowered_eq_iff_of_not_isEngineName {s : String} (h : isEngineName name = true) (hs : isEngineName s = false) :
    lowered s = lowered name ↔
      kelvinSign ∈ s.toList ∧ asciiLower (String.ofList (plainK s.toList)) = asciiLower name := by
  have hascii := ascii_of_isEngineName h
  rw [Text.lowered_of_ascii hascii]
  constructor
  · intro heq
    have hplain : ∀ c ∈ s.toList, c.toNat < 0x80 ∨ c = kelvinSign := by
      refine @Text.ascii_or_kelvin_of_lowerAfter [] s.toList ?_
      have hchars := (engineNames_plain (isEngineName_iff.mp h)).1
      rw [← heq, lowered, String.toList_ofList] at hchars
      exact hchars
    have hlowered : lowered s = asciiLower (String.ofList (plainK s.toList)) := by
      rw [lowered, Text.lower, Text.lowerAfter_plainK [] hplain, asciiLower, String.toList_ofList]
    refine ⟨?_, hlowered.symm.trans heq⟩
    -- without the sign the name would be told by its ASCII letters
    by_contra hnone
    have hall : ∀ c ∈ s.toList, c.toNat < 0x80 := by
      intro c hc
      exact (hplain c hc).resolve_right fun hk => hnone (hk ▸ hc)
    rw [Text.lowered_of_ascii hall] at heq
    rw [isEngineName_of_asciiLower h heq] at hs
    cases hs
  · rintro ⟨-, heq⟩
    have hplain : ∀ c ∈ s.toList, c.toNat < 0x80 ∨ c = kelvinSign := by
      intro c hc
      by_cases hk : c = kelvinSign
      · exact Or.inr hk
      · refine Or.inl (ascii_of_isEngineName (isEngineName_of_asciiLower h heq) c ?_)
        rw [String.toList_ofList, plainK]
        exact List.mem_map.mpr ⟨c, hc, if_neg hk⟩
    rw [← heq, lowered, Text.lower, Text.lowerAfter_plainK [] hplain, asciiLower, String.toList_ofList]

theorem not_isEngineName_of_kelvin {s : String} (h : kelvinSign ∈ s.toList) : isEngineName s = false := by
  by_contra hs
  exact absurd (ascii_of_isEngineName (by simpa using hs) _ h) (by decide)

theorem not_isLocal_of_spelled {s : String} (h : isEngineName name = true)
    (hs : asciiLower (String.ofList (plainK s.toList)) = asciiLower name) : isLocal s = false := by
  by_contra hlocal
  have hhead := (engineNames_plain (isEngineName_iff.mp h)).2
  simp only [isLocal, Bool.not_eq_false, beq_iff_eq] at hlocal
  rw [← hs, asciiLower, String.toList_ofList, String.toList_ofList, List.head?_map, plainK, List.head?_map, hlocal] at hhead
  exact hhead (by decide)

end Name

namespace Tables

theorem gathered_ne_nil_iff {vs : List (Variable Range)} {m : Mention} {key : String} :
    gathered vs m key ≠ [] ↔ ∃ v ∈ vs, Text.lowered v.name = key ∧ v.places m ≠ [] := by
  simp [gathered]

end Tables

open Text (asciiLower plainK kelvinSign)

/-- After any calls a reserved word or command of the engine is found among the globals exactly if the last report of
a live document has a variable, not owned by others and with some place, that is spelled like the word but
for the case of ASCII letters and Kelvin signs in place of a `k`. -/
theorem engine_name_found_iff (calls : List Call) (name : String)
    (h : Name.isReserved name = true ∨ Name.isEngineCommand name = true) :
    ((Store.after calls).tables.findGlobal? name).isSome = true ↔
      ∃ (u : Uri) (a : Account), latest calls u = some a ∧ ∃ v ∈ a.report.vars,
        kelvinSign ∈ v.name.toList ∧ asciiLower (String.ofList (plainK v.name.toList)) = asciiLower name ∧
        a.owns v.name = false ∧ (v.definitions ≠ [] ∨ v.usages ≠ []) := by
  have hname : Name.isEngineName name = true := by simpa [Name.isEngineName] using h
  have hreflects := Tables.reflects_after calls
  rw [Tables.findGlobal?, ← Std.ExtTreeMap.mem_iff_isSome_getElem?, hreflects.keys]
  simp only [hreflects.places]
  constructor
  · rintro ⟨m, u, hne⟩
    cases ha : latest calls u with
    | none => simp [ha, Tables.contributed] at hne
    | some a =>
        rw [ha] at hne
        obtain ⟨v, hv, hlowered, hplaces⟩ := Tables.gathered_ne_nil_iff.mp hne
        obtain ⟨hmem, htracked⟩ := List.mem_filter.mp hv
        simp only [Tables.isTracked, Bool.and_eq_true, Bool.not_eq_true'] at htracked
        obtain ⟨⟨⟨-, hreserved⟩, hcommand⟩, howned⟩ := htracked
        have hother : Name.isEngineName v.name = false := by simp [Name.isEngineName, hreserved, hcommand]
        obtain ⟨hkelvin, hspelled⟩ := (Name.lowered_eq_iff_of_not_isEngineName hname hother).mp hlowered
        refine ⟨u, a, ha, v, hmem, hkelvin, hspelled, howned, ?_⟩
        cases m with
        | definition => exact Or.inl hplaces
        | usage => exact Or.inr hplaces
  · rintro ⟨u, a, ha, v, hmem, hkelvin, hspelled, howned, hplaces⟩
    have hother := Name.not_isEngineName_of_kelvin hkelvin
    have hlowered := (Name.lowered_eq_iff_of_not_isEngineName hname hother).mpr ⟨hkelvin, hspelled⟩
    have htracked : v ∈ a.tracked := by
      simp only [Name.isEngineName, Bool.or_eq_false_iff] at hother
      refine List.mem_filter.mpr ⟨hmem, ?_⟩
      simp [Tables.isTracked, Name.not_isLocal_of_spelled hname hspelled, hother, howned]
    rcases hplaces with hplaces | hplaces
    · exact ⟨.definition, u, by rw [ha]; exact Tables.gathered_ne_nil_iff.mpr ⟨v, htracked, hlowered, hplaces⟩⟩
    · exact ⟨.usage, u, by rw [ha]; exact Tables.gathered_ne_nil_iff.mpr ⟨v, htracked, hlowered, hplaces⟩⟩

/-- A report that mentions a command of the engine with a Kelvin sign for its `k`. -/
def kelvinReport : Report where
  vars := [{ name := "brea\u212Aout", usages := [⟨⟨0, 0⟩, ⟨0, 8⟩⟩] }]

theorem kelvinReport_found :
    Name.isEngineCommand "breakout" = true ∧
      ((Store.after [.reconcile {} (fun _ => false) "file:///a.sqf" kelvinReport]).tables.findGlobal? "breakout").isSome = true := by
  have hcommand : Name.isEngineCommand "breakout" = true := by decide +kernel
  refine ⟨hcommand, (engine_name_found_iff _ _ (Or.inr hcommand)).mpr ?_⟩
  refine ⟨"file:///a.sqf", ⟨fun _ => false, kelvinReport⟩, rfl, _, List.mem_singleton_self _, ?_⟩
  decide +kernel

/-- A command of the engine is visible as a global. -/
theorem command_visible_as_global :
    Name.isEngineCommand "breakout" = true ∧
      (((Store.after [.reconcile {} (fun _ => false) "file:///a.sqf" kelvinReport]).tables.findGlobal? "breakout").map
        (·.name)) = some "brea\u212Aout" := by
  refine ⟨by decide +kernel, ?_⟩
  decide +kernel

end SqfIndex
