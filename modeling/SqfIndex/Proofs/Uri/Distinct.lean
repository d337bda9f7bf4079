import SqfIndex.Proofs.Path.Steps
import SqfIndex.Proofs.SourceMap.Merging
import SqfIndex.Uri

/-!
# Addresses tell files apart

A path that has an address can be read back from it, up to the way its steps are written:
`ofPath?_inj`.
-/

namespace SqfIndex

namespace Uri

/-! ## Escapes -/

theorem hexValue?_hexDigit : ∀ n < 16, Text.hexValue? (Text.hexDigit n) = some n := by decide

/-- A byte that stands for itself is one character of an address. -/
theorem unescaped_byte : ∀ n < 256, isEscaped n = false →
    String.utf8EncodeChar (Char.ofNat n) = [UInt8.ofNat n] ∧ Char.ofNat n ≠ '%' := by decide +kernel

theorem slash_notMem_escapeByte : ∀ n < 256, '/' ∉ escapeByte (UInt8.ofNat n) := by decide +kernel

theorem unescape_cons {c : Char} (h : c ≠ '%') (rest : List Char) : unescape (c :: rest) = Text.encode [c] ++ unescape rest := by
  rw [unescape]
  intro a b tail hc _
  exact h hc

theorem unescape_escapeByte (b : UInt8) (rest : List Char) : unescape (escapeByte b ++ rest) = b :: unescape rest := by
  have hb : b.toNat < 256 := b.toNat_lt
  unfold escapeByte
  cases he : isEscaped b.toNat with
  | true =>
      have hhigh := hexValue?_hexDigit (b.toNat / 16) (by omega)
      have hlow := hexValue?_hexDigit (b.toNat % 16) (by omega)
      have hvalue : 16 * (b.toNat / 16) + b.toNat % 16 = b.toNat := by omega
      simp [unescape, hhigh, hlow, hvalue]
  | false =>
      obtain ⟨hencode, hpercent⟩ := unescaped_byte b.toNat hb he
      have hone : ([Char.ofNat b.toNat] ++ rest) = Char.ofNat b.toNat :: rest := rfl
      simp only [Bool.false_eq_true, ↓reduceIte]
      rw [hone, unescape_cons hpercent]
      simp [Text.encode, hencode]

theorem unescape_flatMap_escapeByte (bytes : Bytes) : unescape (bytes.flatMap escapeByte) = bytes := by
  induction bytes with
  | nil => rfl
  | cons b bytes ih => rw [List.flatMap_cons, unescape_escapeByte, ih]

theorem slash_notMem_escaped (bytes : Bytes) : '/' ∉ bytes.flatMap escapeByte := by
  intro h
  obtain ⟨b, -, hb⟩ := List.mem_flatMap.mp h
  have hnot := slash_notMem_escapeByte b.toNat b.toNat_lt
  rw [UInt8.ofNat_toNat] at hnot
  exact hnot hb

/-! ## Segments -/

/-- The path of an address, with a slash before every segment. -/
def segmented (segments : List Bytes) : List Char := segments.flatMap fun s => '/' :: s.flatMap escapeByte

theorem splitAt_segmented {piece : List Char} (h : '/' ∉ piece) (segments : List Bytes) :
    Text.splitAt '/' (piece ++ segmented segments) = piece :: segments.map fun s => s.flatMap escapeByte := by
  induction segments generalizing piece with
  | nil => simpa [segmented] using Text.splitAt_of_notMem h
  | cons s segments ih =>
      have hcons : segmented (s :: segments) = '/' :: (s.flatMap escapeByte ++ segmented segments) := by simp [segmented]
      rw [hcons, Text.splitAt_append, Text.splitAt_of_notMem h, ih (slash_notMem_escaped s), List.map_cons,
        List.singleton_append]

theorem segmented_inj {segments segments' : List Bytes} (h : segmented segments = segmented segments') : segments = segments' := by
  have hread (ss : List Bytes) : ((Text.splitAt '/' (segmented ss)).drop 1).map unescape = ss := by
    have hsplit := splitAt_segmented (List.not_mem_nil : '/' ∉ []) ss
    rw [List.nil_append] at hsplit
    simp [hsplit, unescape_flatMap_escapeByte, Function.comp_def]
  rw [← hread segments, h, hread]

/-- The path of an address with at least one slash, as the address of a root has it. -/
def rooted (segments : List Bytes) : List Char := if segments = [] then ['/'] else segmented segments

theorem rooted_inj {segments segments' : List Bytes} (hs : [] ∉ segments) (hs' : [] ∉ segments')
    (h : rooted segments = rooted segments') : segments = segments' := by
  -- the address of a root is that of one empty segment, and no other path has an empty one
  have hone : segmented [[]] = ['/'] := rfl
  unfold rooted at h
  split at h <;> split at h
  · next he he' => rw [he, he']
  · exact absurd (segmented_inj (hone.trans h) ▸ List.mem_singleton_self []) hs'
  · exact absurd (segmented_inj (hone.trans h.symm) ▸ List.mem_singleton_self []) hs
  · exact segmented_inj h

theorem ofPath?_eq_some {p : Path} {u : Uri} (h : ofPath? p = some u) :
    ∃ parts : List Bytes, p.components = .root :: parts.filterMap Component.ofPart? ∧
      u.toList = "file://".toList ++ rooted ((parts.filterMap Component.ofPart?).map Component.bytes) := by
  unfold ofPath? at h
  split at h
  · next habs =>
    obtain ⟨parts, hparts⟩ := Path.components_of_isAbsolute habs
    refine ⟨parts, hparts, ?_⟩
    rw [hparts, List.drop_one, List.tail_cons] at h
    cases hcs : parts.filterMap Component.ofPart? with
    | nil =>
        rw [hcs] at h
        cases h
        rfl
    | cons c cs =>
        rw [hcs] at h
        simp only [Option.some.injEq] at h
        subst h
        simp [rooted, segmented, escape, List.flatMap_map]
  · cases h

end Uri

/-- Two paths with one address have the same steps. -/
theorem Uri.ofPath?_inj {p q : Path} {u : Uri} (hp : ofPath? p = some u) (hq : ofPath? q = some u) : p.same q = true := by
  obtain ⟨parts, hparts, hu⟩ := ofPath?_eq_some hp
  obtain ⟨parts', hparts', hu'⟩ := ofPath?_eq_some hq
  have hsegments (ps : List Bytes) : [] ∉ (ps.filterMap Component.ofPart?).map Component.bytes := by
    intro h
    obtain ⟨c, hc, hnil⟩ := List.mem_map.mp h
    exact Component.bytes_ne_nil hc hnil
  have hbytes := rooted_inj (hsegments parts) (hsegments parts') (List.append_cancel_left (hu.symm.trans hu'))
  have hsteps := congrArg (List.filterMap Component.ofPart?) hbytes
  rw [Component.filterMap_bytes, Component.filterMap_bytes] at hsteps
  rw [Path.same_iff, hparts, hparts', hsteps]

end SqfIndex
