import SqfIndex.Preprocess.Piece
import SqfIndex.Proofs.SourceMap.Merging
import SqfIndex.Proofs.Text.Standing

/-!
# Pieces in the code

Pieces lie one after the other in the code. Each byte of the code is covered by exactly one piece
(`exists_covering`, `Covers.unique`), and the source map gives the place that this piece says:
`Covers.resolve?`.
-/

namespace SqfIndex.Preprocess

open Text (width encode)

/-! ## Blanks -/

/-- A byte of a blanked text. -/
def blankByte (b : UInt8) : UInt8 := if b = 0x0A then 0x0A else 0x20

theorem encode_replicate_space (n : Nat) : encode (List.replicate n ' ') = List.replicate n 0x20 := by
  induction n with
  | zero => rfl
  | succ n ih => rw [List.replicate_succ, Text.encode_cons, ih]; rfl

/-- Blanking a text blanks its bytes one by one. -/
theorem encode_blank (text : List Char) : encode (blank text) = (encode text).map blankByte := by
  induction text with
  | nil => rfl
  | cons c text ih =>
      have hcons : blank (c :: text) = (if c = '\n' then ['\n'] else List.replicate c.utf8Size ' ') ++ blank text := rfl
      rw [hcons, Text.encode_append, ih, Text.encode_cons, List.map_append]
      congr 1
      split
      · next h => subst h; rfl
      · next h =>
        rw [encode_replicate_space, ← String.length_utf8EncodeChar, ← List.map_const']
        refine List.map_congr_left ?_
        intro b hb
        simp [blankByte, Text.ne_lineFeed_of_mem_utf8EncodeChar h hb]

@[simp] theorem width_blank (text : List Char) : width (blank text) = width text := by
  rw [← Text.length_encode, encode_blank, List.length_map, Text.length_encode]

/-! ## Sizes -/

/-- The code of some pieces. -/
def codeOf (ps : List Piece) : List Char := ps.flatMap (·.code)

@[simp] theorem codeOf_nil : codeOf [] = [] := rfl

@[simp] theorem codeOf_cons (p : Piece) (ps : List Piece) : codeOf (p :: ps) = p.code ++ codeOf ps := rfl

@[simp] theorem codeOf_append (ps qs : List Piece) : codeOf (ps ++ qs) = codeOf ps ++ codeOf qs := by
  simp [codeOf]

theorem Piece.width_code (p : Piece) : width p.code = p.size := by
  cases p with
  | copied => rfl
  | expanded => rfl
  | directive file offset text effect => exact width_blank text
  | separator => rfl

/-! ## Starts -/

theorem placed_append (start : Nat) (ps qs : List Piece) :
    placed start (ps ++ qs) = placed start ps ++ placed (start + width (codeOf ps)) qs := by
  induction ps generalizing start with
  | nil => simp [placed]
  | cons p ps ih => simp [placed, ih, p.width_code, Nat.add_assoc]

theorem start_le_of_mem_placed {start s : Nat} {ps : List Piece} {p : Piece} (h : (s, p) ∈ placed start ps) :
    start ≤ s := by
  induction ps generalizing start with
  | nil => cases h
  | cons q ps ih =>
      rcases List.mem_cons.mp h with h | h
      · cases h; exact Nat.le_refl _
      · have := ih h; omega

theorem mem_placed_iff {s : Nat} {ps : List Piece} {p : Piece} :
    (s, p) ∈ placed 0 ps ↔ ∃ before after, ps = before ++ p :: after ∧ s = width (codeOf before) := by
  constructor
  · suffices ∀ start, (s, p) ∈ placed start ps →
        ∃ before after, ps = before ++ p :: after ∧ s = start + width (codeOf before) by
      intro h
      simpa using this 0 h
    intro start h
    induction ps generalizing start with
    | nil => cases h
    | cons q ps ih =>
        rcases List.mem_cons.mp h with h | h
        · cases h
          exact ⟨[], ps, rfl, by simp⟩
        · obtain ⟨before, after, rfl, rfl⟩ := ih _ h
          exact ⟨q :: before, after, rfl, by simp [q.width_code, Nat.add_assoc]⟩
  · rintro ⟨before, after, rfl, rfl⟩
    rw [placed_append]
    simp [placed]

/-- What pieces from `start` on tell the source map. -/
def pushesFrom (start : Nat) (ps : List Piece) : List Push := (placed start ps).map fun (s, p) => p.push s

theorem Piece.start_push (p : Piece) (s : Nat) : (p.push s).start = s := by
  cases p <;> rfl

theorem start_le_of_mem_pushesFrom {start : Nat} {ps : List Piece} {x : Push} (h : x ∈ pushesFrom start ps) :
    start ≤ x.start := by
  obtain ⟨⟨s, p⟩, hmem, rfl⟩ := List.mem_map.mp h
  rw [Piece.start_push]
  exact start_le_of_mem_placed hmem

theorem pushesFrom_ordered (start : Nat) (ps : List Piece) : (pushesFrom start ps).Pairwise (·.start ≤ ·.start) := by
  induction ps generalizing start with
  | nil => exact .nil
  | cons p ps ih =>
      refine .cons ?_ (ih (start + p.size))
      intro x hx
      have := start_le_of_mem_pushesFrom hx
      simp only [Piece.start_push]
      omega

theorem pushesFrom_append (start : Nat) (ps qs : List Piece) :
    pushesFrom start (ps ++ qs) = pushesFrom start ps ++ pushesFrom (start + width (codeOf ps)) qs := by
  simp [pushesFrom, placed_append]

/-! ## The place of a byte -/

/-- The place that a piece gives for the byte `i` of its code. -/
def Piece.origin : Piece → Nat → Path × Nat
  | copied file offset _, i => (file, offset + i)
  | expanded _ _ _ m _, i => (m.file, m.offset + min i m.extent)
  | directive file offset _ _, i => (file, offset + i)
  | separator file offset, _ => (file, offset)

theorem Piece.segment?_push (p : Piece) (start : Nat) (h : 0 < p.size) :
    ∃ s, (p.push start).segment? = some s ∧ s.start = start ∧
      ∀ i, i ≤ p.size → s.locate (start + i) = p.origin i := by
  cases p with
  | copied file offset text =>
      refine ⟨_, if_neg (Nat.ne_of_gt h), rfl, ?_⟩
      intro i hi
      have hmin : min i (width text) = i := Nat.min_eq_left hi
      simp [Segment.locate, origin, hmin]
  | expanded file offset written m text =>
      refine ⟨_, rfl, rfl, ?_⟩
      intro i hi
      simp [Segment.locate, origin]
  | directive file offset text effect =>
      refine ⟨_, if_neg (Nat.ne_of_gt h), rfl, ?_⟩
      intro i hi
      have hmin : min i (width text) = i := Nat.min_eq_left hi
      simp [Segment.locate, origin, hmin]
  | separator file offset =>
      refine ⟨_, rfl, rfl, ?_⟩
      intro i hi
      simp [Segment.locate, origin]

/-- The last segment that starts at or before an offset decides, so pieces that start later do not
matter. -/
theorem resolve?_unmerged {before after : List Push} {p : Push} {s : Segment} {offset : Nat}
    (hs : p.segment? = some s) (hle : s.start ≤ offset) (hafter : ∀ q ∈ after, offset < q.start) :
    (SourceMap.unmerged (before ++ p :: after)).resolve? offset = some (s.locate offset) := by
  have hnone : (after.filterMap Push.segment?).reverse.find? (·.start ≤ offset) = none := by
    rw [List.find?_eq_none]
    intro t ht
    rw [List.mem_reverse, List.mem_filterMap] at ht
    obtain ⟨q, hq, hqt⟩ := ht
    have hstart : t.start = q.start := by
      cases q with
      | copy start length file origin =>
          simp only [Push.segment?] at hqt
          split at hqt
          · cases hqt
          · cases hqt; rfl
      | expansion => cases hqt; rfl
    have := hafter q hq
    simp only [decide_eq_true_eq]
    omega
  simp only [SourceMap.unmerged, SourceMap.resolve?, List.filterMap_append, List.filterMap_cons, hs,
    List.reverse_append, List.reverse_cons, List.append_assoc, List.find?_append, hnone]
  simp [hle]

/-- A byte of a piece has the place that the piece gives; so has the end of the last piece. -/
theorem resolve?_piece (before after : List Piece) (p : Piece) {i : Nat} (hp : 0 < p.size) (hi : i ≤ p.size)
    (hend : after = [] ∨ i < p.size) :
    SameAnswer ((ofPieces (before ++ p :: after)).map.resolve? (width (codeOf before) + i)) (some (p.origin i)) := by
  obtain ⟨s, hs, hstart, hlocate⟩ := p.segment?_push (width (codeOf before)) hp
  have hmap : (ofPieces (before ++ p :: after)).map = .ofPushes (pushesFrom 0 (before ++ p :: after)) := rfl
  rw [hmap]
  have hmerged := SourceMap.resolve?_ofPushes (pushesFrom_ordered 0 (before ++ p :: after)) (width (codeOf before) + i)
  rw [pushesFrom_append, Nat.zero_add] at hmerged ⊢
  have hlater : ∀ q ∈ pushesFrom (width (codeOf before) + p.size) after, width (codeOf before) + i < q.start := by
    intro q hq
    rcases hend with rfl | hlt
    · cases hq
    · have := start_le_of_mem_pushesFrom hq
      omega
  rw [show pushesFrom (width (codeOf before)) (p :: after) =
    p.push (width (codeOf before)) :: pushesFrom (width (codeOf before) + p.size) after from rfl] at hmerged ⊢
  rw [resolve?_unmerged hs (by omega) hlater, hlocate i hi] at hmerged
  exact hmerged

/-! ## The piece of a byte -/

/-- The byte at `offset` of the code lies in the piece that starts at `start`. -/
structure Covers (ps : List Piece) (offset start : Nat) (p : Piece) : Prop where
  mem : (start, p) ∈ placed 0 ps
  le : start ≤ offset
  lt : offset < start + p.size

theorem exists_covering {ps : List Piece} {offset : Nat} (h : offset < width (codeOf ps)) :
    ∃ start p, Covers ps offset start p := by
  suffices ∀ base, base ≤ offset → offset < base + width (codeOf ps) →
      ∃ start p, (start, p) ∈ placed base ps ∧ start ≤ offset ∧ offset < start + p.size by
    obtain ⟨start, p, hmem, hle, hlt⟩ := this 0 (Nat.zero_le _) (by omega)
    exact ⟨start, p, hmem, hle, hlt⟩
  clear h
  induction ps with
  | nil =>
      intro base hle hlt
      simp at hlt
      omega
  | cons p ps ih =>
      intro base hle hlt
      by_cases hp : offset < base + p.size
      · exact ⟨base, p, List.mem_cons_self, hle, hp⟩
      · rw [codeOf_cons, Text.width_append, p.width_code] at hlt
        obtain ⟨start, q, hmem, h'⟩ := ih (base + p.size) (by omega) (by omega)
        exact ⟨start, q, List.mem_cons_of_mem _ hmem, h'⟩

theorem Covers.unique {ps : List Piece} {offset s s' : Nat} {p p' : Piece} (h : Covers ps offset s p)
    (h' : Covers ps offset s' p') : s = s' ∧ p = p' := by
  suffices ∀ base, (s, p) ∈ placed base ps → (s', p') ∈ placed base ps → s = s' ∧ p = p' from
    this 0 h.mem h'.mem
  obtain ⟨-, hle, hlt⟩ := h
  obtain ⟨-, hle', hlt'⟩ := h'
  induction ps with
  | nil => intro base hm _; cases hm
  | cons q ps ih =>
      intro base hm hm'
      rcases List.mem_cons.mp hm with he | hm <;> rcases List.mem_cons.mp hm' with he' | hm'
      · cases he; cases he'; exact ⟨rfl, rfl⟩
      · have := start_le_of_mem_placed hm'
        cases he; omega
      · have := start_le_of_mem_placed hm
        cases he'; omega
      · exact ih _ hm hm'

theorem Covers.resolve? {ps : List Piece} {offset start : Nat} {p : Piece} (h : Covers ps offset start p) :
    SameAnswer ((ofPieces ps).map.resolve? offset) (some (p.origin (offset - start))) := by
  obtain ⟨before, after, rfl, rfl⟩ := mem_placed_iff.mp h.mem
  have hle := h.le
  have hlt := h.lt
  have hr := resolve?_piece before after p (i := offset - width (codeOf before)) (by omega) (by omega)
    (Or.inr (by omega))
  rwa [Nat.add_sub_cancel' hle] at hr

/-- The bytes of a piece are those of the code from its start on. -/
theorem Covers.byte {ps : List Piece} {offset start : Nat} {p : Piece} (h : Covers ps offset start p) :
    (encode (codeOf ps))[offset]? = (encode p.code)[offset - start]? := by
  obtain ⟨before, after, rfl, rfl⟩ := mem_placed_iff.mp h.mem
  have hle := h.le
  have hlt := h.lt
  have hs : Text.StandsAt (codeOf (before ++ p :: after)) (width (codeOf before)) p.code :=
    ⟨codeOf before, codeOf after, by simp, rfl⟩
  have hb := hs.byte (i := offset - width (codeOf before)) (by rw [p.width_code]; omega)
  rwa [Nat.add_sub_cancel' hle] at hb

end SqfIndex.Preprocess
