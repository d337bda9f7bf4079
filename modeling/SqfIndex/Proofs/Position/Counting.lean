import SqfIndex.Proofs.Position.Covered

/-!
# Positions told by bytes and units

The line of an offset is told by the line feeds among the bytes before it, the column by the units of the characters
between the start of that line and the offset: `location_exact`. An offset may lie within a character, whose first
bytes are no line feed and which is not counted (`exists_take_encode`). Counts do not exceed the size of the text, and
one more fits into a word unless the text has `2 ^ 32 - 1` bytes or more.
-/

namespace SqfIndex

open Text (width units unitSize upTo encode)

/-! ## What is counted -/

namespace Text

/-- The characters of a text that begins at `start`, each with the offset at which it begins. -/
def indexed : Nat → List Char → List (Nat × Char)
  | _, [] => []
  | start, c :: cs => (start, c) :: indexed (start + c.utf8Size) cs

/-- The UTF-16 units of the characters that lie wholly between two offsets. -/
def unitsBetween (text : List Char) (a b : Nat) : Nat :=
  units (((indexed 0 text).filter fun p => a ≤ p.1 ∧ p.1 + p.2.utf8Size ≤ b).map Prod.snd)

/-- Where the line of an offset begins: right after the last line feed among the bytes before the offset. -/
def lineStart (text : List Char) (offset : Nat) : Nat :=
  offset - (((encode text).take offset).reverse.takeWhile (· != 0x0A)).length

/-! ## Line feeds among bytes -/

/-- The first bytes of a text are those of its first characters and the beginning of one more, which has no line
feed. -/
theorem exists_take_encode {n : Nat} {text : List Char} (h : n ≤ width text) :
    ∃ part, (encode text).take n = encode (upTo n text) ++ part ∧ n = width (upTo n text) + part.length ∧
      0x0A ∉ part := by
  obtain ⟨rest, hsplit, hle, hnext⟩ := exists_upTo n text
  generalize upTo n text = front at hsplit hle hnext ⊢
  subst hsplit
  obtain ⟨k, rfl⟩ := Nat.exists_eq_add_of_le hle
  rw [width_append] at h
  have hk : k ≤ (encode rest).length := by rw [length_encode]; omega
  refine ⟨(encode rest).take k, ?_, ?_, ?_⟩
  · rw [encode_append, ← length_encode front, List.take_length_add_append]
  · rw [List.length_take, Nat.min_eq_left hk]
  · intro hmem
    cases rest with
    | nil => simp [encode] at hmem
    | cons c rest =>
        have hlt : k < c.utf8Size := by
          have := hnext c rfl
          omega
        rw [encode_cons, List.take_append_of_le_length (by rw [String.length_utf8EncodeChar]; omega)] at hmem
        by_cases hc : c = '\n'
        · -- a line feed has no bytes before its end
          subst hc
          have hzero : k = 0 := Nat.lt_one_iff.mp hlt
          simp [hzero] at hmem
        · exact ne_lineFeed_of_mem_utf8EncodeChar hc (List.mem_of_mem_take hmem) rfl

theorem count_utf8EncodeChar {c : Char} (hc : c ≠ '\n') : (String.utf8EncodeChar c).count 0x0A = 0 :=
  List.count_eq_zero.mpr fun hmem => ne_lineFeed_of_mem_utf8EncodeChar hc hmem rfl

theorem count_encode (text : List Char) : (encode text).count 0x0A = text.count '\n' := by
  induction text with
  | nil => rfl
  | cons c text ih =>
      rw [encode_cons, List.count_append, ih]
      by_cases hc : c = '\n'
      · subst hc
        rw [List.count_cons_self, Nat.add_comm]
        rfl
      · rw [count_utf8EncodeChar hc, List.count_cons_of_ne hc, Nat.zero_add]

/-- The bytes since the last line feed are those of the last line. -/
theorem length_takeWhile_encode (text : List Char) :
    ((encode text).reverse.takeWhile (· != 0x0A)).length = width (lastLine text) := by
  induction text using List.reverseRecOn with
  | nil => rfl
  | append_singleton text c ih =>
      rw [encode_append, List.reverse_append]
      by_cases hc : c = '\n'
      · subst hc
        rw [lastLine_append_lineFeed]
        rfl
      · have hall : ∀ b ∈ (encode [c]).reverse, (b != 0x0A) = true := by
          intro b hb
          have hmem : b ∈ String.utf8EncodeChar c := by simpa [encode] using hb
          simpa using ne_lineFeed_of_mem_utf8EncodeChar hc hmem
        rw [List.takeWhile_append_of_pos hall, lastLine_append_char text hc, List.length_append, ih, width_append,
          List.length_reverse, length_encode, Nat.add_comm]

theorem lineStart_eq {n : Nat} {text : List Char} (h : n ≤ width text) :
    lineStart text n = width (upTo n text) - width (lastLine (upTo n text)) := by
  obtain ⟨part, htake, hn, hpart⟩ := exists_take_encode h
  have hall : ∀ b ∈ part.reverse, (b != 0x0A) = true := by
    intro b hb
    have hne : b ≠ 0x0A := fun he => hpart (he ▸ List.mem_reverse.mp hb)
    simpa using hne
  rw [lineStart, htake, List.reverse_append, List.takeWhile_append_of_pos hall, List.length_append,
    length_takeWhile_encode, List.length_reverse]
  omega

/-! ## Characters with their offsets -/

theorem indexed_append (start : Nat) (as bs : List Char) :
    indexed start (as ++ bs) = indexed start as ++ indexed (start + width as) bs := by
  induction as generalizing start with
  | nil => rfl
  | cons a as ih => rw [List.cons_append, indexed, ih, indexed, List.cons_append, width_cons, Nat.add_assoc]

theorem map_snd_indexed (start : Nat) (cs : List Char) : (indexed start cs).map Prod.snd = cs := by
  induction cs generalizing start with
  | nil => rfl
  | cons c cs ih => rw [indexed, List.map_cons, ih]

theorem bounds_of_mem_indexed {start : Nat} {cs : List Char} {p : Nat × Char} (h : p ∈ indexed start cs) :
    start ≤ p.1 ∧ p.1 + p.2.utf8Size ≤ start + width cs := by
  induction cs generalizing start with
  | nil => cases h
  | cons c cs ih =>
      rw [width_cons]
      rcases List.mem_cons.mp h with rfl | h
      · exact ⟨Nat.le_refl _, Nat.add_le_add_left (Nat.le_add_right _ _) _⟩
      · have := ih h
        omega

/-- Nothing of what follows an offset lies before it. -/
theorem stop_of_mem_indexed {start n : Nat} {cs : List Char} (hnext : ∀ c ∈ cs.head?, n < start + c.utf8Size)
    {p : Nat × Char} (h : p ∈ indexed start cs) : n < p.1 + p.2.utf8Size := by
  cases cs with
  | nil => cases h
  | cons c cs =>
      have hc := hnext c rfl
      rcases List.mem_cons.mp h with rfl | h
      · exact hc
      · have := (bounds_of_mem_indexed h).1
        omega

/-- Of a text, only the characters of its middle lie between the ends of this middle. -/
theorem unitsBetween_middle (front middle rest : List Char) {n : Nat} (hle : width (front ++ middle) ≤ n)
    (hnext : ∀ c ∈ rest.head?, n < width (front ++ middle) + c.utf8Size) :
    unitsBetween (front ++ middle ++ rest) (width front) n = units middle := by
  rw [width_append] at hle hnext
  have hfront : (indexed 0 front).filter (fun p => width front ≤ p.1 ∧ p.1 + p.2.utf8Size ≤ n) = [] := by
    refine List.filter_eq_nil_iff.mpr ?_
    intro p hp
    have hbounds := bounds_of_mem_indexed hp
    have hpos := p.2.utf8Size_pos
    simp only [decide_eq_true_eq]
    omega
  have hmiddle : (indexed (0 + width front) middle).filter (fun p => width front ≤ p.1 ∧ p.1 + p.2.utf8Size ≤ n) =
      indexed (0 + width front) middle := by
    refine List.filter_eq_self.mpr ?_
    intro p hp
    have hbounds := bounds_of_mem_indexed hp
    simp only [decide_eq_true_eq]
    omega
  have hrest : (indexed (0 + (width front + width middle)) rest).filter
      (fun p => width front ≤ p.1 ∧ p.1 + p.2.utf8Size ≤ n) = [] := by
    refine List.filter_eq_nil_iff.mpr ?_
    intro p hp
    have hstop := stop_of_mem_indexed (by simpa using hnext) hp
    simp only [decide_eq_true_eq]
    omega
  rw [unitsBetween, indexed_append, indexed_append, width_append, List.filter_append, List.filter_append, hfront,
    hmiddle, hrest, List.nil_append, List.append_nil, map_snd_indexed]

theorem unitsBetween_lineStart {n : Nat} {text : List Char} (h : n ≤ width text) :
    unitsBetween text (lineStart text n) n = units (lastLine (upTo n text)) := by
  obtain ⟨rest, hsplit, hle, hnext⟩ := exists_upTo n text
  obtain ⟨front, hfront⟩ := lastLine_suffix (upTo n text)
  have hstart : lineStart text n = width front := by
    have hwidth := congrArg width hfront
    rw [width_append] at hwidth
    rw [lineStart_eq h]
    omega
  rw [← hfront] at hle hnext
  have hunits := unitsBetween_middle front (lastLine (upTo n text)) rest hle hnext
  rwa [hfront, ← hsplit, ← hstart] at hunits

theorem unitSize_le_utf8Size (c : Char) : unitSize c ≤ c.utf8Size := by
  unfold unitSize
  split
  · exact c.utf8Size_pos
  · next hlarge =>
    -- two units are for characters of four bytes
    have hval : c.toNat = c.val.toNat := rfl
    simp only [Char.utf8Size, UInt32.le_iff_toNat_le]
    rw [if_neg (by simp; omega)]
    split
    · exact Nat.le_refl 2
    · split <;> omega

theorem units_le_width (cs : List Char) : units cs ≤ width cs := by
  induction cs with
  | nil => exact Nat.le_refl 0
  | cons c cs ih => exact Nat.add_le_add (unitSize_le_utf8Size c) ih

theorem width_le_of_sublist {as bs : List Char} (h : as.Sublist bs) : width as ≤ width bs := by
  induction h with
  | slnil => exact Nat.le_refl 0
  | cons b _ ih => exact Nat.le_trans ih (Nat.le_add_left _ _)
  | cons_cons b _ ih => exact Nat.add_le_add_left ih _

theorem width_replicate (n : Nat) (c : Char) : width (List.replicate n c) = n * c.utf8Size := by
  induction n with
  | zero => rw [Nat.zero_mul]; rfl
  | succ n ih => rw [List.replicate_succ, width_cons, ih, Nat.succ_mul, Nat.add_comm]

theorem units_replicate (n : Nat) (c : Char) : units (List.replicate n c) = n * unitSize c := by
  induction n with
  | zero => rw [Nat.zero_mul]; rfl
  | succ n ih => rw [List.replicate_succ, units_cons, ih, Nat.succ_mul, Nat.add_comm]

end Text

namespace LineIndex

variable {text : List Char}

/-- The line of an offset is the number of line feeds among the bytes before it. -/
theorem line_position (text : List Char) (offset : Nat) :
    ((ofText text).position offset).line = ((encode text).take (min offset (width text))).count 0x0A := by
  obtain ⟨part, htake, -, hpart⟩ := Text.exists_take_encode (Nat.min_le_right offset (width text))
  rw [position_ofText, htake, List.count_append, List.count_eq_zero.mpr hpart, Nat.add_zero, Text.count_encode,
    Text.upTo_min]
  rfl

theorem column_position (text : List Char) (offset : Nat) :
    ((ofText text).position offset).column =
      Text.unitsBetween text (Text.lineStart text (min offset (width text))) (min offset (width text)) := by
  rw [Text.unitsBetween_lineStart (Nat.min_le_right offset (width text)), Text.upTo_min, position_ofText]
  rfl

theorem line_le_width (text : List Char) (offset : Nat) : ((ofText text).position offset).line ≤ width text := by
  rw [line_position]
  calc ((encode text).take (min offset (width text))).count 0x0A
      ≤ ((encode text).take (min offset (width text))).length := List.count_le_length
    _ ≤ (encode text).length := List.length_take_le' _ _
    _ = width text := Text.length_encode text

theorem column_le_width (text : List Char) (offset : Nat) : ((ofText text).position offset).column ≤ width text := by
  obtain ⟨rest, hsplit, -, -⟩ := Text.exists_upTo offset text
  have hprefix : upTo offset text <+: text := ⟨rest, hsplit.symm⟩
  rw [position_ofText]
  calc units (lastLine (upTo offset text))
      ≤ width (lastLine (upTo offset text)) := Text.units_le_width _
    _ ≤ width (upTo offset text) := Text.width_le_of_sublist (lastLine_suffix _).sublist
    _ ≤ width text := Text.width_le_of_sublist hprefix.sublist

theorem position_mono {a b : Nat} (h : a ≤ b) : ((ofText text).position a).le ((ofText text).position b) = true := by
  rw [position_ofText, position_ofText]
  exact Position.after_mono h text

theorem position_width {before : List Char} (h : before <+: text) :
    (ofText text).position (width before) = Position.after before := by
  obtain ⟨after, rfl⟩ := h
  exact position_between before after

/-! ## Locations -/

/-- A word holds one more than a number that is less than the largest word. -/
theorem toNat_ofNat_add_one {n : Nat} (h : n < UInt32.size - 1) : (UInt32.ofNat n + 1).toNat = n + 1 := by
  rw [UInt32.size] at h
  rw [UInt32.toNat_add, UInt32.toNat_ofNat', UInt32.toNat_one]
  omega

theorem toNat_location (hsize : width text < UInt32.size - 1) (offset : Nat) :
    ((ofText text).location offset).line.toNat = ((ofText text).position offset).line + 1 ∧
      ((ofText text).location offset).column.toNat = ((ofText text).position offset).column + 1 :=
  ⟨toNat_ofNat_add_one (Nat.lt_of_le_of_lt (line_le_width text offset) hsize),
    toNat_ofNat_add_one (Nat.lt_of_le_of_lt (column_le_width text offset) hsize)⟩

/-- In a text of less than `2 ^ 32 - 1` bytes, line and column from one are told by the line feeds before the offset and
by the units between the start of its line and the offset, where an offset past the end counts as the end. The position
is what the location tells. Positions grow with the offset, and those of different places between characters are
different. -/
theorem location_exact {text : List Char} (hsize : width text < UInt32.size - 1) :
    (∀ offset,
      ((ofText text).location offset).line.toNat = 1 + ((encode text).take (min offset (width text))).count 0x0A ∧
      ((ofText text).location offset).column.toNat =
        1 + Text.unitsBetween text (Text.lineStart text (min offset (width text))) (min offset (width text)) ∧
      (ofText text).position offset = ((ofText text).location offset).toPosition) ∧
    (∀ a b, a ≤ b → ((ofText text).position a).le ((ofText text).position b) = true) ∧
    ∀ before before', before <+: text → before' <+: text → width before ≠ width before' →
      (ofText text).position (width before) ≠ (ofText text).position (width before') := by
  refine ⟨?_, fun a b => position_mono, ?_⟩
  · intro offset
    obtain ⟨hline, hcolumn⟩ := toNat_location hsize offset
    refine ⟨?_, ?_, ?_⟩
    · rw [hline, line_position, Nat.add_comm]
    · rw [hcolumn, column_position, Nat.add_comm]
    · rw [Location.toPosition, hline, hcolumn]
      rfl
  · intro before before' hbefore hbefore' hwidth hsame
    rw [position_width hbefore, position_width hbefore'] at hsame
    exact hwidth (congrArg width (Position.eq_of_after_eq hbefore hbefore' hsame))

/-- Within a character of two units, and after it. -/
theorem location_of_clef :
    let text := ['é', '\n', '𝄞', 'x']
    width text < UInt32.size - 1 ∧
    ((ofText text).location 5).line.toNat = 2 ∧ ((ofText text).location 5).column.toNat = 1 ∧
    ((ofText text).location 7).column.toNat = 3 ∧ (ofText text).position 7 = ((ofText text).location 7).toPosition := by
  intro text
  have hsize : width text < UInt32.size - 1 := by decide
  obtain ⟨hlocation, -⟩ := location_exact hsize
  refine ⟨hsize, (hlocation 5).1.trans ?_, (hlocation 5).2.1.trans ?_, (hlocation 7).2.1.trans ?_, (hlocation 7).2.2⟩
  · decide +kernel
  · decide +kernel
  · decide +kernel

/-- The place after `n` characters of one line. -/
theorem position_replicate (n : Nat) : (ofText (List.replicate n 'a')).position n = ⟨0, n⟩ := by
  have hfeed : '\n' ∉ List.replicate n 'a' := fun h => absurd (List.eq_of_mem_replicate h) (by decide)
  have hwidth : width (List.replicate n 'a') = n := (Text.width_replicate n 'a').trans (Nat.mul_one n)
  have hunits : units (List.replicate n 'a') = n := (Text.units_replicate n 'a').trans (Nat.mul_one n)
  have hend := position_width (List.prefix_refl (List.replicate n 'a'))
  rwa [hwidth, Position.after, List.count_eq_zero.mpr hfeed, lastLine_of_notMem hfeed, hunits] at hend

/-- The end of a line of `2 ^ 32 - 1` characters has no column: the word wraps around, and what is told is the start
of the line. -/
theorem location_wraps_around :
    let text := List.replicate (UInt32.size - 1) 'a'
    width text < UInt32.size ∧
    1 + Text.unitsBetween text (Text.lineStart text (width text)) (width text) = UInt32.size ∧
    ((ofText text).location (width text)).column.toNat = 0 ∧
    ((ofText text).location (width text)).toPosition = ((ofText text).location 0).toPosition := by
  intro text
  have hwidth : width text = UInt32.size - 1 := Text.width_replicate _ 'a'
  have hend : (ofText text).position (width text) = ⟨0, UInt32.size - 1⟩ := by
    rw [hwidth]
    exact position_replicate _
  have hlocation : (ofText text).location (width text) = ⟨1, 0⟩ := by
    rw [location, hend]
    rfl
  have hstart : (ofText text).location 0 = ⟨1, 1⟩ := by
    have hzero : (ofText text).position 0 = ⟨0, 0⟩ := position_between [] text
    rw [location, hzero]
    rfl
  refine ⟨by rw [hwidth]; decide, ?_, by rw [hlocation]; rfl, by rw [hlocation, hstart]; rfl⟩
  have hunits := column_position text (width text)
  rw [hend, Nat.min_self] at hunits
  rw [← hunits]
  rfl

end LineIndex

end SqfIndex
