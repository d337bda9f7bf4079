import SqfIndex.Text.Units
import SqfIndex.Text.Utf8

/-!
# Texts within texts, and their bytes

`StandsAt` says at which byte of a text a part of it begins. A part that stands somewhere has its bytes
there: `StandsAt.byte`.
-/

namespace SqfIndex.Text

/-! ## Bytes -/

theorem encode_cons (c : Char) (cs : List Char) : encode (c :: cs) = String.utf8EncodeChar c ++ encode cs := rfl

@[simp] theorem encode_append (as bs : List Char) : encode (as ++ bs) = encode as ++ encode bs := by
  simp [encode]

@[simp] theorem length_encode (cs : List Char) : (encode cs).length = width cs := by
  induction cs with
  | nil => rfl
  | cons c cs ih => simp [encode_cons, ih]

/-- An ASCII byte is a character of its own: all bytes of a longer character lie above those of ASCII. -/
theorem toNat_of_mem_utf8EncodeChar {c : Char} {b : UInt8} (hb : b ∈ String.utf8EncodeChar c) (h : b.toNat < 0x80) :
    c.toNat = b.toNat := by
  have hmod (n : Nat) : (UInt8.ofNat n).toNat = n % 256 := UInt8.toNat_ofNat'
  unfold String.utf8EncodeChar at hb
  simp only at hb
  split at hb
  · rw [List.mem_singleton.mp hb, hmod, Char.toNat]
    omega
  · exfalso
    split at hb
    · simp only [List.mem_cons, List.not_mem_nil, or_false] at hb
      rcases hb with rfl | rfl <;> (rw [hmod] at h; omega)
    · split at hb
      · simp only [List.mem_cons, List.not_mem_nil, or_false] at hb
        rcases hb with rfl | rfl | rfl <;> (rw [hmod] at h; omega)
      · simp only [List.mem_cons, List.not_mem_nil, or_false] at hb
        rcases hb with rfl | rfl | rfl | rfl <;> (rw [hmod] at h; omega)

theorem ne_lineFeed_of_mem_utf8EncodeChar {c : Char} (h : c ≠ '\n') {b : UInt8} (hb : b ∈ String.utf8EncodeChar c) :
    b ≠ 0x0A := by
  rintro rfl
  exact h (Char.toNat_inj.mp (toNat_of_mem_utf8EncodeChar hb (by decide)))

theorem width_pos {cs : List Char} (h : cs ≠ []) : 0 < width cs := by
  cases cs with
  | nil => exact absurd rfl h
  | cons c cs =>
      have := c.utf8Size_pos
      simp only [width_cons]
      omega

theorem width_eq_zero_iff {cs : List Char} : width cs = 0 ↔ cs = [] := by
  constructor
  · intro h
    cases cs with
    | nil => rfl
    | cons c cs => have := width_pos (List.cons_ne_nil c cs); omega
  · rintro rfl; rfl

/-! ## Parts of a text -/

theorem exists_append_of_width_le {as bs cs ds : List Char} (h : as ++ bs = cs ++ ds) (hle : width as ≤ width cs) :
    ∃ mid, cs = as ++ mid ∧ bs = mid ++ ds := by
  rcases List.append_eq_append_iff.mp h with ⟨mid, h⟩ | ⟨mid, rfl, rfl⟩
  · exact ⟨mid, h⟩
  · have hmid : mid = [] := by
      rw [width_append] at hle
      exact width_eq_zero_iff.mp (by omega)
    subst hmid
    exact ⟨[], by simp, by simp⟩

theorem append_inj_of_width_eq {as bs cs ds : List Char} (h : as ++ bs = cs ++ ds) (hwidth : width as = width cs) :
    as = cs ∧ bs = ds := by
  obtain ⟨mid, rfl, rfl⟩ := exists_append_of_width_le h (Nat.le_of_eq hwidth)
  rw [width_append] at hwidth
  have hmid : mid = [] := width_eq_zero_iff.mp (by omega)
  subst hmid
  exact ⟨by simp, by simp⟩

/-- A text is cut after so many bytes exactly if a part of that width stands at its front. -/
theorem cutAt?_eq_some_iff {n : Nat} {cs a b : List Char} : cutAt? n cs = some (a, b) ↔ cs = a ++ b ∧ width a = n := by
  fun_induction cutAt? n cs generalizing a with
  | case1 cs =>
      constructor
      · intro h
        cases h
        exact ⟨rfl, rfl⟩
      · rintro ⟨rfl, ha⟩
        rw [width_eq_zero_iff.mp ha]
        rfl
  | case2 n =>
      constructor
      · intro h
        cases h
      · rintro ⟨hnil, ha⟩
        rw [(List.append_eq_nil_iff.mp hnil.symm).1] at ha
        cases ha
  | case3 n c cs hc ih =>
      rw [Option.map_eq_some_iff]
      constructor
      · rintro ⟨⟨a', b'⟩, hcut, hparts⟩
        cases hparts
        obtain ⟨rfl, hwidth⟩ := ih.mp hcut
        exact ⟨rfl, by rw [width_cons]; omega⟩
      · rintro ⟨hsplit, hwidth⟩
        cases a with
        | nil => cases hwidth
        | cons d a =>
            obtain ⟨rfl, rfl⟩ := List.cons.inj hsplit
            rw [width_cons] at hwidth
            exact ⟨(a, b), ih.mpr ⟨rfl, by omega⟩, rfl⟩
  | case4 n c cs hc =>
      constructor
      · intro h
        cases h
      · rintro ⟨hsplit, hwidth⟩
        cases a with
        | nil => cases hwidth
        | cons d a =>
            obtain ⟨rfl, -⟩ := List.cons.inj hsplit
            rw [width_cons] at hwidth
            omega

/-- `part` begins at byte `offset` of `text`. -/
def StandsAt (text : List Char) (offset : Nat) (part : List Char) : Prop :=
  ∃ before after, text = before ++ part ++ after ∧ offset = width before

namespace StandsAt

variable {text mid part : List Char} {offset inner : Nat}

theorem trans (h : StandsAt text offset mid) (h' : StandsAt mid inner part) :
    StandsAt text (offset + inner) part := by
  obtain ⟨before, after, rfl, rfl⟩ := h
  obtain ⟨before', after', rfl, rfl⟩ := h'
  exact ⟨before ++ before', after' ++ after, by simp, by simp⟩

theorem bound (h : StandsAt text offset part) : offset + width part ≤ width text := by
  obtain ⟨before, after, rfl, rfl⟩ := h
  simp

theorem unique {other : List Char} (h : StandsAt text offset part) (h' : StandsAt text offset other)
    (hwidth : width part = width other) : part = other := by
  obtain ⟨before, after, rfl, rfl⟩ := h
  obtain ⟨before', after', htext, hbefore⟩ := h'
  rw [List.append_assoc, List.append_assoc] at htext
  obtain ⟨-, hrest⟩ := append_inj_of_width_eq htext hbefore
  exact (append_inj_of_width_eq hrest hwidth).1

theorem byte (h : StandsAt text offset part) {i : Nat} (hi : i < width part) :
    (encode text)[offset + i]? = (encode part)[i]? := by
  obtain ⟨before, after, rfl, rfl⟩ := h
  have hlen : i < (encode part).length := by simpa using hi
  rw [encode_append, encode_append, List.append_assoc,
    List.getElem?_append_right (by simp), length_encode, Nat.add_sub_cancel_left,
    List.getElem?_append_left hlen]

end StandsAt

end SqfIndex.Text
