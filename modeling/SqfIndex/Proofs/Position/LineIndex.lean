import SqfIndex.Position.LineIndex
import SqfIndex.Proofs.Text.Standing

/-!
# Positions by counting

The table of lines finds for every offset the position that counting line feeds and units gives:
`position_ofText`.
-/

namespace SqfIndex

open Text (width units upTo)

/-! ## Counting -/

/-- What follows the last line feed of a text. -/
def lastLine (text : List Char) : List Char := (text.reverse.takeWhile (· != '\n')).reverse

/-- The position right after a text: its line feeds, and the units since the last of them. -/
def Position.after (text : List Char) : Position := ⟨text.count '\n', units (lastLine text)⟩

theorem lastLine_of_notMem {text : List Char} (h : '\n' ∉ text) : lastLine text = text := by
  have hall : ∀ c ∈ text.reverse, (c != '\n') = true := by
    intro c hc
    have hne : c ≠ '\n' := by
      rintro rfl
      exact h (List.mem_reverse.mp hc)
    simpa using hne
  have htake := @List.takeWhile_append_of_pos _ _ _ [] hall
  rw [List.append_nil, List.takeWhile_nil, List.append_nil] at htake
  rw [lastLine, htake, List.reverse_reverse]

theorem lastLine_append_lineFeed (before after : List Char) : lastLine (before ++ '\n' :: after) = lastLine after := by
  have hstop (xs ys : List Char) : (xs ++ '\n' :: ys).takeWhile (· != '\n') = xs.takeWhile (· != '\n') := by
    induction xs with
    | nil => simp
    | cons x xs ih => simp [List.takeWhile_cons, ih]
  unfold lastLine
  rw [List.reverse_append, List.reverse_cons, List.append_assoc, List.singleton_append, hstop]

theorem lastLine_suffix (text : List Char) : lastLine text <:+ text := by
  have hprefix := List.takeWhile_prefix (· != '\n') (l := text.reverse)
  rwa [← List.reverse_suffix, List.reverse_reverse] at hprefix

theorem lastLine_append_char (text : List Char) {c : Char} (hc : c ≠ '\n') : lastLine (text ++ [c]) = lastLine text ++ [c] := by
  simp [lastLine, hc]

/-! ## Whole characters -/

theorem Text.upTo_append (as bs : List Char) (n : Nat) : upTo (width as + n) (as ++ bs) = as ++ upTo n bs := by
  induction as with
  | nil => simp
  | cons a as ih =>
      rw [List.cons_append, upTo, if_pos (by simp [Nat.add_assoc]), width_cons,
        show a.utf8Size + width as + n - a.utf8Size = width as + n by omega, ih, List.cons_append]

theorem Text.upTo_width (as bs : List Char) : upTo (width as) (as ++ bs) = as := by
  have h := upTo_append as bs 0
  have hnil : upTo 0 bs = [] := by
    cases bs with
    | nil => rfl
    | cons b bs => rw [upTo, if_neg (Nat.not_le.mpr b.utf8Size_pos)]
  rwa [hnil, Nat.add_zero, List.append_nil] at h

theorem Text.upTo_min (n : Nat) (cs : List Char) : upTo (min n (width cs)) cs = upTo n cs := by
  induction cs generalizing n with
  | nil => simp [upTo]
  | cons c cs ih =>
      rw [upTo, upTo, width_cons]
      by_cases h : c.utf8Size ≤ n
      · rw [if_pos (by omega), if_pos h, ← ih (n - c.utf8Size)]
        congr 2
        omega
      · rw [if_neg (by omega), if_neg h]

theorem Text.upTo_prefix {a b : Nat} (h : a ≤ b) (cs : List Char) : upTo a cs <+: upTo b cs := by
  induction cs generalizing a b with
  | nil => exact List.prefix_refl _
  | cons c cs ih =>
      rw [upTo, upTo]
      by_cases hc : c.utf8Size ≤ a
      · rw [if_pos hc, if_pos (Nat.le_trans hc h)]
        exact (List.prefix_cons_inj c).mpr (ih (Nat.sub_le_sub_right h _))
      · rw [if_neg hc]
        exact List.nil_prefix

/-- The whole characters before an offset, and the one that goes beyond it. -/
theorem Text.exists_upTo (n : Nat) (cs : List Char) :
    ∃ rest, cs = upTo n cs ++ rest ∧ width (upTo n cs) ≤ n ∧ ∀ c ∈ rest.head?, n < width (upTo n cs) + c.utf8Size := by
  induction cs generalizing n with
  | nil => exact ⟨[], rfl, Nat.zero_le n, by simp⟩
  | cons c cs ih =>
      rw [upTo]
      by_cases hc : c.utf8Size ≤ n
      · obtain ⟨rest, hsplit, hle, hnext⟩ := ih (n - c.utf8Size)
        rw [if_pos hc, width_cons]
        refine ⟨rest, by rw [List.cons_append, ← hsplit], by omega, ?_⟩
        intro d hd
        have := hnext d hd
        omega
      · rw [if_neg hc]
        exact ⟨c :: cs, rfl, Nat.zero_le n, by simpa using hc⟩

/-! ## Looking up -/

namespace LineIndex

/-- The last of the lines that start at or before an offset, with the number of lines before it, as a
position. -/
def find (lines : List Line) (target : Nat) : Position :=
  let upto := lines.takeWhile (·.start ≤ target)
  match upto.getLast? with
  | some line => ⟨upto.length - 1, Text.column line.text (target - line.start)⟩
  | none => ⟨0, 0⟩

theorem find_single {l : Line} {ls : List Line} {target : Nat} (h : l.start ≤ target)
    (hnext : ∀ l' ∈ ls.head?, target < l'.start) :
    find (l :: ls) target = ⟨0, Text.column l.text (target - l.start)⟩ := by
  have htail : ls.takeWhile (·.start ≤ target) = [] := by
    cases ls with
    | nil => rfl
    | cons l' ls =>
        have := hnext l' rfl
        rw [List.takeWhile_cons_of_neg (by simpa using this)]
  simp [find, List.takeWhile_cons_of_pos (p := fun x : Line => decide (x.start ≤ target)) (a := l) (by simpa using h),
    htail]

theorem find_cons {l l' : Line} {ls : List Line} {target : Nat} (h : l.start ≤ target) (h' : l'.start ≤ target) :
    find (l :: l' :: ls) target = ⟨(find (l' :: ls) target).line + 1, (find (l' :: ls) target).column⟩ := by
  unfold find
  simp only [List.takeWhile_cons, h, h', decide_true, ↓reduceIte, List.getLast?_cons_cons, List.length_cons]
  rw [List.getLast?_cons]
  simp

theorem split_cons (cs : List Char) : ∃ l ls, split cs = l :: ls := by
  cases cs with
  | nil => exact ⟨_, _, rfl⟩
  | cons c cs =>
      rw [split]
      split
      · exact ⟨_, _, rfl⟩
      · split
        · exact ⟨_, _, rfl⟩
        · exact ⟨_, _, rfl⟩

theorem start_of_mem_head?_number {start : Nat} {ls : List (List Char)} {l : Line} (h : l ∈ (number start ls).head?) :
    l.start = start := by
  cases ls with
  | nil => cases h
  | cons x ls => cases h; rfl

/-- No further line is reached while an offset lies in the first character after `u`. -/
theorem find_first (s : Nat) {u l : List Char} (hu : '\n' ∉ u) {ls : List (List Char)} {n : Nat}
    (hlt : n < width l ∨ ls = []) (hup : upTo n l = []) :
    find (⟨s, u ++ l⟩ :: number (s + width u + width l) ls) (s + width u + n) = ⟨0, units (lastLine u)⟩ := by
  rw [find_single (by simp only; omega), lastLine_of_notMem hu, Text.column]
  · simp only [Nat.add_assoc, Nat.add_sub_cancel_left, Text.upTo_append, hup, List.append_nil]
  · intro l' hl'
    rw [start_of_mem_head?_number hl']
    rcases hlt with hlt | rfl
    · omega
    · cases hl'

theorem upTo_cons_of_lt {c : Char} {n : Nat} (h : n < c.utf8Size) (cs : List Char) : upTo n (c :: cs) = [] := by
  rw [upTo, if_neg (Nat.not_le.mpr h)]

/-- Of the first line `u` was read already; `cs` goes on with it, and `n` more bytes are counted. -/
theorem find_number (s : Nat) {u : List Char} (hu : '\n' ∉ u) {cs l : List Char} {ls : List (List Char)}
    (hsplit : split cs = l :: ls) {n : Nat} (hn : n ≤ width cs) :
    find (⟨s, u ++ l⟩ :: number (s + width u + width l) ls) (s + width u + n) =
      ⟨(upTo n cs).count '\n', units (lastLine (u ++ upTo n cs))⟩ := by
  induction cs generalizing s u l ls n with
  | nil =>
      cases hsplit
      simpa [upTo] using find_first s hu (Or.inr rfl) (rfl : upTo n [] = [])
  | cons c cs ih =>
      obtain ⟨l', ls', hl'⟩ := split_cons cs
      rw [split, hl'] at hsplit
      by_cases hc : c.utf8Size ≤ n
      · rw [upTo, if_pos hc]
        rw [Text.width_cons] at hn
        split at hsplit
        · next hfeed =>
          -- a new line begins after the line feed
          cases hsplit
          subst hfeed
          have hone : ('\n' : Char).utf8Size = 1 := rfl
          rw [hone] at hc hn ⊢
          have hrest := ih (s + width u + 1) (List.not_mem_nil (a := '\n')) hl' (n := n - 1) (by omega)
          rw [number, find_cons (by simp only; omega) (by simp [hone]; omega), List.count_cons_self,
            lastLine_append_lineFeed]
          have htarget : s + width u + 1 + width [] + (n - 1) = s + width u + n := by
            simp only [Text.width_nil]
            omega
          rw [htarget] at hrest
          simp only [List.nil_append, Text.width_nil, Nat.add_zero] at hrest
          simp only [Text.width_cons, hone, Text.width_nil, Nat.add_zero, hrest]
        · next hfeed =>
          cases hsplit
          have hu' : '\n' ∉ u ++ [c] := by simp [hu, Ne.symm hfeed]
          have hrest := ih s hu' hl' (n := n - c.utf8Size) (by omega)
          have htarget : s + width (u ++ [c]) + (n - c.utf8Size) = s + width u + n := by
            simp only [Text.width_append, Text.width_cons, Text.width_nil]
            omega
          rw [htarget] at hrest
          rw [List.count_cons_of_ne hfeed]
          simpa [Nat.add_assoc] using hrest
      · have hlt : n < c.utf8Size := Nat.not_le.mp hc
        rw [upTo_cons_of_lt hlt, List.append_nil]
        split at hsplit
        · cases hsplit
          exact find_first s hu (Or.inl (by simp; omega)) (upTo_cons_of_lt hlt _)
        · cases hsplit
          exact find_first s hu (Or.inl (by simp; omega)) (upTo_cons_of_lt hlt _)

/-- The position of an offset is found by counting over the characters that lie wholly before it. -/
theorem position_ofText (text : List Char) (offset : Nat) :
    (ofText text).position offset = Position.after (upTo offset text) := by
  obtain ⟨l, ls, hsplit⟩ := split_cons text
  have hfind : (ofText text).position offset = find (number 0 (split text)) (min offset (width text)) := rfl
  have h := find_number 0 (List.not_mem_nil (a := '\n')) hsplit (Nat.min_le_right offset (width text))
  simp only [List.nil_append, Text.width_nil, Nat.zero_add, Text.upTo_min] at h
  rw [hfind, hsplit, number, Nat.zero_add, h, Position.after]

/-- The position of a place between two characters. -/
theorem position_between (before after : List Char) :
    (ofText (before ++ after)).position (width before) = Position.after before := by
  rw [position_ofText, Text.upTo_width]

end LineIndex

end SqfIndex
