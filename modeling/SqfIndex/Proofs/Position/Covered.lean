import Mathlib.Data.List.Infix
import Mathlib.Data.List.Induction
import SqfIndex.Proofs.Position.LineIndex

/-!
# The text that a range covers

Positions grow along a text, so that a position tells at most one place of it (`eq_of_after_eq`) and a range
covers at most one part: `covered?_eq_some_iff`.
-/

namespace SqfIndex

namespace Position

/-! ## Order -/

/-- Strictly earlier in the text. -/
def Before (p q : Position) : Prop := p.line < q.line ∨ p.line = q.line ∧ p.column < q.column

theorem Before.trans {p q r : Position} (h : p.Before q) (h' : q.Before r) : p.Before r := by
  unfold Before at *
  omega

theorem Before.ne {p q : Position} (h : p.Before q) : p ≠ q := by
  rintro rfl
  unfold Before at h
  omega

theorem le_refl (p : Position) : p.le p = true := by
  simp [le]

theorem Before.le {p q : Position} (h : p.Before q) : p.le q = true := by
  unfold Before at h
  simp only [Position.le, Bool.or_eq_true, Bool.and_eq_true, decide_eq_true_eq, beq_iff_eq]
  omega

/-! ## Positions along a text -/

theorem after_append_lineFeed (text : List Char) : after (text ++ ['\n']) = ⟨(after text).line + 1, 0⟩ := by
  rw [after, lastLine_append_lineFeed, List.count_append]
  rfl

theorem after_append_char (text : List Char) {c : Char} (hc : c ≠ '\n') :
    after (text ++ [c]) = ⟨(after text).line, (after text).column + Text.unitSize c⟩ := by
  rw [after, lastLine_append_char text hc, List.count_append, List.count_singleton, Text.units_append]
  simp [after, hc]

theorem before_append_char (text : List Char) (c : Char) : (after text).Before (after (text ++ [c])) := by
  by_cases hc : c = '\n'
  · subst hc
    rw [after_append_lineFeed]
    exact Or.inl (Nat.lt_succ_self _)
  · have hpos : 0 < Text.unitSize c := by
      unfold Text.unitSize
      split <;> omega
    rw [after_append_char text hc]
    exact Or.inr ⟨rfl, Nat.lt_add_of_pos_right hpos⟩

theorem before_append (front : List Char) {part : List Char} (h : part ≠ []) :
    (after front).Before (after (front ++ part)) := by
  induction part using List.reverseRecOn with
  | nil => exact absurd rfl h
  | append_singleton part c ih =>
      rw [← List.append_assoc]
      have hlast := before_append_char (front ++ part) c
      by_cases hpart : part = []
      · subst hpart
        rwa [List.append_nil] at hlast ⊢
      · exact (ih hpart).trans hlast

theorem le_append (front part : List Char) : (after front).le (after (front ++ part)) = true := by
  by_cases h : part = []
  · rw [h, List.append_nil]
    exact le_refl _
  · exact (before_append front h).le

theorem after_mono {a b : Nat} (h : a ≤ b) (text : List Char) :
    (after (Text.upTo a text)).le (after (Text.upTo b text)) = true := by
  obtain ⟨mid, hmid⟩ := Text.upTo_prefix h text
  rw [← hmid]
  exact le_append _ mid

/-- A position tells one place of a text. -/
theorem eq_of_after_eq {text xs ys : List Char} (hx : xs <+: text) (hy : ys <+: text) (h : after xs = after ys) :
    xs = ys := by
  have key {xs ys : List Char} (hle : xs <+: ys) (h : after xs = after ys) : xs = ys := by
    obtain ⟨mid, rfl⟩ := hle
    by_cases hmid : mid = []
    · rw [hmid, List.append_nil]
    · exact absurd h (before_append xs hmid).ne
  rcases List.prefix_or_prefix_of_prefix hx hy with hle | hle
  · exact key hle h
  · exact (key hle h.symm).symm

end Position

/-! ## Ranges -/

/-- What stands in a text before a position, if that is a place of the text. -/
def upToPosition? (text : List Char) (p : Position) : Option (List Char) :=
  text.inits.find? fun front => Position.after front = p

/-- What a text has between the ends of a range, if these are places of the text and in order. -/
def covered? (text : List Char) (range : Range) : Option (List Char) :=
  match upToPosition? text range.start, upToPosition? text range.stop with
  | some front, some whole => if front.isPrefixOf whole then some (whole.drop front.length) else none
  | _, _ => none

theorem upToPosition?_eq_some_iff {text front : List Char} {p : Position} :
    upToPosition? text p = some front ↔ front <+: text ∧ Position.after front = p := by
  constructor
  · intro h
    exact ⟨(List.mem_inits _ _).mp (List.mem_of_find?_eq_some h), by simpa using List.find?_some h⟩
  · rintro ⟨hfront, hp⟩
    have hfound : (upToPosition? text p).isSome :=
      List.find?_isSome.mpr ⟨front, (List.mem_inits _ _).mpr hfront, by simpa using hp⟩
    obtain ⟨front', hfront'⟩ := Option.isSome_iff_exists.mp hfound
    have hprefix := (List.mem_inits _ _).mp (List.mem_of_find?_eq_some hfront')
    have hafter : Position.after front' = p := by simpa using List.find?_some hfront'
    rw [hfront', Position.eq_of_after_eq hprefix hfront (hafter.trans hp.symm)]

/-- A range covers a part of a text exactly if it begins where counting up to the part ends, and ends where
counting up to its end does. -/
theorem covered?_eq_some_iff {text word : List Char} {range : Range} :
    covered? text range = some word ↔
      ∃ front back, text = front ++ word ++ back ∧ range = ⟨Position.after front, Position.after (front ++ word)⟩ := by
  unfold covered?
  constructor
  · intro h
    split at h
    · next front whole hstart hstop =>
      obtain ⟨-, hstart⟩ := upToPosition?_eq_some_iff.mp hstart
      obtain ⟨⟨back, htext⟩, hstop⟩ := upToPosition?_eq_some_iff.mp hstop
      split at h
      · next hprefix =>
        obtain ⟨mid, rfl⟩ := List.isPrefixOf_iff_prefix.mp hprefix
        rw [List.drop_left, Option.some.injEq] at h
        subst h
        exact ⟨front, back, htext.symm, by rw [hstart, hstop]⟩
      · cases h
    · cases h
  · rintro ⟨front, back, rfl, rfl⟩
    have hstart : upToPosition? (front ++ word ++ back) (Position.after front) = some front :=
      upToPosition?_eq_some_iff.mpr ⟨⟨word ++ back, by simp⟩, rfl⟩
    have hstop : upToPosition? (front ++ word ++ back) (Position.after (front ++ word)) = some (front ++ word) :=
      upToPosition?_eq_some_iff.mpr ⟨⟨back, rfl⟩, rfl⟩
    simp only [hstart, hstop, List.isPrefixOf_iff_prefix.mpr (List.prefix_append front word), if_true, List.drop_left]

theorem le_of_covered? {text word : List Char} {range : Range} (h : covered? text range = some word) :
    range.start.le range.stop = true := by
  obtain ⟨front, back, -, rfl⟩ := covered?_eq_some_iff.mp h
  exact Position.le_append front word

end SqfIndex
