import Mathlib.Data.List.TakeWhile
import SqfIndex.Text.Space

/-!
# Texts without what stands at their ends

Trimming takes characters of one kind off both ends of a text. What is left is told by the two things that can be seen
of it: it neither begins nor ends with such a character, and nothing but such characters was around it
(`strip_eq_of_parts`, `exists_strip_parts`). Letters that differ in ASCII case are of no such kind.
-/

namespace SqfIndex.Text

/-- The text without the characters at its ends that satisfy `p`. -/
def strip (p : Char → Bool) (cs : List Char) : List Char := dropEndWhile p (cs.dropWhile p)

/-- The text neither begins nor ends with a character that satisfies `p`. -/
def Bare (p : Char → Bool) (cs : List Char) : Prop := ∀ c, cs.head? = some c ∨ cs.getLast? = some c → p c = false

section

variable {p : Char → Bool} {cs before core after : List Char}

theorem dropWhile_of_head? (h : ∀ c, cs.head? = some c → p c = false) : cs.dropWhile p = cs := by
  cases cs with
  | nil => rfl
  | cons c cs => rw [List.dropWhile_cons_of_neg (by simp [h c rfl])]

theorem dropEndWhile_append_of_forall (h : ∀ c ∈ after, p c = true) :
    dropEndWhile p (cs ++ after) = dropEndWhile p cs := by
  rw [dropEndWhile, List.reverse_append,
    List.dropWhile_append_of_pos (fun c hc => h c (List.mem_reverse.mp hc)), dropEndWhile]

theorem dropEndWhile_of_getLast? (h : ∀ c, cs.getLast? = some c → p c = false) : dropEndWhile p cs = cs := by
  rw [dropEndWhile, dropWhile_of_head? (by simpa using h), List.reverse_reverse]

theorem strip_eq_of_parts (hbefore : ∀ c ∈ before, p c = true) (hcore : Bare p core) (hafter : ∀ c ∈ after, p c = true) :
    strip p (before ++ core ++ after) = core := by
  have hlast : dropEndWhile p (core ++ after) = core := by
    rw [dropEndWhile_append_of_forall hafter, dropEndWhile_of_getLast? fun c hc => hcore c (Or.inr hc)]
  rw [strip, List.append_assoc, List.dropWhile_append_of_pos hbefore]
  cases core with
  | nil =>
      have hnone : after.dropWhile p = [] := List.dropWhile_eq_nil_iff.mpr hafter
      rw [List.nil_append, hnone]
      rfl
  | cons c core =>
      have hc : p c = false := hcore c (Or.inl rfl)
      rwa [List.cons_append, List.dropWhile_cons_of_neg (by simp [hc])]

theorem exists_dropEndWhile_parts (p : Char → Bool) (cs : List Char) :
    ∃ after, cs = dropEndWhile p cs ++ after ∧ ∀ c ∈ after, p c = true := by
  refine ⟨(cs.reverse.takeWhile p).reverse, ?_, ?_⟩
  · rw [dropEndWhile, ← List.reverse_append, List.takeWhile_append_dropWhile, List.reverse_reverse]
  · intro c hc
    exact List.all_eq_true.mp List.all_takeWhile c (List.mem_reverse.mp hc)

theorem getLast?_dropEndWhile {c : Char} (h : (dropEndWhile p cs).getLast? = some c) : p c = false := by
  have hnot := List.head?_dropWhile_not p cs.reverse
  rw [dropEndWhile, List.getLast?_reverse] at h
  rwa [h] at hnot

theorem bare_strip (p : Char → Bool) (cs : List Char) : Bare p (strip p cs) := by
  rintro c (hc | hc)
  · -- what is cut off at the end leaves the front as it is
    obtain ⟨after, hsplit, -⟩ := exists_dropEndWhile_parts p (cs.dropWhile p)
    have hnot := List.head?_dropWhile_not p cs
    rw [hsplit, ← strip, List.head?_append, hc] at hnot
    exact hnot
  · exact getLast?_dropEndWhile hc

theorem exists_strip_parts (p : Char → Bool) (cs : List Char) :
    ∃ before after, cs = before ++ strip p cs ++ after ∧ (∀ c ∈ before, p c = true) ∧ ∀ c ∈ after, p c = true := by
  obtain ⟨after, hsplit, hafter⟩ := exists_dropEndWhile_parts p (cs.dropWhile p)
  refine ⟨cs.takeWhile p, after, ?_, List.all_eq_true.mp List.all_takeWhile, hafter⟩
  rw [strip, List.append_assoc, ← hsplit, List.takeWhile_append_dropWhile]

theorem strip_padded (hbefore : ∀ c ∈ before, p c = true) (cs : List Char) (hafter : ∀ c ∈ after, p c = true) :
    strip p (before ++ cs ++ after) = strip p cs := by
  obtain ⟨front, back, hsplit, hfront, hback⟩ := exists_strip_parts p cs
  have hparts : before ++ cs ++ after = (before ++ front) ++ strip p cs ++ (back ++ after) :=
    calc before ++ cs ++ after
        = before ++ (front ++ strip p cs ++ back) ++ after := by rw [← hsplit]
      _ = (before ++ front) ++ strip p cs ++ (back ++ after) := by simp only [List.append_assoc]
  rw [hparts]
  refine strip_eq_of_parts ?_ (bare_strip p cs) ?_
  · simpa [or_imp, forall_and] using ⟨hbefore, hfront⟩
  · simpa [or_imp, forall_and] using ⟨hback, hafter⟩

theorem strip_eq_self_iff : strip p cs = cs ↔ Bare p cs := by
  constructor
  · intro h
    rw [← h]
    exact bare_strip p cs
  · intro h
    simpa using @strip_eq_of_parts p [] cs [] (by simp) h (by simp)

theorem trim_eq_self_iff : trim cs = cs ↔ Bare isSpace cs := strip_eq_self_iff

theorem strip_map {f : Char → Char} (h : ∀ c, p (f c) = p c) (cs : List Char) :
    strip p (cs.map f) = (strip p cs).map f := by
  have hcomp : p ∘ f = p := funext h
  simp only [strip, dropEndWhile, List.dropWhile_map, ← List.map_reverse, hcomp]

theorem bare_append (hbefore : ∀ c ∈ before, p c = false) (hcs : Bare p cs) (hafter : ∀ c ∈ after, p c = false) :
    Bare p (before ++ cs ++ after) := by
  intro c hc
  simp only [List.head?_append, List.getLast?_append, Option.or_eq_some_iff] at hc
  rcases hc with ((hc | ⟨-, hc⟩) | ⟨-, hc⟩) | (hc | ⟨-, hc | ⟨-, hc⟩⟩)
  · exact hbefore c (List.mem_of_head? hc)
  · exact hcs c (Or.inl hc)
  · exact hafter c (List.mem_of_head? hc)
  · exact hafter c (List.mem_of_getLast? hc)
  · exact hcs c (Or.inr hc)
  · exact hbefore c (List.mem_of_getLast? hc)

end

/-! ## Letters of either case -/

variable {c d : Char}

theorem isAlpha_iff : c.isAlpha = true ↔ 65 ≤ c.toNat ∧ c.toNat ≤ 90 ∨ 97 ≤ c.toNat ∧ c.toNat ≤ 122 := by
  delta Char.isAlpha Char.isUpper Char.isLower
  simp only [Bool.or_eq_true, Bool.and_eq_true, decide_eq_true_eq, ge_iff_le, UInt32.le_iff_toNat_le]
  rfl

/-- Lower case changes capitals only, by the same distance. -/
theorem toNat_toLower (c : Char) : c.toLower.toNat = if 65 ≤ c.toNat ∧ c.toNat ≤ 90 then c.toNat + 32 else c.toNat := by
  have hupper : (c.val ≥ 'A'.val ∧ c.val ≤ 'Z'.val) ↔ 65 ≤ c.toNat ∧ c.toNat ≤ 90 := by
    simp only [ge_iff_le, UInt32.le_iff_toNat_le]
    rfl
  unfold Char.toLower
  by_cases h : 65 ≤ c.toNat ∧ c.toNat ≤ 90
  · have hval : c.val.toNat = c.toNat := rfl
    rw [dif_pos (hupper.mpr h), if_pos h]
    show (c.val + 32).toNat = _
    rw [UInt32.toNat_add, hval]
    simp
    omega
  · rw [dif_neg (mt hupper.mp h), if_neg h]

theorem eq_or_isAlpha_of_toLower_eq (h : c.toLower = d.toLower) : c = d ∨ c.isAlpha = true ∧ d.isAlpha = true := by
  have hnat := congrArg Char.toNat h
  rw [toNat_toLower, toNat_toLower] at hnat
  rw [isAlpha_iff, isAlpha_iff, ← Char.toNat_inj]
  split at hnat <;> split at hnat <;> omega

theorem eq_of_toLower_eq (h : c.toLower = d.toLower) (hd : d.isAlpha = false) : c = d := by
  rcases eq_or_isAlpha_of_toLower_eq h with hc | ⟨-, hd'⟩
  · exact hc
  · rw [hd] at hd'
    cases hd'

theorem isSpace_of_isAlpha (h : c.isAlpha = true) : isSpace c = false := by
  rw [isAlpha_iff] at h
  simp only [isSpace, Bool.or_eq_false_iff, Bool.and_eq_false_iff, decide_eq_false_iff_not, beq_eq_false_iff_ne]
  omega

/-- Where no letter counts, the case of letters does not either. -/
theorem Bare.recase {p : Char → Bool} (hp : ∀ c, c.isAlpha = true → p c = false) {cs ds : List Char}
    (h : cs.map Char.toLower = ds.map Char.toLower) (hcs : Bare p cs) : Bare p ds := by
  have hsame {o : Option Char} {d : Char} (hlower : o.map Char.toLower = some d.toLower)
      (ho : ∀ c, o = some c → p c = false) : p d = false := by
    obtain ⟨c, rfl, hcd⟩ := Option.map_eq_some_iff.mp hlower
    rcases eq_or_isAlpha_of_toLower_eq hcd with rfl | ⟨-, hd⟩
    · exact ho c rfl
    · exact hp d hd
  rintro d (hd | hd)
  · refine hsame ?_ fun c hc => hcs c (Or.inl hc)
    rw [← List.head?_map, h, List.head?_map, hd, Option.map_some]
  · refine hsame ?_ fun c hc => hcs c (Or.inr hc)
    rw [← List.getLast?_map, h, List.getLast?_map, hd, Option.map_some]

end SqfIndex.Text
