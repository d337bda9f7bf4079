import Mathlib.Data.List.Induction
import SqfIndex.SourceMap

/-!
# Merged and unmerged maps

A map keeps copies that continue one another as one segment. For runs of code that are pushed in the
order of the code this is not seen in the answers: `resolve?_ofPushes`.
-/

namespace SqfIndex

/-! ## The same file -/

theorem Path.same_refl (p : Path) : p.same p = true := by simp [Path.same]

theorem Path.same_iff {p q : Path} : p.same q = true ↔ p.components = q.components := by simp [Path.same]

theorem Path.same_symm {p q : Path} (h : p.same q = true) : q.same p = true :=
  Path.same_iff.mpr (Path.same_iff.mp h).symm

theorem Path.same_trans {p q s : Path} (h : p.same q = true) (h' : q.same s = true) : p.same s = true :=
  Path.same_iff.mpr ((Path.same_iff.mp h).trans (Path.same_iff.mp h'))

/-- Two places are the same if their files are and their offsets agree. -/
def SamePlace (a b : Path × Nat) : Prop := a.1.same b.1 = true ∧ a.2 = b.2

theorem SamePlace.refl (a : Path × Nat) : SamePlace a a := ⟨Path.same_refl _, rfl⟩

/-- Two answers of a map agree. -/
def SameAnswer (a b : Option (Path × Nat)) : Prop := Option.Rel SamePlace a b

theorem SameAnswer.refl (a : Option (Path × Nat)) : SameAnswer a a := by
  cases a with
  | none => exact .none
  | some a => exact .some (.refl a)

theorem SameAnswer.trans {a b c : Option (Path × Nat)} (h : SameAnswer a b) (h' : SameAnswer b c) :
    SameAnswer a c := by
  cases h with
  | none => exact h'
  | some h =>
      cases h' with
      | some h' => exact .some ⟨Path.same_trans h.1 h'.1, h.2.trans h'.2⟩

theorem SameAnswer.exists_some {a : Option (Path × Nat)} {f : Path} {o : Nat} (h : SameAnswer a (some (f, o))) :
    ∃ g, a = some (g, o) ∧ g.same f = true := by
  cases h with
  | some h => exact ⟨_, congrArg some (Prod.ext rfl h.2), h.1⟩

def Push.file : Push → Path
  | copy _ _ file _ => file
  | expansion _ _ file _ _ => file

theorem Push.file_of_segment? {p : Push} {s : Segment} (h : p.segment? = some s) : p.file = s.file := by
  cases p with
  | expansion start stop file origin extent => cases h; rfl
  | copy start length file origin =>
      simp only [Push.segment?] at h
      split at h
      · cases h
      · cases h; rfl

namespace SourceMap

/-! ## One more segment -/

theorem resolve?_cons (s : Segment) (before : List Segment) (offset : Nat) :
    resolve? ⟨s :: before⟩ offset =
      if s.start ≤ offset then some (s.locate offset) else resolve? ⟨before⟩ offset := by
  by_cases h : s.start ≤ offset <;> simp [resolve?, h]

/-- The map that keeps one segment for each run of code. -/
def unmerged (pushes : List Push) : SourceMap := ⟨(pushes.filterMap Push.segment?).reverse⟩

theorem unmerged_append (pushes : List Push) (p : Push) :
    unmerged (pushes ++ [p]) =
      match p.segment? with
      | none => unmerged pushes
      | some s => ⟨s :: (unmerged pushes).latest⟩ := by
  cases h : p.segment? <;> simp [unmerged, h]

theorem ofPushes_append (pushes : List Push) (p : Push) : ofPushes (pushes ++ [p]) = (ofPushes pushes).push p := by
  simp [ofPushes]

/-- What a push does: nothing, a new segment, or a longer last one. -/
theorem push_cases (m : SourceMap) (p : Push) :
    (p.segment? = none ∧ m.push p = m) ∨
    (∃ s, p.segment? = some s ∧ s.start = p.start ∧ m.push p = ⟨s :: m.latest⟩) ∨
    (∃ start length file origin last before, p = .copy start length file origin ∧
      p.segment? = some ⟨start, start + length, file, origin, length⟩ ∧ m.latest = last :: before ∧
      last.continuesWith start file origin = true ∧ m.push p = ⟨last.extend length :: before⟩) := by
  cases p with
  | expansion start stop file origin extent => exact Or.inr (Or.inl ⟨_, rfl, rfl, rfl⟩)
  | copy start length file origin =>
      by_cases hl : length = 0
      · exact Or.inl ⟨by simp [Push.segment?, hl], by simp [push, Push.segment?, hl]⟩
      · have hs : (Push.copy start length file origin).segment? =
            some ⟨start, start + length, file, origin, length⟩ := by simp [Push.segment?, hl]
        right
        cases hm : m.latest with
        | nil => exact Or.inl ⟨_, hs, rfl, by simp [push, hs, hm]⟩
        | cons last before =>
            cases hc : last.continuesWith start file origin with
            | false => exact Or.inl ⟨_, hs, rfl, by simp [push, hs, hm, hc]⟩
            | true => exact Or.inr ⟨start, length, file, origin, last, before, rfl, hs, rfl, hc, by simp [push, hs, hm, hc]⟩

/-- Every segment of a map starts where some run of code does, and has its file. -/
theorem exists_push_of_mem (pushes : List Push) {s : Segment} (hs : s ∈ (ofPushes pushes).latest) :
    ∃ p ∈ pushes, p.start = s.start ∧ p.file = s.file := by
  induction pushes using List.reverseRecOn generalizing s with
  | nil => cases hs
  | append_singleton pushes p ih =>
      rw [ofPushes_append] at hs
      have hold {t : Segment} (ht : t ∈ (ofPushes pushes).latest) :
          ∃ q ∈ pushes ++ [p], q.start = t.start ∧ q.file = t.file := by
        obtain ⟨q, hq, he⟩ := ih ht
        exact ⟨q, List.mem_append_left _ hq, he⟩
      rcases push_cases (ofPushes pushes) p with ⟨_, h⟩ | ⟨t, hsegment, ht, h⟩ | ⟨_, _, _, _, last, before, _, _, hm, _, h⟩
      · rw [h] at hs
        exact hold hs
      · rw [h] at hs
        rcases List.mem_cons.mp hs with rfl | hs
        · exact ⟨p, by simp, ht.symm, Push.file_of_segment? hsegment⟩
        · exact hold hs
      · rw [h] at hs
        rcases List.mem_cons.mp hs with rfl | hs
        · exact hold (t := last) (by simp [hm])
        · exact hold (by simp [hm, hs])

theorem file_of_resolve? {pushes : List Push} {offset : Nat} {f : Path} {o : Nat}
    (h : (ofPushes pushes).resolve? offset = some (f, o)) : ∃ p ∈ pushes, p.file = f := by
  obtain ⟨s, hs, hlocate⟩ := Option.map_eq_some_iff.mp h
  obtain ⟨p, hp, -, hfile⟩ := exists_push_of_mem pushes (List.mem_of_find?_eq_some hs)
  cases hlocate
  exact ⟨p, hp, hfile⟩

/-! ## Merging is not seen -/

/-- A longer last segment answers like the last segment and the run that made it longer. -/
theorem resolve?_extend {last : Segment} {start origin : Nat} {file : Path} (before : List Segment)
    (hc : last.continuesWith start file origin = true) (hle : last.start ≤ start) (length offset : Nat) :
    SameAnswer (resolve? ⟨last.extend length :: before⟩ offset)
      (resolve? ⟨⟨start, start + length, file, origin, length⟩ :: last :: before⟩ offset) := by
  simp only [Segment.continuesWith, Bool.and_eq_true, beq_iff_eq] at hc
  obtain ⟨⟨⟨hlen, hstop⟩, horigin⟩, hfile⟩ := hc
  rw [resolve?_cons, resolve?_cons, resolve?_cons]
  by_cases hs : start ≤ offset
  · -- the offset lies in the run, or past it
    have hl : last.start ≤ offset := Nat.le_trans hle hs
    simp only [Segment.extend, hl, hs, ↓reduceIte]
    refine .some ⟨hfile, ?_⟩
    simp only [Segment.locate]
    omega
  · by_cases hl : last.start ≤ offset
    · -- the offset lies in the last segment as it was
      simp only [Segment.extend, hl, hs, ↓reduceIte]
      refine .some ⟨Path.same_refl _, ?_⟩
      simp only [Segment.locate]
      omega
    · simp only [Segment.extend, hl, hs, ↓reduceIte]
      exact .refl _

theorem resolve?_cons_congr {m n : SourceMap} (h : ∀ offset, SameAnswer (m.resolve? offset) (n.resolve? offset))
    (s : Segment) (offset : Nat) :
    SameAnswer (resolve? ⟨s :: m.latest⟩ offset) (resolve? ⟨s :: n.latest⟩ offset) := by
  rw [resolve?_cons, resolve?_cons]
  split
  · exact .refl _
  · exact h offset

/-- For runs that are pushed in the order of their starts, the merged map answers like the one that
keeps a segment for each run. -/
theorem resolve?_ofPushes {pushes : List Push} (h : pushes.Pairwise (·.start ≤ ·.start)) (offset : Nat) :
    SameAnswer ((ofPushes pushes).resolve? offset) ((unmerged pushes).resolve? offset) := by
  induction pushes using List.reverseRecOn generalizing offset with
  | nil => exact .refl _
  | append_singleton pushes p ih =>
      rw [List.pairwise_append] at h
      obtain ⟨hp, _, hlast⟩ := h
      have ih := ih hp
      rw [ofPushes_append, unmerged_append]
      rcases push_cases (ofPushes pushes) p with ⟨hs, hpush⟩ | ⟨s, hs, _, hpush⟩ |
        ⟨start, length, file, origin, last, before, rfl, hs, hm, hc, hpush⟩
      · rw [hpush, hs]
        exact ih offset
      · rw [hpush, hs]
        exact resolve?_cons_congr ih s offset
      · rw [hpush, hs]
        obtain ⟨q, hq, hstart, -⟩ := exists_push_of_mem pushes (hm ▸ List.mem_cons_self : last ∈ _)
        have hle : last.start ≤ start := hstart ▸ hlast q hq _ (List.mem_singleton_self _)
        have hext := resolve?_extend before hc hle length offset
        rw [← hm] at hext
        exact hext.trans (resolve?_cons_congr ih _ offset)

end SourceMap

end SqfIndex
