import SqfIndex.Proofs.SourceMap.Merging

/-!
# Looking an offset up

The segments of a map that is pushed in the order of the code are ordered by their starts, so that those at or
before an offset come first and can be told from the others by a search: `exists_partsAt`. The last of them
decides, and what it says is what a map says that keeps one segment for each run: `merging_not_seen`.
-/

namespace SqfIndex.SourceMap

/-! ## The plain map -/

/-- The place of an offset if each run keeps a segment of its own: the last run that starts at or before the offset
decides, and what is past its extent stays at its end. -/
def plainPlace? (pushes : List Push) (offset : Nat) : Option (Path × Nat) :=
  ((pushes.filterMap Push.segment?).filter (·.start ≤ offset)).getLast?.map fun s =>
    (s.file, s.origin + min (offset - s.start) s.extent)

theorem resolve?_unmerged_eq (pushes : List Push) (offset : Nat) :
    (unmerged pushes).resolve? offset = plainPlace? pushes offset := by
  rw [plainPlace?, List.getLast?_filter]
  rfl

theorem file_of_plainPlace? {pushes : List Push} {offset : Nat} {f : Path} {o : Nat}
    (h : plainPlace? pushes offset = some (f, o)) : ∃ p ∈ pushes, p.file = f := by
  obtain ⟨s, hs, hplace⟩ := Option.map_eq_some_iff.mp h
  obtain ⟨p, hp, hsegment⟩ := List.mem_filterMap.mp (List.mem_filter.mp (List.mem_of_getLast? hs)).1
  cases hplace
  exact ⟨p, hp, Push.file_of_segment? hsegment⟩

/-! ## Segments before and after an offset -/

/-- The first `i` segments start at or before the offset, and the others after it. -/
def PartsAt (segments : List Segment) (offset i : Nat) : Prop :=
  i ≤ segments.length ∧ (∀ s ∈ segments.take i, s.start ≤ offset) ∧ ∀ s ∈ segments.drop i, offset < s.start

variable {segments : List Segment} {offset i : Nat}

theorem filter_of_partsAt (h : PartsAt segments offset i) : segments.filter (·.start ≤ offset) = segments.take i := by
  have hbefore : (segments.take i).filter (·.start ≤ offset) = segments.take i :=
    List.filter_eq_self.mpr fun s hs => decide_eq_true (h.2.1 s hs)
  have hafter : (segments.drop i).filter (·.start ≤ offset) = [] :=
    List.filter_eq_nil_iff.mpr fun s hs => by simpa using h.2.2 s hs
  calc segments.filter (·.start ≤ offset)
      = (segments.take i ++ segments.drop i).filter (·.start ≤ offset) := by rw [List.take_append_drop]
    _ = segments.take i := by rw [List.filter_append, hbefore, hafter, List.append_nil]

theorem PartsAt.unique {j : Nat} (h : PartsAt segments offset i) (h' : PartsAt segments offset j) : i = j := by
  have htakes := (filter_of_partsAt h).symm.trans (filter_of_partsAt h')
  have hlength := congrArg List.length htakes
  rwa [List.length_take_of_le h.1, List.length_take_of_le h'.1] at hlength

theorem exists_partsAt (h : segments.Pairwise (·.start ≤ ·.start)) (offset : Nat) : ∃ i, PartsAt segments offset i := by
  induction segments with
  | nil => exact ⟨0, by simp [PartsAt]⟩
  | cons s segments ih =>
      obtain ⟨hs, hrest⟩ := List.pairwise_cons.mp h
      by_cases hle : s.start ≤ offset
      · obtain ⟨i, hi, hbefore, hafter⟩ := ih hrest
        exact ⟨i + 1, Nat.succ_le_succ hi, List.forall_mem_cons.mpr ⟨hle, hbefore⟩, hafter⟩
      · refine ⟨0, Nat.zero_le _, by simp, ?_⟩
        intro t ht
        rcases List.mem_cons.mp ht with rfl | ht
        · omega
        · have := hs t ht
          omega

/-- The last of the segments that start at or before an offset decides on it. -/
theorem resolve?_of_partsAt {m : SourceMap} (h : PartsAt m.segments offset i) :
    m.resolve? offset = (m.segments.take i).getLast?.map (·.locate offset) := by
  rw [← filter_of_partsAt h, List.getLast?_filter, SourceMap.segments, List.reverse_reverse]
  rfl

/-! ## The order of segments -/

/-- A push keeps the starts of the segments in order if it does not start before any of them. -/
theorem ordered_push {m : SourceMap} {p : Push} (h : m.segments.Pairwise (·.start ≤ ·.start))
    (hp : ∀ s ∈ m.segments, s.start ≤ p.start) : (m.push p).segments.Pairwise (·.start ≤ ·.start) := by
  rcases push_cases m p with ⟨-, hpush⟩ | ⟨s, -, hstart, hpush⟩ | ⟨_, length, _, _, last, before, rfl, -, hm, -, hpush⟩
  · rwa [hpush]
  · rw [hpush, SourceMap.segments, List.reverse_cons, List.pairwise_append]
    refine ⟨h, List.pairwise_singleton _ _, ?_⟩
    intro t ht s' hs'
    rw [List.mem_singleton.mp hs', hstart]
    exact hp t ht
  · -- the longer segment starts where the last one did
    rw [hpush]
    rw [SourceMap.segments, hm, List.reverse_cons, List.pairwise_append] at h
    rw [SourceMap.segments, List.reverse_cons, List.pairwise_append]
    refine ⟨h.1, List.pairwise_singleton _ _, ?_⟩
    intro t ht s' hs'
    rw [List.mem_singleton.mp hs']
    exact h.2.2 t ht last (List.mem_singleton_self last)

theorem ordered_ofPushes {pushes : List Push} (h : pushes.Pairwise (·.start ≤ ·.start)) :
    (ofPushes pushes).segments.Pairwise (·.start ≤ ·.start) := by
  induction pushes using List.reverseRecOn with
  | nil => exact List.Pairwise.nil
  | append_singleton pushes p ih =>
      obtain ⟨hpushes, -, hlast⟩ := List.pairwise_append.mp h
      rw [ofPushes_append]
      refine ordered_push (ih hpushes) ?_
      intro s hs
      obtain ⟨q, hq, hstart, -⟩ := exists_push_of_mem pushes (List.mem_reverse.mp hs)
      exact hstart ▸ hlast q hq p (List.mem_singleton_self p)

/-- For runs of code in the order of their starts and any offset: the segments part at the offset in exactly one
way, the last of the first ones decides, and the answer is that of the plain map, in which each run has a segment of
its own. Files count as the same if their components agree; where each file is spelled in one way only, the answers
are equal. -/
theorem merging_not_seen (pushes : List Push) (h : pushes.Pairwise (·.start ≤ ·.start)) (offset : Nat) :
    let m := ofPushes pushes
    (∃! i, PartsAt m.segments offset i) ∧
    (∀ i, PartsAt m.segments offset i → m.resolve? offset = (m.segments.take i).getLast?.map (·.locate offset)) ∧
    SameAnswer (m.resolve? offset) (plainPlace? pushes offset) ∧
    ((∀ p ∈ pushes, ∀ q ∈ pushes, p.file.same q.file = true → p.file = q.file) →
      m.resolve? offset = plainPlace? pushes offset) := by
  intro m
  have hsame : SameAnswer (m.resolve? offset) (plainPlace? pushes offset) :=
    resolve?_unmerged_eq pushes offset ▸ resolve?_ofPushes h offset
  obtain ⟨i, hi⟩ := exists_partsAt (ordered_ofPushes h) offset
  refine ⟨⟨i, hi, fun j hj => hj.unique hi⟩, fun j hj => resolve?_of_partsAt hj, hsame, ?_⟩
  intro hspelled
  cases hplain : plainPlace? pushes offset with
  | none =>
      rw [hplain] at hsame
      cases hanswer : m.resolve? offset with
      | none => rfl
      | some place => rw [hanswer] at hsame; cases hsame
  | some place =>
      rw [hplain] at hsame
      obtain ⟨f, hanswer, hfile⟩ := hsame.exists_some
      obtain ⟨p, hp, rfl⟩ := file_of_resolve? hanswer
      obtain ⟨q, hq, hplace⟩ := file_of_plainPlace? hplain
      rw [hanswer, hspelled p hp q hq (hplace ▸ hfile), hplace]

/-- Copies that are merged, an invocation that leaves no code, and a macro body of the length of what it stands for,
which is continued by a copy. -/
def continuedRuns : List Push :=
  [.copy 0 5 (.ofText "/ws/main.sqf") 0, .copy 5 3 (.ofText "/ws/main.sqf") 5, .expansion 8 8 (.ofText "/ws/inc.hpp") 100 4,
    .expansion 8 10 (.ofText "/ws/inc.hpp") 50 2, .copy 10 4 (.ofText "/ws/inc.hpp") 52]

theorem continuedRuns_resolve :
    continuedRuns.Pairwise (·.start ≤ ·.start) ∧ (ofPushes continuedRuns).segments.length = 3 ∧
      (ofPushes continuedRuns).resolve? 12 = plainPlace? continuedRuns 12 ∧
      plainPlace? continuedRuns 12 = some (.ofText "/ws/inc.hpp", 54) := by
  have hordered : continuedRuns.Pairwise (·.start ≤ ·.start) := by decide
  refine ⟨hordered, by decide +kernel, ?_, by decide +kernel⟩
  exact (merging_not_seen continuedRuns hordered 12).2.2.2 (by decide +kernel)

end SqfIndex.SourceMap
