import Mathlib.Data.List.Dedup
import Mathlib.Data.List.Nodup
import SqfIndex.Proofs.Position.Mapper

/-!
# Lookups that share a mapper

Any number of lookups may be under way at once. Each asks for the lines of its file. If they are not known and
nobody reads the file, the lookup reads it itself; while another one reads it, it waits. `Step` lets lookups come
and go on in any order, and lets a read end with any answer; that a place in the cache is made in one move, and that
at most one lookup at a time reads a file, is what the cache promises. The invariant `Sound` ties what is known to the
moves so far. Loading files one after the other is one of the runs: `exists_run_loadAll`.
-/

namespace SqfIndex

/-! ## Files that a mapper keeps -/

namespace Mapper

/-- The files whose lines are kept, by their components. -/
def keys (m : Mapper) : List (List Component) := m.cache.map (·.1.components)

def preloadAll (texts : List (Path × List Char)) : Mapper := texts.foldl (fun m t => m.preload t.1 t.2) {}

theorem lines?_eq_none_iff {m : Mapper} {p : Path} : m.lines? p = none ↔ p.components ∉ m.keys := by
  rw [lines?, Option.map_eq_none_iff, List.find?_eq_none, keys, List.mem_map]
  simp only [Path.same_iff, not_exists, not_and]

theorem isSome_lines?_iff {m : Mapper} {p : Path} : (m.lines? p).isSome = true ↔ p.components ∈ m.keys := by
  rw [← not_iff_not, Bool.not_eq_true, Option.isSome_eq_false_iff, Option.isNone_iff_eq_none, lines?_eq_none_iff]

theorem preloadAll_append (texts : List (Path × List Char)) (t : Path × List Char) :
    preloadAll (texts ++ [t]) = (preloadAll texts).preload t.1 t.2 := by
  rw [preloadAll, List.foldl_append]
  rfl

theorem lines?_preload (m : Mapper) (path p : Path) (text : List Char) :
    (m.preload path text).lines? p = if path.same p then some (.ofText text) else m.lines? p := by
  rw [preload, lines?_cons]
  split
  · rfl
  · next hother =>
    have hkeep (c : Path × LineIndex) : (!c.1.same path && c.1.same p) = c.1.same p := by
      cases hc : c.1.same p with
      | false => simp
      | true =>
          have hne : c.1.same path = false := by
            simpa using fun hsame => hother (Path.same_trans (Path.same_symm hsame) hc)
          simp [hne]
    simp only [lines?, List.find?_filter, ← Bool.and_eq_decide, hkeep]

/-- Of several texts for a file the last one counts. -/
theorem lines?_preloadAll (texts : List (Path × List Char)) (p : Path) :
    (preloadAll texts).lines? p = (texts.reverse.find? (·.1.same p)).map fun t => .ofText t.2 := by
  induction texts using List.reverseRecOn with
  | nil => rfl
  | append_singleton texts t ih =>
      rw [preloadAll_append, lines?_preload, ih, List.reverse_append, List.reverse_singleton, List.singleton_append,
        List.find?_cons]
      cases t.1.same p <;> rfl

theorem reads_preloadAll (texts : List (Path × List Char)) : (preloadAll texts).reads = 0 := by
  induction texts using List.reverseRecOn with
  | nil => rfl
  | append_singleton texts t ih =>
      rw [preloadAll_append]
      exact ih

theorem keys_preload (m : Mapper) (path : Path) (text : List Char) :
    (m.preload path text).keys = path.components :: m.keys.filter (· ≠ path.components) := by
  simp only [preload, keys, List.map_cons, List.filter_map, Function.comp_def, Path.same, beq_eq_decide, decide_not, ne_eq]

theorem nodup_keys_preloadAll (texts : List (Path × List Char)) : (preloadAll texts).keys.Nodup := by
  induction texts using List.reverseRecOn with
  | nil => exact List.nodup_nil
  | append_singleton texts t ih =>
      rw [preloadAll_append, keys_preload]
      exact List.nodup_cons.mpr ⟨by simp, ih.filter _⟩

theorem mem_keys_preloadAll {texts : List (Path × List Char)} {k : List Component} :
    k ∈ (preloadAll texts).keys ↔ k ∈ texts.map (·.1.components) := by
  induction texts using List.reverseRecOn with
  | nil => rfl
  | append_singleton texts t ih =>
      rw [preloadAll_append, keys_preload, List.map_append, List.mem_append, ← ih, List.mem_cons, List.mem_filter,
        List.map_singleton, List.mem_singleton, decide_eq_true_eq]
      tauto

/-! ## Lookups in any order -/

/-- An offset that is looked up, and how it is understood. -/
structure Lookup where
  frame : Frame
  offset : Nat

namespace Lookup

/-- An offset in the text of a file. -/
def direct (file : Path) (offset : Nat) : Lookup := ⟨{ map := {}, base := file, direct := some file }, offset⟩

def path (l : Lookup) : Path := (l.frame.target l.offset).1

def key (l : Lookup) : List Component := l.path.components

/-- The answer, once the lines of the file are known. -/
def place (l : Lookup) (ix : LineIndex) : Path × Position := (l.path, ix.position (l.frame.target l.offset).2)

end Lookup

theorem map_key (ls : List Lookup) : ls.map Lookup.key = (ls.map Lookup.path).map Path.components := by
  rw [List.map_map]
  rfl

/-- How far a lookup has come. -/
inductive Phase
  | waiting
  | reading
  | done (ix : LineIndex)
deriving DecidableEq, Repr

structure Task where
  lookup : Lookup
  phase : Phase

/-- A mapper with the lookups that share it. -/
structure Sharing where
  /-- The files whose lines are known, and how many reads were begun. -/
  mapper : Mapper
  /-- Files that were asked for, and whose lines are not known yet. -/
  awaited : List Path := []
  tasks : List Task := []

namespace Sharing

/-- The files that have a place in the cache, by their components. -/
def keys (s : Sharing) : List (List Component) := s.mapper.keys ++ s.awaited.map Path.components

/-- How many files have a place in the cache. -/
def size (s : Sharing) : Nat := s.mapper.size + s.awaited.length

/-- Makes a place for a file that has none. -/
def await (s : Sharing) (p : Path) : Sharing :=
  { s with awaited := if p.components ∈ s.keys then s.awaited else p :: s.awaited }

/-- Keeps the lines of a file that was awaited. -/
def fill (s : Sharing) (p : Path) (ix : LineIndex) : Sharing :=
  { s with
    mapper := { s.mapper with cache := (p, ix) :: s.mapper.cache }
    awaited := s.awaited.filter fun q => !q.same p }

def Finished (s : Sharing) : Prop := ∀ t ∈ s.tasks, ∃ ix, t.phase = .done ix

end Sharing

inductive Move
  | enter (l : Lookup)
  | read (p : Path)
  | answer (p : Path) (a : Except ReadError (List Char))
  | take (p : Path)

namespace Move

def entered? : Move → Option Lookup
  | enter l => some l
  | _ => none

def read? : Move → Option Path
  | read p => some p
  | _ => none

def answer? : Move → Option (Path × Except ReadError (List Char))
  | answer p a => some (p, a)
  | _ => none

end Move

/-- The lookups that were begun. -/
def entered (moves : List Move) : List Lookup := moves.filterMap Move.entered?

/-- The paths under which files were read. -/
def readsIn (moves : List Move) : List Path := moves.filterMap Move.read?

/-- How the reads that have ended were answered. -/
def answersIn (moves : List Move) : List (Path × Except ReadError (List Char)) := moves.filterMap Move.answer?

/-- A reader gave the answers. -/
def AnsweredBy (read : Reader) (moves : List Move) : Prop := ∀ q ∈ answersIn moves, q.2 = read q.1

/-- The lines that an answer gives. A file that cannot be read counts as empty. -/
def linesOf (a : Except ReadError (List Char)) : LineIndex := .ofText (a.toOption.getD [])

/-- What can happen next. -/
inductive Step : Sharing → Move → Sharing → Prop
  | enter {s : Sharing} (l : Lookup) :
      Step s (.enter l) { s.await l.path with tasks := s.tasks ++ [⟨l, .waiting⟩] }
  /-- A lookup begins to read its file, unless another one is at it. -/
  | read {s : Sharing} {before after : List Task} {l : Lookup} (h : s.tasks = before ++ ⟨l, .waiting⟩ :: after)
      (hunknown : s.mapper.lines? l.path = none) (hfree : ∀ t ∈ s.tasks, t.phase = .reading → t.lookup.key ≠ l.key) :
      Step s (.read l.path)
        { s with mapper := { s.mapper with reads := s.mapper.reads + 1 }, tasks := before ++ ⟨l, .reading⟩ :: after }
  | answer {s : Sharing} {before after : List Task} {l : Lookup} (h : s.tasks = before ++ ⟨l, .reading⟩ :: after)
      (a : Except ReadError (List Char)) :
      Step s (.answer l.path a) { s.fill l.path (linesOf a) with tasks := before ++ ⟨l, .done (linesOf a)⟩ :: after }
  | take {s : Sharing} {before after : List Task} {l : Lookup} {ix : LineIndex}
      (h : s.tasks = before ++ ⟨l, .waiting⟩ :: after) (hknown : s.mapper.lines? l.path = some ix) :
      Step s (.take l.path) { s with tasks := before ++ ⟨l, .done ix⟩ :: after }

/-- The moves that lead from a mapper to a state. -/
inductive Run (m : Mapper) : List Move → Sharing → Prop
  | nil : Run m [] { mapper := m }
  | step {moves : List Move} {move : Move} {s s' : Sharing} (h : Run m moves s) (hstep : Step s move s') :
      Run m (moves ++ [move]) s'

/-! ## The invariant -/

variable {m : Mapper} {moves : List Move} {move : Move} {s s' : Sharing} {before after : List Task} {l : Lookup}

/-- A lookup has come as far as what is known allows. -/
def Task.Fits (m : Mapper) (t : Task) : Prop :=
  match t.phase with
  | .waiting => True
  | .reading => m.lines? t.lookup.path = none
  | .done ix => m.lines? t.lookup.path = some ix

/-- Two lookups do not read the same file. -/
def Task.Apart (t t' : Task) : Prop := t.phase = .reading → t'.phase = .reading → t.lookup.key ≠ t'.lookup.key

/-- What the moves so far and the state have to do with each other. -/
structure Sound (m : Mapper) (moves : List Move) (s : Sharing) : Prop where
  tasks : s.tasks.map Task.lookup = entered moves
  nodup : s.keys.Nodup
  mem : ∀ k, k ∈ s.keys ↔ k ∈ m.keys ∨ k ∈ (entered moves).map Lookup.key
  counted : s.mapper.reads = m.reads + (readsIn moves).length
  once : ((readsIn moves).map Path.components).Nodup
  ended : ((answersIn moves).map (·.1.components)).Nodup
  /-- A file that was read is being read, or the read has ended. -/
  reads : ∀ p, p ∈ readsIn moves ↔
    (∃ t ∈ s.tasks, t.phase = .reading ∧ t.lookup.path = p) ∨ p ∈ (answersIn moves).map Prod.fst
  known : ∀ p ix, s.mapper.lines? p = some ix ↔
    m.lines? p = some ix ∨ ∃ q ∈ answersIn moves, q.1.same p = true ∧ ix = linesOf q.2
  answers : ∀ q ∈ answersIn moves, m.lines? q.1 = none ∧ q.1 ∈ (entered moves).map Lookup.path
  fits : ∀ t ∈ s.tasks, t.Fits s.mapper
  apart : s.tasks.Pairwise Task.Apart

theorem entered_append (moves : List Move) (move : Move) : entered (moves ++ [move]) = entered moves ++ move.entered?.toList := by
  cases move <;> simp [entered, Move.entered?]

theorem readsIn_append (moves : List Move) (move : Move) : readsIn (moves ++ [move]) = readsIn moves ++ move.read?.toList := by
  cases move <;> simp [readsIn, Move.read?]

theorem answersIn_append (moves : List Move) (move : Move) :
    answersIn (moves ++ [move]) = answersIn moves ++ move.answer?.toList := by
  cases move <;> simp [answersIn, Move.answer?]

theorem Sound.nil (h : m.keys.Nodup) : Sound m [] { mapper := m } where
  tasks := rfl
  nodup := by simpa [Sharing.keys] using h
  mem := by simp [Sharing.keys, entered]
  counted := by simp [readsIn]
  once := by simp [readsIn]
  ended := by simp [answersIn]
  reads := by simp [readsIn, answersIn]
  known := by simp [answersIn]
  answers := by simp [answersIn]
  fits := by simp
  apart := by simp

namespace Sharing

theorem keys_await (s : Sharing) (p : Path) :
    (s.await p).keys =
      if p.components ∈ s.keys then s.keys else s.mapper.keys ++ p.components :: s.awaited.map Path.components := by
  rw [keys, await]
  split <;> rfl

theorem mem_keys_await {k : List Component} {p : Path} : k ∈ (s.await p).keys ↔ k ∈ s.keys ∨ k = p.components := by
  rw [keys_await]
  split
  · next hmem =>
    refine ⟨Or.inl, ?_⟩
    rintro (hk | rfl)
    · exact hk
    · exact hmem
  · rw [List.mem_append, List.mem_cons, keys, List.mem_append]
    tauto

theorem nodup_await (h : s.keys.Nodup) (p : Path) : (s.await p).keys.Nodup := by
  rw [keys_await]
  split
  · exact h
  · next hmem => exact List.nodup_middle.mpr (List.nodup_cons.mpr ⟨hmem, h⟩)

theorem keys_fill (s : Sharing) (p : Path) (ix : LineIndex) :
    (s.fill p ix).keys = p.components :: (s.mapper.keys ++ (s.awaited.map Path.components).filter (· ≠ p.components)) := by
  simp only [keys, fill, Mapper.keys, List.map_cons, List.cons_append, List.filter_map, Function.comp_def, Path.same,
    beq_eq_decide, decide_not, ne_eq]

theorem mem_keys_fill {k : List Component} {p : Path} {ix : LineIndex} (h : p.components ∈ s.keys) :
    k ∈ (s.fill p ix).keys ↔ k ∈ s.keys := by
  rw [keys_fill, List.mem_cons, List.mem_append, List.mem_filter, decide_eq_true_eq]
  by_cases hk : k = p.components
  · simp [hk, h]
  · simp [hk, keys]

theorem nodup_fill {p : Path} {ix : LineIndex} (h : s.keys.Nodup) (hunknown : p.components ∉ s.mapper.keys) :
    (s.fill p ix).keys.Nodup := by
  rw [keys_fill, List.nodup_cons]
  exact ⟨by simp [hunknown], h.sublist (List.filter_sublist.append_left _)⟩

end Sharing

theorem Sound.enter (h : Sound m moves s) (l : Lookup) :
    Sound m (moves ++ [.enter l]) { s.await l.path with tasks := s.tasks ++ [⟨l, .waiting⟩] } := by
  have hentered : entered (moves ++ [.enter l]) = entered moves ++ [l] := entered_append ..
  have hreads : readsIn (moves ++ [.enter l]) = readsIn moves := (readsIn_append ..).trans (List.append_nil _)
  have hanswers : answersIn (moves ++ [.enter l]) = answersIn moves := (answersIn_append ..).trans (List.append_nil _)
  constructor
  · rw [hentered, List.map_append, h.tasks]
    rfl
  · exact Sharing.nodup_await h.nodup l.path
  · intro k
    rw [hentered, List.map_append, List.mem_append, ← or_assoc, ← h.mem, List.map_singleton, List.mem_singleton]
    exact @Sharing.mem_keys_await s k l.path
  · rw [hreads]; exact h.counted
  · rw [hreads]; exact h.once
  · rw [hanswers]; exact h.ended
  · intro p
    rw [hreads, hanswers, h.reads]
    simp [or_and_right, exists_or]
  · rw [hanswers]; exact h.known
  · intro q hq
    rw [hanswers] at hq
    rw [hentered, List.map_append]
    exact ⟨(h.answers q hq).1, List.mem_append_left _ (h.answers q hq).2⟩
  · intro t ht
    rcases List.mem_append.mp ht with ht | ht
    · exact h.fits t ht
    · cases List.mem_singleton.mp ht
      trivial
  · rw [List.pairwise_append]
    refine ⟨h.apart, List.pairwise_singleton _ _, ?_⟩
    intro t _ t' ht' _ hphase
    cases List.mem_singleton.mp ht'
    cases hphase

theorem mem_replaced {t t' : Task} : t ∈ before ++ t' :: after ↔ t = t' ∨ t ∈ before ++ after := by
  simp only [List.mem_append, List.mem_cons]
  tauto

theorem exists_replaced {P : Task → Prop} {t : Task} :
    (∃ t' ∈ before ++ t :: after, P t') ↔ P t ∨ ∃ t' ∈ before ++ after, P t' := by
  simp only [mem_replaced, or_and_right, exists_or, exists_eq_left]

theorem pairwise_apart_replaced {t : Task} :
    (before ++ t :: after).Pairwise Task.Apart ↔ (∀ t' ∈ before ++ after, t.Apart t') ∧ (before ++ after).Pairwise Task.Apart := by
  rw [List.pairwise_middle fun h hreading' hreading => (h hreading hreading').symm, List.pairwise_cons]

theorem Sound.not_answered (h : Sound m moves s) (hunknown : s.mapper.lines? l.path = none) :
    m.lines? l.path = none ∧ ∀ q ∈ answersIn moves, q.1.components ≠ l.key := by
  constructor
  · rw [Option.eq_none_iff_forall_ne_some]
    intro ix hix
    rw [(h.known _ _).mpr (Or.inl hix)] at hunknown
    cases hunknown
  · intro q hq hkey
    rw [(h.known _ _).mpr (Or.inr ⟨q, hq, Path.same_iff.mpr hkey, rfl⟩)] at hunknown
    cases hunknown

theorem Sound.unread (h : Sound m moves s) (hunknown : s.mapper.lines? l.path = none)
    (hfree : ∀ t ∈ s.tasks, t.phase = .reading → t.lookup.key ≠ l.key) : l.key ∉ (readsIn moves).map Path.components := by
  intro hmem
  obtain ⟨p, hp, hkey⟩ := List.mem_map.mp hmem
  rcases (h.reads p).mp hp with ⟨t, ht, hphase, rfl⟩ | hanswered
  · exact hfree t ht hphase hkey
  · obtain ⟨q, hq, rfl⟩ := List.mem_map.mp hanswered
    exact (h.not_answered hunknown).2 q hq hkey

theorem Sound.read (h : Sound m moves s) (hs : s.tasks = before ++ ⟨l, .waiting⟩ :: after)
    (hunknown : s.mapper.lines? l.path = none) (hfree : ∀ t ∈ s.tasks, t.phase = .reading → t.lookup.key ≠ l.key) :
    Sound m (moves ++ [.read l.path])
      { s with mapper := { s.mapper with reads := s.mapper.reads + 1 }, tasks := before ++ ⟨l, .reading⟩ :: after } := by
  have hentered : entered (moves ++ [.read l.path]) = entered moves := (entered_append ..).trans (List.append_nil _)
  have hreads : readsIn (moves ++ [.read l.path]) = readsIn moves ++ [l.path] := readsIn_append ..
  have hanswers : answersIn (moves ++ [.read l.path]) = answersIn moves := (answersIn_append ..).trans (List.append_nil _)
  have hrest {t : Task} (ht : t ∈ before ++ after) : t ∈ s.tasks := hs ▸ mem_replaced.mpr (Or.inr ht)
  constructor
  · rw [hentered, ← h.tasks, hs]
    simp
  · exact h.nodup
  · rw [hentered]; exact h.mem
  · rw [hreads, List.length_append, ← Nat.add_assoc, ← h.counted]
    rfl
  · rw [hreads, List.map_append, List.nodup_append_comm]
    exact List.nodup_cons.mpr ⟨h.unread hunknown hfree, h.once⟩
  · rw [hanswers]; exact h.ended
  · intro p
    rw [hreads, hanswers, List.mem_append, h.reads, hs, exists_replaced, exists_replaced, List.mem_singleton, @eq_comm _ p]
    simp only [reduceCtorEq, false_and, false_or, true_and]
    exact or_comm.trans or_assoc.symm
  · rw [hanswers]; exact h.known
  · rw [hanswers, hentered]; exact h.answers
  · intro t ht
    rcases mem_replaced.mp ht with rfl | ht
    · exact hunknown
    · exact h.fits t (hrest ht)
  · have hapart := h.apart
    rw [hs, pairwise_apart_replaced] at hapart
    exact pairwise_apart_replaced.mpr ⟨fun t ht _ hphase => (hfree t (hrest ht) hphase).symm, hapart.2⟩

theorem Sound.take {ix : LineIndex} (h : Sound m moves s) (hs : s.tasks = before ++ ⟨l, .waiting⟩ :: after)
    (hknown : s.mapper.lines? l.path = some ix) :
    Sound m (moves ++ [.take l.path]) { s with tasks := before ++ ⟨l, .done ix⟩ :: after } := by
  have hentered : entered (moves ++ [.take l.path]) = entered moves := (entered_append ..).trans (List.append_nil _)
  have hreads : readsIn (moves ++ [.take l.path]) = readsIn moves := (readsIn_append ..).trans (List.append_nil _)
  have hanswers : answersIn (moves ++ [.take l.path]) = answersIn moves := (answersIn_append ..).trans (List.append_nil _)
  have hrest {t : Task} (ht : t ∈ before ++ after) : t ∈ s.tasks := hs ▸ mem_replaced.mpr (Or.inr ht)
  constructor
  · rw [hentered, ← h.tasks, hs]
    simp
  · exact h.nodup
  · rw [hentered]; exact h.mem
  · rw [hreads]; exact h.counted
  · rw [hreads]; exact h.once
  · rw [hanswers]; exact h.ended
  · intro p
    rw [hreads, hanswers, h.reads, hs, exists_replaced, exists_replaced]
    simp only [reduceCtorEq, false_and]
  · rw [hanswers]; exact h.known
  · rw [hanswers, hentered]; exact h.answers
  · intro t ht
    rcases mem_replaced.mp ht with rfl | ht
    · exact hknown
    · exact h.fits t (hrest ht)
  · have hapart := h.apart
    rw [hs, pairwise_apart_replaced] at hapart
    refine pairwise_apart_replaced.mpr ⟨?_, hapart.2⟩
    intro t _ hphase
    cases hphase

theorem lines?_fill (s : Sharing) (path p : Path) (ix : LineIndex) :
    (s.fill path ix).mapper.lines? p = if path.same p then some ix else s.mapper.lines? p :=
  lines?_cons ..

/-- When the lines of a file get known, other lookups have come as far as before. -/
theorem Task.Fits.fill {t : Task} {ix : LineIndex} (h : t.Fits s.mapper) (hother : t.phase = .reading → l.key ≠ t.lookup.key)
    (hunknown : s.mapper.lines? l.path = none) : t.Fits (s.fill l.path ix).mapper := by
  obtain ⟨l', phase⟩ := t
  cases phase with
  | waiting => trivial
  | reading =>
      have hother' : ¬ l.path.same l'.path = true := fun hsame => hother rfl (Path.same_iff.mp hsame)
      exact (lines?_fill ..).trans ((if_neg hother').trans h)
  | done ix' =>
      have hother' : ¬ l.path.same l'.path = true := by
        intro hsame
        rw [Fits, ← lines?_congr _ hsame, hunknown] at h
        cases h
      exact (lines?_fill ..).trans ((if_neg hother').trans h)

theorem Sound.answer (h : Sound m moves s) (hs : s.tasks = before ++ ⟨l, .reading⟩ :: after)
    (a : Except ReadError (List Char)) :
    Sound m (moves ++ [.answer l.path a]) { s.fill l.path (linesOf a) with tasks := before ++ ⟨l, .done (linesOf a)⟩ :: after } := by
  have hentered : entered (moves ++ [.answer l.path a]) = entered moves := (entered_append ..).trans (List.append_nil _)
  have hreads : readsIn (moves ++ [.answer l.path a]) = readsIn moves := (readsIn_append ..).trans (List.append_nil _)
  have hanswers : answersIn (moves ++ [.answer l.path a]) = answersIn moves ++ [(l.path, a)] := answersIn_append ..
  have hrest {t : Task} (ht : t ∈ before ++ after) : t ∈ s.tasks := hs ▸ mem_replaced.mpr (Or.inr ht)
  have hunknown : s.mapper.lines? l.path = none := h.fits ⟨l, .reading⟩ (hs ▸ mem_replaced.mpr (Or.inl rfl))
  obtain ⟨hnew, hothers⟩ := h.not_answered hunknown
  have hl : l ∈ entered moves := by
    rw [← h.tasks, hs]
    simp
  have hapart := h.apart
  rw [hs, pairwise_apart_replaced] at hapart
  constructor
  · rw [hentered, ← h.tasks, hs]
    simp
  · exact Sharing.nodup_fill h.nodup (lines?_eq_none_iff.mp hunknown)
  · intro k
    rw [hentered, ← h.mem]
    exact Sharing.mem_keys_fill ((h.mem _).mpr (Or.inr (List.mem_map_of_mem hl)))
  · rw [hreads]; exact h.counted
  · rw [hreads]; exact h.once
  · rw [hanswers, List.map_append, List.nodup_append_comm]
    refine List.nodup_cons.mpr ⟨?_, h.ended⟩
    intro hmem
    obtain ⟨q, hq, hkey⟩ := List.mem_map.mp hmem
    exact hothers q hq hkey
  · intro p
    rw [hreads, hanswers, List.map_append, List.mem_append, h.reads, hs, exists_replaced, exists_replaced,
      List.map_singleton, List.mem_singleton, @eq_comm _ p]
    simp only [reduceCtorEq, false_and, false_or, true_and]
    rw [or_assoc, or_comm, or_assoc]
  · intro p ix
    show (s.fill l.path (linesOf a)).mapper.lines? p = some ix ↔ _
    rw [lines?_fill, hanswers]
    by_cases hsame : l.path.same p = true
    · have hnone : ¬ ∃ q ∈ answersIn moves, q.1.same p = true ∧ ix = linesOf q.2 := by
        rintro ⟨q, hq, hq', -⟩
        exact hothers q hq (Path.same_iff.mp (Path.same_trans hq' (Path.same_symm hsame)))
      rw [if_pos hsame, ← lines?_congr m hsame, hnew, Option.some.injEq, eq_comm]
      simp only [List.mem_append, List.mem_singleton, or_and_right, exists_or, hnone, exists_eq_left, hsame, true_and, false_or,
        reduceCtorEq]
    · rw [if_neg hsame, h.known]
      simp only [List.mem_append, List.mem_singleton, or_and_right, exists_or, exists_eq_left, hsame, false_and, or_false,
        Bool.false_eq_true]
  · intro q hq
    rw [hanswers] at hq
    rw [hentered]
    rcases List.mem_append.mp hq with hq | hq
    · exact h.answers q hq
    · cases List.mem_singleton.mp hq
      exact ⟨hnew, List.mem_map_of_mem hl⟩
  · intro t ht
    rcases mem_replaced.mp ht with rfl | ht
    · exact (lines?_fill ..).trans (if_pos (Path.same_refl _))
    · exact (h.fits t (hrest ht)).fill (hapart.1 t ht rfl) hunknown
  · refine pairwise_apart_replaced.mpr ⟨?_, hapart.2⟩
    intro t _ hphase
    cases hphase

theorem Sound.step (h : Sound m moves s) (hstep : Step s move s') : Sound m (moves ++ [move]) s' := by
  cases hstep with
  | enter l => exact h.enter l
  | read hs hunknown hfree => exact h.read hs hunknown hfree
  | answer hs a => exact h.answer hs a
  | take hs hknown => exact h.take hs hknown

theorem Run.sound (h : Run m moves s) (hm : m.keys.Nodup) : Sound m moves s := by
  induction h with
  | nil => exact Sound.nil hm
  | step _ hstep ih => exact ih.step hstep

/-! ## Whole runs -/

theorem Sharing.size_eq_length_keys (s : Sharing) : s.size = s.keys.length := by
  simp [size, keys, Mapper.size, Mapper.keys]

/-- As many files have a place in the cache as were known or asked for. -/
theorem Sound.size_eq (h : Sound m moves s) {ks : List (List Component)}
    (hks : ∀ k, k ∈ ks ↔ k ∈ m.keys ∨ k ∈ (entered moves).map Lookup.key) : s.size = ks.dedup.length := by
  rw [Sharing.size_eq_length_keys]
  refine ((List.perm_ext_iff_of_nodup h.nodup (List.nodup_dedup _)).mpr ?_).length_eq
  intro k
  rw [h.mem, List.mem_dedup, hks]

theorem Sound.unknown_of_read (h : Sound m moves s) {p : Path} (hp : p ∈ readsIn moves) : p.components ∉ m.keys := by
  rcases (h.reads p).mp hp with ⟨⟨l, phase⟩, ht, hphase, rfl⟩ | hmem
  · cases hphase
    exact lines?_eq_none_iff.mp (h.not_answered (h.fits _ ht)).1
  · obtain ⟨q, hq, rfl⟩ := List.mem_map.mp hmem
    exact lines?_eq_none_iff.mp (h.answers q hq).1

theorem Sound.entered_of_task (h : Sound m moves s) {t : Task} (ht : t ∈ s.tasks) : t.lookup ∈ entered moves :=
  h.tasks ▸ List.mem_map_of_mem ht

theorem Sound.entered_of_read (h : Sound m moves s) {p : Path} (hp : p ∈ readsIn moves) :
    p ∈ (entered moves).map Lookup.path := by
  rcases (h.reads p).mp hp with ⟨t, ht, -, rfl⟩ | hmem
  · exact List.mem_map_of_mem (h.entered_of_task ht)
  · obtain ⟨q, hq, rfl⟩ := List.mem_map.mp hmem
    exact (h.answers q hq).2

/-- A lookup that has finished was given the lines that were known, or those of the one answer for its file. -/
theorem Sound.lines_done (h : Sound m moves s) {ix : LineIndex} (ht : ⟨l, .done ix⟩ ∈ s.tasks) :
    m.lines? l.path = some ix ∨
      ∃ q ∈ answersIn moves, q.1.same l.path = true ∧ (∀ q' ∈ answersIn moves, q'.1.same l.path = true → q' = q) ∧
        ix = linesOf q.2 := by
  refine ((h.known _ _).mp (h.fits _ ht)).imp_right ?_
  rintro ⟨q, hq, hsame, hix⟩
  refine ⟨q, hq, hsame, ?_, hix⟩
  intro q' hq' hsame'
  exact List.inj_on_of_nodup_map h.ended hq' hq (Path.same_iff.mp (Path.same_trans hsame' (Path.same_symm hsame)))

theorem Sound.done_of_finished (h : Sound m moves s) (hf : s.Finished) (hl : l ∈ entered moves) :
    ∃ ix, ⟨l, .done ix⟩ ∈ s.tasks := by
  rw [← h.tasks] at hl
  obtain ⟨⟨_, phase⟩, ht, rfl⟩ := List.mem_map.mp hl
  obtain ⟨ix, hphase⟩ := hf _ ht
  cases hphase
  exact ⟨ix, ht⟩

/-- Once all lookups have finished, what has a place in the cache was known or was read. -/
theorem Sound.size_finished (h : Sound m moves s) (hm : m.keys.Nodup) (hf : s.Finished) :
    s.size = m.size + (readsIn moves).length := by
  have hperm : s.keys.Perm (m.keys ++ (readsIn moves).map Path.components) := by
    refine (List.perm_ext_iff_of_nodup h.nodup (hm.append h.once ?_)).mpr ?_
    · intro k hk hmem
      obtain ⟨p, hp, rfl⟩ := List.mem_map.mp hmem
      exact h.unknown_of_read hp hk
    · intro k
      rw [h.mem, List.mem_append]
      constructor
      · rintro (hk | hk)
        · exact Or.inl hk
        · obtain ⟨l, hl, rfl⟩ := List.mem_map.mp hk
          obtain ⟨ix, ht⟩ := h.done_of_finished hf hl
          rcases h.lines_done ht with hknown | ⟨q, hq, hsame, -, -⟩
          · exact Or.inl (isSome_lines?_iff.mp (by rw [hknown]; rfl))
          · have hread := (h.reads q.1).mpr (Or.inr (List.mem_map_of_mem hq))
            exact Or.inr (List.mem_map.mpr ⟨q.1, hread, Path.same_iff.mp hsame⟩)
      · rintro (hk | hk)
        · exact Or.inl hk
        · obtain ⟨p, hp, rfl⟩ := List.mem_map.mp hk
          obtain ⟨l, hl, rfl⟩ := List.mem_map.mp (h.entered_of_read hp)
          exact Or.inr (List.mem_map_of_mem hl)
  rw [Sharing.size_eq_length_keys, hperm.length_eq]
  simp [Mapper.size, Mapper.keys]

/-- Files are read once for all lookups, and not at all where a text was preloaded. -/
structure ReadOnce (texts : List (Path × List Char)) (moves : List Move) (s : Sharing) : Prop where
  once : ((readsIn moves).map Path.components).Nodup
  unread : ∀ t ∈ texts, ∀ p ∈ readsIn moves, t.1.same p = false
  /-- A lookup is given the lines of the text that was preloaded last for its file, or of the one answer that its file
  was read with, empty if the read failed. -/
  lines : ∀ l ix, ⟨l, .done ix⟩ ∈ s.tasks →
    (∃ t, texts.reverse.find? (·.1.same l.path) = some t ∧ ix = .ofText t.2) ∨
    ∃ q ∈ answersIn moves, q.1 ∈ readsIn moves ∧ q.1.same l.path = true ∧
      (∀ q' ∈ answersIn moves, q'.1.same l.path = true → q' = q) ∧ ix = .ofText (q.2.toOption.getD [])
  size : s.size = ((texts.map Prod.fst ++ (entered moves).map Lookup.path).map Path.components).dedup.length

theorem Run.readOnce {texts : List (Path × List Char)} (h : Run (preloadAll texts) moves s) : ReadOnce texts moves s := by
  have hs := h.sound (nodup_keys_preloadAll texts)
  constructor
  · exact hs.once
  · intro t ht p hp
    have hunknown := hs.unknown_of_read hp
    rw [mem_keys_preloadAll] at hunknown
    rw [Bool.eq_false_iff, Ne, Path.same_iff]
    exact fun hkey => hunknown (hkey ▸ List.mem_map_of_mem ht)
  · intro l ix ht
    refine (hs.lines_done ht).imp ?_ ?_
    · intro hknown
      rw [lines?_preloadAll] at hknown
      obtain ⟨t, hfind, rfl⟩ := Option.map_eq_some_iff.mp hknown
      exact ⟨t, hfind, rfl⟩
    · rintro ⟨q, hq, hrest⟩
      exact ⟨q, hq, (hs.reads q.1).mpr (Or.inr (List.mem_map_of_mem hq)), hrest⟩
  · refine hs.size_eq ?_
    intro k
    rw [mem_keys_preloadAll, map_key, List.map_append, List.mem_append, List.map_map]
    rfl

/-! ## Every run comes to an end -/

/-- A lookup that has not finished can go on, or it waits for one that can, whatever is answered. -/
theorem exists_step (read : Reader) (h : ¬ s.Finished) :
    ∃ move s', Step s move s' ∧ (∀ l, move ≠ .enter l) ∧ ∀ q a, move = .answer q a → a = read q := by
  have hanswer (l : Lookup) (ht : ⟨l, .reading⟩ ∈ s.tasks) :
      ∃ move s', Step s move s' ∧ (∀ l, move ≠ .enter l) ∧ ∀ q a, move = .answer q a → a = read q := by
    obtain ⟨before, after, hs⟩ := List.append_of_mem ht
    refine ⟨_, _, .answer hs (read l.path), by simp, ?_⟩
    rintro _ _ ⟨⟩
    rfl
  simp only [Sharing.Finished, not_forall] at h
  obtain ⟨⟨l, phase⟩, ht, hphase⟩ := h
  cases phase with
  | done ix => exact absurd ⟨ix, rfl⟩ hphase
  | reading => exact hanswer l ht
  | waiting =>
      obtain ⟨before, after, hs⟩ := List.append_of_mem ht
      cases hlines : s.mapper.lines? l.path with
      | some ix => exact ⟨_, _, .take hs hlines, by simp, by simp⟩
      | none =>
          by_cases hfree : ∀ t ∈ s.tasks, t.phase = .reading → t.lookup.key ≠ l.key
          · exact ⟨_, _, .read hs hlines hfree, by simp, by simp⟩
          · -- another lookup reads the file
            simp only [not_forall] at hfree
            obtain ⟨⟨l', phase⟩, ht', hreading, -⟩ := hfree
            cases hreading
            exact hanswer l' ht'

namespace Phase

def hasLines : Phase → Bool
  | done _ => true
  | _ => false

def hasMoved : Phase → Bool
  | waiting => false
  | _ => true

end Phase

/-- How many moves the lookups have made at least: one to begin, one to go on and one to end. -/
def Sharing.rank (s : Sharing) : Nat :=
  s.tasks.length + s.tasks.countP (·.phase.hasMoved) + s.tasks.countP (·.phase.hasLines)

theorem Step.rank_lt (h : Step s move s') : s.rank < s'.rank := by
  cases h with
  | enter l => simp [Sharing.rank, Phase.hasMoved, Phase.hasLines]
  | read hs _ _ => simp [Sharing.rank, Phase.hasMoved, Phase.hasLines, hs]
  | answer hs a => simp [Sharing.rank, Phase.hasMoved, Phase.hasLines, hs]
  | take hs _ =>
      simp only [Sharing.rank, hs, List.length_append, List.length_cons, List.countP_append, List.countP_cons,
        Phase.hasMoved, Phase.hasLines, Bool.false_eq_true, if_true, if_false]
      omega

theorem Run.length_le_rank (h : Run m moves s) : moves.length ≤ s.rank := by
  induction h with
  | nil => exact Nat.le_refl 0
  | step _ hstep ih =>
      rw [List.length_append]
      exact Nat.lt_of_le_of_lt ih hstep.rank_lt

theorem Sharing.rank_le (s : Sharing) : s.rank ≤ 3 * s.tasks.length := by
  have hmoved : s.tasks.countP (·.phase.hasMoved) ≤ s.tasks.length := List.countP_le_length
  have hlines : s.tasks.countP (·.phase.hasLines) ≤ s.tasks.length := List.countP_le_length
  unfold rank
  omega

/-- Lookups cannot get stuck, whatever is answered, and each makes at most three moves. -/
structure Unhindered (moves : List Move) (s : Sharing) : Prop where
  tasks : s.tasks.map Task.lookup = entered moves
  goesOn : ∀ read : Reader, ¬ s.Finished →
    ∃ move s', Step s move s' ∧ (∀ l, move ≠ .enter l) ∧ ∀ q a, move = .answer q a → a = read q
  bounded : moves.length ≤ 3 * (entered moves).length

theorem Run.unhindered (h : Run m moves s) (hm : m.keys.Nodup) : Unhindered moves s where
  tasks := (h.sound hm).tasks
  goesOn read hf := exists_step read hf
  bounded := by
    rw [← (h.sound hm).tasks, List.length_map]
    exact Nat.le_trans h.length_le_rank s.rank_le

/-! ## One lookup after the other -/

/-- A lookup from its beginning to its end while no other one is under way. -/
theorem Run.lookup (h : Run m moves s) (hf : s.Finished) (hempty : s.awaited = []) (read : Reader) (l : Lookup) :
    ∃ more s', Run m (moves ++ more) s' ∧ s'.Finished ∧ s'.awaited = [] ∧ entered more = [l] ∧
      AnsweredBy read more ∧ s'.mapper = s.mapper.load read l.path := by
  have henter := h.step (.enter l)
  have hdone {ix : LineIndex} : ∀ t ∈ s.tasks ++ [⟨l, .done ix⟩], ∃ ix, t.phase = .done ix := by
    intro t ht
    rcases List.mem_append.mp ht with ht | ht
    · exact hf t ht
    · cases List.mem_singleton.mp ht
      exact ⟨_, rfl⟩
  cases hlines : s.mapper.lines? l.path with
  | some ix =>
      have htake := henter.step (@Step.take _ s.tasks [] l ix rfl hlines)
      rw [List.append_assoc] at htake
      have hmem : l.path.components ∈ s.keys := List.mem_append_left _ (isSome_lines?_iff.mp (by rw [hlines]; rfl))
      refine ⟨_, _, htake, hdone, ?_, rfl, by simp [AnsweredBy, answersIn, Move.answer?], ?_⟩
      · simp [Sharing.await, hmem, hempty]
      · simp [load, hlines, Sharing.await]
  | none =>
      have hmem : l.path.components ∉ s.keys := by
        simpa [Sharing.keys, hempty] using lines?_eq_none_iff.mp hlines
      have hfree : ∀ t ∈ s.tasks ++ [⟨l, .waiting⟩], t.phase = .reading → t.lookup.key ≠ l.key := by
        intro t ht hreading
        rcases List.mem_append.mp ht with ht | ht
        · obtain ⟨ix, hphase⟩ := hf t ht
          rw [hphase] at hreading
          cases hreading
        · cases List.mem_singleton.mp ht
          cases hreading
      have hread := henter.step (@Step.read _ s.tasks [] l rfl hlines hfree)
      have hanswer := hread.step (@Step.answer _ s.tasks [] l rfl (read l.path))
      rw [List.append_assoc, List.append_assoc] at hanswer
      refine ⟨_, _, hanswer, hdone, ?_, rfl, ?_, ?_⟩
      · simp [Sharing.fill, Sharing.await, hmem, hempty, Path.same_refl]
      · simp [AnsweredBy, answersIn, Move.answer?]
      · simp [load, hlines, Sharing.fill, Sharing.await, linesOf]

theorem Run.loadAll (h : Run m moves s) (hf : s.Finished) (hempty : s.awaited = []) (read : Reader) (ls : List Lookup) :
    ∃ more s', Run m (moves ++ more) s' ∧ s'.Finished ∧ s'.awaited = [] ∧ entered more = ls ∧
      AnsweredBy read more ∧ s'.mapper = s.mapper.loadAll read (ls.map Lookup.path) := by
  induction ls generalizing moves s with
  | nil => exact ⟨[], s, by rwa [List.append_nil], hf, hempty, rfl, by simp [AnsweredBy, answersIn], rfl⟩
  | cons l ls ih =>
      obtain ⟨first, s₁, hrun₁, hf₁, hempty₁, hentered₁, hanswers₁, hmapper₁⟩ := h.lookup hf hempty read l
      obtain ⟨rest, s₂, hrun₂, hf₂, hempty₂, hentered₂, hanswers₂, hmapper₂⟩ := ih hrun₁ hf₁ hempty₁
      refine ⟨first ++ rest, s₂, by rwa [← List.append_assoc], hf₂, hempty₂, ?_, ?_, ?_⟩
      · rw [entered, List.filterMap_append]
        exact congrArg₂ (· ++ ·) hentered₁ hentered₂
      · intro q hq
        rw [answersIn, List.filterMap_append] at hq
        exact (List.mem_append.mp hq).elim (hanswers₁ q) (hanswers₂ q)
      · rw [hmapper₂, hmapper₁]
        rfl

/-- Loading files one after the other is one of the runs. -/
theorem exists_run_loadAll (m : Mapper) (read : Reader) (ls : List Lookup) :
    ∃ moves s, Run m moves s ∧ s.Finished ∧ s.awaited = [] ∧ entered moves = ls ∧ AnsweredBy read moves ∧
      s.mapper = m.loadAll read (ls.map Lookup.path) :=
  (@Run.nil m).loadAll (by simp [Sharing.Finished]) rfl read ls

end Mapper

end SqfIndex
