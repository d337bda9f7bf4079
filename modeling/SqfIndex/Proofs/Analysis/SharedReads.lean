import SqfIndex.Proofs.Analysis.Outcomes
import SqfIndex.Proofs.Position.Sharing

/-!
# Analyses whose lookups share their reads

However the lookups that share a mapper take turns, each file is read at most once, and one whose text is at hand
is not read at all: `lookups_share_reads`. If a reader says the same of all paths to a file, the answers do not
depend on the turns, and an analysis reports what it reports with one lookup after the other.
-/

namespace SqfIndex

namespace Mapper

/-! ## Fixed readers -/

/-- The reader says the same of those paths that lead to the same file. -/
def Agrees (read : Reader) (paths : List Path) : Prop :=
  ∀ p ∈ paths, ∀ q ∈ paths, p.same q = true → (read p).toOption = (read q).toOption

instance (read : Reader) (paths : List Path) : Decidable (Agrees read paths) :=
  inferInstanceAs (Decidable (∀ p ∈ paths, ∀ q ∈ paths, p.same q = true → (read p).toOption = (read q).toOption))

/-- The lines that a lookup of a file gives if there is no other one. -/
def source (m : Mapper) (read : Reader) (p : Path) : LineIndex := (m.lines? p).getD (linesOf (read p))

variable {m : Mapper} {read : Reader} {paths : List Path} {p : Path}

theorem Agrees.mono {paths' : List Path} (h : Agrees read paths) (hsub : paths' ⊆ paths) : Agrees read paths' :=
  fun p hp q hq => h p (hsub hp) q (hsub hq)

theorem agrees_singleton (read : Reader) (p : Path) : Agrees read [p] := by
  intro q hq q' hq' _
  rw [List.mem_singleton.mp hq, List.mem_singleton.mp hq']

theorem exists_first_same {q : Path} (hq : q ∈ paths) (hsame : q.same p = true) :
    ∃ first ∈ paths, first.same p = true ∧ paths.find? (·.same p) = some first := by
  have hsome : (paths.find? (·.same p)).isSome = true := List.find?_isSome.mpr ⟨q, hq, hsame⟩
  obtain ⟨first, hfirst⟩ := Option.isSome_iff_exists.mp hsome
  exact ⟨first, List.mem_of_find?_eq_some hfirst, by simpa using List.find?_some hfirst, hfirst⟩

theorem lines?_loadAll_of_agrees (h : Agrees read paths) (hp : p ∈ paths) :
    (m.loadAll read paths).lines? p = some (m.source read p) := by
  rw [lines?_loadAll, source]
  cases m.lines? p with
  | some ix => rfl
  | none =>
      obtain ⟨first, hfirst, hsame, hfind⟩ := exists_first_same hp (Path.same_refl p)
      rw [hfind, Option.map_some, h first hfirst p hp hsame]
      rfl

theorem lookup_source (m : Mapper) (read : Reader) (l : Lookup) :
    (l.frame.lookup read m [l.offset]).1 = [l.place (m.source read l.path)] := by
  have hlines := @lines?_loadAll_of_agrees m read [l.path] l.path (agrees_singleton read l.path) List.mem_cons_self
  show [(l.path, (m.loadAll read [l.path]).position l.path _)] = _
  rw [position, hlines]
  rfl

theorem lookupSpan_source {f : Frame} {span : Span} (h : Agrees read (f.filesOf span)) :
    let start : Lookup := ⟨f, span.start⟩
    let stop : Lookup := ⟨f, span.stop⟩
    (f.lookupSpan read m span).1 =
      (start.path, ⟨(start.place (m.source read start.path)).2, (stop.place (m.source read stop.path)).2⟩) := by
  intro start stop
  let loaded := m.loadAll read (f.filesOf span)
  have hstart : loaded.lines? start.path = _ :=
    lines?_loadAll_of_agrees h (by simp [Frame.filesOf, start, Lookup.path])
  have hstop : loaded.lines? stop.path = _ :=
    lines?_loadAll_of_agrees h (by simp [Frame.filesOf, stop, Lookup.path])
  show (start.path, (⟨loaded.position start.path _, loaded.position stop.path _⟩ : Range)) = _
  rw [position, position, hstart, hstop]
  rfl

variable {moves : List Move} {s : Sharing} {l : Lookup}

/-- Under a fixed reader a lookup gives what it gives after the same reads, one after the other. -/
theorem Sound.lines?_reads (h : Sound m moves s) (hread : AnsweredBy read moves) {ix : LineIndex}
    (ht : ⟨l, .done ix⟩ ∈ s.tasks) : (m.loadAll read (readsIn moves)).lines? l.path = some ix := by
  rw [lines?_loadAll]
  rcases h.lines_done ht with hknown | ⟨q, hq, hsame, -, hix⟩
  · rw [hknown]
    rfl
  · have hq' : q.1 ∈ readsIn moves := (h.reads q.1).mpr (Or.inr (List.mem_map_of_mem hq))
    obtain ⟨first, hfirst, hsame', hfind⟩ := exists_first_same hq' hsame
    -- the file was read under one path only
    have hkey := Path.same_iff.mp (Path.same_trans hsame' (Path.same_symm hsame))
    have hpath : first = q.1 := List.inj_on_of_nodup_map h.once hfirst hq' hkey
    rw [← lines?_congr m hsame, (h.answers q hq).1, hfind, hpath, hix, hread q hq]
    rfl

/-- If the reader says the same of all paths to a file, a lookup gives what it gives if there is no other one. -/
theorem Sound.source_done (h : Sound m moves s) (hread : AnsweredBy read moves)
    (hagrees : Agrees read ((entered moves).map Lookup.path)) {ix : LineIndex} (ht : ⟨l, .done ix⟩ ∈ s.tasks) :
    ix = m.source read l.path := by
  rcases h.lines_done ht with hknown | ⟨q, hq, hsame, -, hix⟩
  · rw [source, hknown]
    rfl
  · obtain ⟨hunknown, hentered⟩ := h.answers q hq
    have hagree := hagrees _ hentered _ (List.mem_map_of_mem (h.entered_of_task ht)) hsame
    rw [source, ← lines?_congr m hsame, hunknown, hix, hread q hq, linesOf, hagree]
    rfl

/-- Lookups of the same files end with as many files kept and as many reads, whatever turns they take. -/
theorem Run.counts_eq_loadAll (h : Run m moves s) (hm : m.keys.Nodup) (hf : s.Finished) (read : Reader)
    (hpaths : ∀ p, p ∈ (entered moves).map Lookup.path ↔ p ∈ paths) :
    s.size = (m.loadAll read paths).size ∧ s.mapper.reads = (m.loadAll read paths).reads := by
  -- one lookup for each of the paths, one after the other
  obtain ⟨moves', s', h', hf', hempty, hentered, -, hmapper⟩ := exists_run_loadAll m read (paths.map (.direct · 0))
  have hdirect : (paths.map (.direct · 0)).map Lookup.path = paths := by
    rw [List.map_map]
    exact List.map_id paths
  rw [hdirect] at hmapper
  have hkeys (k : List Component) : k ∈ (entered moves').map Lookup.key ↔ k ∈ (entered moves).map Lookup.key := by
    rw [hentered, map_key, map_key, hdirect, List.mem_map, List.mem_map]
    simp only [hpaths]
  have hsound := h.sound hm
  have hsound' := h'.sound hm
  have hsize : s.size = s'.size := by
    rw [hsound.size_eq (fun k => List.mem_append), hsound'.size_eq]
    intro k
    rw [List.mem_append, hkeys]
  have hsize' : s'.size = (m.loadAll read paths).size := by
    rw [Sharing.size, hempty, hmapper]
    rfl
  refine ⟨hsize.trans hsize', ?_⟩
  have hreads := hsound.size_finished hm hf
  have hreads' := hsound'.size_finished hm hf'
  rw [← hmapper, hsound.counted, hsound'.counted]
  omega

/-! ## Mappers that keep the same lines -/

theorem loadAll_of_kept (read : Reader) (h : ∀ p ∈ paths, (m.lines? p).isSome = true) : m.loadAll read paths = m := by
  induction paths with
  | nil => rfl
  | cons p paths ih =>
      obtain ⟨hp, hpaths⟩ := List.forall_mem_cons.mp h
      obtain ⟨ix, hix⟩ := Option.isSome_iff_exists.mp hp
      have hload : m.load read p = m := by simp only [load, hix]
      show (m.load read p).loadAll read paths = m
      rw [hload]
      exact ih hpaths

/-- A file whose lines are kept is not read. -/
theorem load_congr {read' : Reader} {base : Path} (hbase : (m.lines? base).isSome = true)
    (h : ∀ p, p.same base = false → read p = read' p) (p : Path) : m.load read p = m.load read' p := by
  unfold load
  cases hlines : m.lines? p with
  | some ix => rfl
  | none =>
      have hother : p.same base = false := by
        cases hsame : p.same base with
        | false => rfl
        | true =>
            rw [← lines?_congr m hsame, hlines] at hbase
            cases hbase
      rw [h p hother]

theorem loadAll_congr {read' : Reader} {base : Path} (hbase : (m.lines? base).isSome = true)
    (h : ∀ p, p.same base = false → read p = read' p) (paths : List Path) : m.loadAll read paths = m.loadAll read' paths := by
  induction paths generalizing m with
  | nil => rfl
  | cons p paths ih =>
      show (m.load read p).loadAll read paths = (m.load read' p).loadAll read' paths
      rw [← load_congr hbase h p]
      exact ih (isSome_lines?_of_load hbase read p)

end Mapper

/-! ## Analyses -/

namespace Analysis

open Mapper (Agrees)
open Preprocess (Preprocessed)

variable {subject : Subject} {frame : Frame} {m m' : Mapper} {read read' : Reader} {pre : Preprocessed}
  {outcome : Except Failure (List Finding × List (Variable Span))}

theorem placeSpan_congr {span : Span} (h : ∀ p ∈ frame.filesOf span, m.lines? p = m'.lines? p) :
    frame.placeSpan m span = frame.placeSpan m' span := by
  have hstart := h (frame.target span.start).1 (by simp [Frame.filesOf])
  have hstop := h (frame.target span.stop).1 (by simp [Frame.filesOf])
  simp only [Frame.placeSpan, Frame.place, Mapper.position, hstart, hstop]

theorem placeFinding_congr {f : Finding} (h : ∀ p ∈ frame.filesOf f.place, m.lines? p = m'.lines? p) :
    subject.placeFinding frame m f = subject.placeFinding frame m' f := by
  simp only [Subject.placeFinding, placeSpan_congr h]

theorem placeVariable_congr {x : Variable Span}
    (h : ∀ span ∈ x.definitions ++ x.usages, ∀ p ∈ frame.filesOf span, m.lines? p = m'.lines? p) :
    subject.placeVariable frame m x = subject.placeVariable frame m' x := by
  have hplaces : ∀ span ∈ x.definitions ++ x.usages, frame.placeSpan m span = frame.placeSpan m' span :=
    fun span hspan => placeSpan_congr (h span hspan)
  simp only [Subject.placeVariable, Variable.mk.injEq, true_and]
  constructor
  · refine List.map_congr_left ?_
    intro span hspan
    rw [hplaces span (List.mem_append_left _ hspan)]
  · refine List.filterMap_congr ?_
    intro span hspan
    rw [hplaces span (List.mem_append_right _ hspan)]

theorem map_place_congr {findings : List Finding} {vars : List (Variable Span)}
    (h : ∀ p ∈ filesOf frame findings vars, m.lines? p = m'.lines? p) :
    findings.map (subject.placeFinding frame m) = findings.map (subject.placeFinding frame m') ∧
      vars.map (subject.placeVariable frame m) = vars.map (subject.placeVariable frame m') := by
  constructor
  · refine List.map_congr_left ?_
    intro f hf
    refine placeFinding_congr ?_
    intro p hp
    exact h p (List.mem_append_left _ (List.mem_flatMap.mpr ⟨f, hf, hp⟩))
  · refine List.map_congr_left ?_
    intro x hx
    refine placeVariable_congr ?_
    intro span hspan p hp
    refine h p (List.mem_append_right _ (List.mem_flatMap.mpr ⟨x, hx, ?_⟩))
    exact List.mem_flatMap.mpr ⟨span, hspan, hp⟩

theorem groupMacros_congr (h : ∀ p ∈ pre.macros.map (·.file), m.lines? p = m'.lines? p) :
    groupMacros frame m pre.macros = groupMacros frame m' pre.macros := by
  have hplace : ∀ r ∈ pre.macros, placeMacro frame m r = placeMacro frame m' r := by
    intro r hr
    have hspan := @placeSpan_congr { frame with direct := some r.file } m m' (nameSpan r) (by
      intro p hp
      have hfile : p = r.file := by simpa [Frame.filesOf, Frame.target] using hp
      exact hfile ▸ h r.file (List.mem_map_of_mem hr))
    simp only [placeMacro, hspan]
  rw [groupMacros, groupMacros]
  congr 1
  refine List.foldl_ext _ _ _ ?_
  intro found r hr
  rw [hplace r hr]

/-- The files that an analysis looks up once its document is preprocessed. -/
def files (base : Path) (pre : Preprocessed) (outcome : Except Failure (List Finding × List (Variable Span))) : List Path :=
  let frame : Frame := { map := pre.map, base }
  pre.macros.map (·.file) ++
    match outcome with
    | .error e => (e.offset.map fun offset => (frame.target offset).1).toList
    | .ok (found, vars) => filesOf frame (pre.errors ++ found) vars

theorem placeFailure_kept {e : Failure} (read' : Reader)
    (h : ∀ offset, e.offset = some offset → m'.lines? (frame.target offset).1 =
      (m.load read (frame.target offset).1).lines? (frame.target offset).1) :
    subject.placeFailure frame read' m' e = ((subject.placeFailure frame read m e).1, m') := by
  obtain ⟨message, offset⟩ := e
  cases offset with
  | none => rfl
  | some offset =>
      have hlines := h offset rfl
      obtain ⟨ix, hix⟩ := Option.isSome_iff_exists.mp (Mapper.isSome_lines?_load read m (frame.target offset).1)
      rw [hix] at hlines
      have hload : m'.load read' (frame.target offset).1 = m' := by simp only [Mapper.load, hlines]
      simp only [Subject.placeFailure, hload, Frame.place, Mapper.position, hlines, hix]

theorem mapper_placeFailure (e : Failure) :
    (subject.placeFailure frame read m e).2 =
      m.loadAll read (e.offset.map fun offset => (frame.target offset).1).toList := by
  obtain ⟨message, offset⟩ := e
  cases offset <;> rfl

/-- If the lines of all its files are kept, an analysis reads nothing, and reports what it reports with the reader
they came from. -/
theorem report_of_kept (read' : Reader) (hagrees : Agrees read (files subject.base pre outcome))
    (hkept : ∀ p ∈ files subject.base pre outcome, m'.lines? p = some (m.source read p))
    (hreads : m'.reads = (m.loadAll read (files subject.base pre outcome)).reads) :
    report subject read' m' pre outcome = report subject read m pre outcome := by
  let frame : Frame := { map := pre.map, base := subject.base }
  let macroFiles := pre.macros.map (·.file)
  have hsub : macroFiles ⊆ files subject.base pre outcome := List.subset_append_left ..
  have hsome : ∀ p ∈ files subject.base pre outcome, (m'.lines? p).isSome = true := by
    intro p hp
    rw [hkept p hp]
    rfl
  have hlines : ∀ p ∈ files subject.base pre outcome,
      m'.lines? p = (m.loadAll read (files subject.base pre outcome)).lines? p := by
    intro p hp
    rw [hkept p hp, Mapper.lines?_loadAll_of_agrees hagrees hp]
  have hmacros : groupMacros frame m' pre.macros = groupMacros frame (m.loadAll read macroFiles) pre.macros := by
    refine groupMacros_congr ?_
    intro p hp
    rw [hkept p (hsub hp), Mapper.lines?_loadAll_of_agrees (hagrees.mono hsub) hp]
  have hmapper : m'.loadAll read' macroFiles = m' := Mapper.loadAll_of_kept read' fun p hp => hsome p (hsub hp)
  cases outcome with
  | error e =>
      have hm : (subject.placeFailure frame read (m.loadAll read macroFiles) e).2 =
          m.loadAll read (files subject.base pre (.error e)) := by
        rw [mapper_placeFailure, Mapper.loadAll_loadAll]
        rfl
      have herror : subject.placeFailure frame read' m' e =
          ((subject.placeFailure frame read (m.loadAll read macroFiles) e).1, m') := by
        refine placeFailure_kept read' ?_
        intro offset hoffset
        have hfiles : files subject.base pre (.error e) = macroFiles ++ [(frame.target offset).1] := by
          simp only [files, hoffset]
          rfl
        rw [hlines _ (by simp [hfiles]), hfiles, ← Mapper.loadAll_loadAll]
        rfl
      simp only [report]
      rw [hmapper, hmacros, herror, hm, hreads]
  | ok result =>
      obtain ⟨found, vars⟩ := result
      have hm : (m.loadAll read macroFiles).loadAll read (filesOf frame (pre.errors ++ found) vars) =
          m.loadAll read (files subject.base pre (.ok (found, vars))) := Mapper.loadAll_loadAll ..
      have hm' : m'.loadAll read' (filesOf frame (pre.errors ++ found) vars) = m' :=
        Mapper.loadAll_of_kept read' fun p hp => hsome p (List.mem_append_right _ hp)
      obtain ⟨hfindings, hvars⟩ := @map_place_congr subject frame m' _ (pre.errors ++ found) vars fun p hp =>
        hlines p (List.mem_append_right _ hp)
      simp only [report]
      rw [hmapper, hm', hmacros, hm, hfindings, hvars, hreads]

/-! ## The document is not read -/

section

variable {base : Path} (hbase : (m.lines? base).isSome = true) (h : ∀ p, p.same base = false → read p = read' p)
include hbase h

theorem placeFailure_congr (e : Failure) : subject.placeFailure frame read m e = subject.placeFailure frame read' m e := by
  obtain ⟨message, offset⟩ := e
  cases offset with
  | none => rfl
  | some offset => simp only [Subject.placeFailure, Mapper.load_congr hbase h]

theorem report_congr : report subject read m pre outcome = report subject read' m pre outcome := by
  have hmacros := Mapper.loadAll_congr hbase h (pre.macros.map (·.file))
  have hheld : ((m.loadAll read' (pre.macros.map (·.file))).lines? base).isSome = true :=
    Mapper.isSome_lines?_loadAll (Or.inr hbase)
  cases outcome with
  | error e => simp only [report, hmacros, placeFailure_congr hheld h]
  | ok result => simp only [report, hmacros, Mapper.loadAll_congr hheld h]

end

theorem isSome_lines?_document (uri : Uri) (text : List Char) :
    ((Mapper.preload {} uri.toPath text).lines? uri.toPath).isSome = true := by
  rw [Mapper.lines?_preload, if_pos (Path.same_refl _)]
  rfl

theorem reads_of_failed {Token Tree : Type} {f : Frontend Token Tree} {settings : Settings} {uri : Uri} {text : List Char}
    {e : Failure} (h : f.preprocess (Include.resolver settings.includePrefixes read) uri.toPath text = .error e) :
    (analyze f settings read uri text).reads = 0 := by
  simp only [analyze, h, mapper_placeFailure]
  rw [Mapper.loadAll_of_kept]
  · rfl
  · intro p hp
    obtain ⟨offset, -, rfl⟩ := Option.map_eq_some_iff.mp (Option.mem_toList.mp hp)
    exact isSome_lines?_document uri text

/-- Once a document is preprocessed, what its path can be read as plays no part in the analysis. -/
theorem analyze_congr {Token Tree : Type} {f : Frontend Token Tree} {settings : Settings} {uri : Uri} {text : List Char}
    (h : ∀ p, p.same uri.toPath = false → read p = read' p)
    (hpre : f.preprocess (Include.resolver settings.includePrefixes read) uri.toPath text =
      f.preprocess (Include.resolver settings.includePrefixes read') uri.toPath text) :
    analyze f settings read uri text = analyze f settings read' uri text := by
  have hbase := isSome_lines?_document uri text
  simp only [analyze, hpre]
  split
  · simp only [placeFailure_congr hbase h]
  · exact report_congr hbase h

end Analysis

namespace Mapper

open Analysis (Subject)
open Preprocess (Preprocessed)

/-- An analysis reports what the lines give that its lookups have found, without any further read. -/
theorem Run.analyze_eq {moves : List Move} {s : Sharing} {read : Reader} {Token Tree : Type} {f : Frontend Token Tree}
    {settings : Settings} {uri : Uri} {text : List Char} {pre : Preprocessed} (h : Run (preloadAll [(uri.toPath, text)]) moves s)
    (hf : s.Finished) (hread : AnsweredBy read moves)
    (hagrees : Agrees read ((entered moves).map Lookup.path))
    (hpre : f.preprocess (Include.resolver settings.includePrefixes read) uri.toPath text = .ok pre)
    (hfiles : ∀ p, p ∈ (entered moves).map Lookup.path ↔ p ∈ Analysis.files uri.toPath pre (f.examine pre.code))
    (read' : Reader) :
    Analysis.analyze f settings read uri text = Analysis.report ⟨uri, uri.toPath⟩ read' s.mapper pre (f.examine pre.code) := by
  have hnodup := nodup_keys_preloadAll [(uri.toPath, text)]
  have hs := h.sound hnodup
  have hanalyze : Analysis.analyze f settings read uri text =
      Analysis.report ⟨uri, uri.toPath⟩ read (preloadAll [(uri.toPath, text)]) pre (f.examine pre.code) := by
    simp only [Analysis.analyze, hpre]
    rfl
  rw [hanalyze, eq_comm]
  refine Analysis.report_of_kept read' (hagrees.mono fun p hp => (hfiles p).mpr hp) ?_ ?_
  · intro p hp
    obtain ⟨l, hl, rfl⟩ := List.mem_map.mp ((hfiles p).mpr hp)
    obtain ⟨ix, ht⟩ := hs.done_of_finished hf hl
    rw [← hs.source_done hread hagrees ht]
    exact hs.fits _ ht
  · exact (h.counts_eq_loadAll hnodup hf read hfiles).2

/-! ## What sharing promises -/

/-- Under a reader that says the same of all paths to a file, the other lookups and their turns play no part. -/
structure Independent (texts : List (Path × List Char)) (read : Reader) (moves : List Move) (s : Sharing) : Prop where
  lookup : ∀ l ix, ⟨l, .done ix⟩ ∈ s.tasks → (l.frame.lookup read (preloadAll texts) [l.offset]).1 = [l.place ix]
  /-- Two lookups for the ends of a span. -/
  span : ∀ (f : Frame) (span : Span) (ix ix' : LineIndex),
    let start : Lookup := ⟨f, span.start⟩
    let stop : Lookup := ⟨f, span.stop⟩
    ⟨start, .done ix⟩ ∈ s.tasks → ⟨stop, .done ix'⟩ ∈ s.tasks →
      (f.lookupSpan read (preloadAll texts) span).1 = (start.path, ⟨(start.place ix).2, (stop.place ix').2⟩)
  counts : s.Finished →
    let inTurn := (preloadAll texts).loadAll read ((entered moves).map Lookup.path)
    (readsIn moves).length = inTurn.reads ∧ s.size = inTurn.size

/-- What lookups with the document at hand mean for its analysis. -/
structure ServesAnalysis (texts : List (Path × List Char)) (moves : List Move) (s : Sharing) {Token Tree : Type}
    (f : Frontend Token Tree) (settings : Settings) (uri : Uri) (text : List Char) (read : Reader) : Prop where
  /-- The report is that of the lines which the lookups have found, with no further read. -/
  report : ∀ pre, texts = [(uri.toPath, text)] → s.Finished → AnsweredBy read moves →
    Agrees read ((entered moves).map Lookup.path) →
    f.preprocess (Include.resolver settings.includePrefixes read) uri.toPath text = .ok pre →
    (∀ p, p ∈ (entered moves).map Lookup.path ↔ p ∈ Analysis.files uri.toPath pre (f.examine pre.code)) →
    ∀ read', Analysis.analyze f settings read uri text =
      Analysis.report ⟨uri, uri.toPath⟩ read' s.mapper pre (f.examine pre.code)
  /-- A document that is not preprocessed costs no read. -/
  failed : ∀ e, f.preprocess (Include.resolver settings.includePrefixes read) uri.toPath text = .error e →
    (Analysis.analyze f settings read uri text).reads = 0
  /-- Once the document is preprocessed, what the reader says of it plays no part. -/
  document : ∀ read', (∀ p, p.same uri.toPath = false → read p = read' p) →
    f.preprocess (Include.resolver settings.includePrefixes read) uri.toPath text =
      f.preprocess (Include.resolver settings.includePrefixes read') uri.toPath text →
    Analysis.analyze f settings read uri text = Analysis.analyze f settings read' uri text

section

variable {texts : List (Path × List Char)} {read : Reader} {moves : List Move} {s : Sharing} {l : Lookup}
  (h : Run (preloadAll texts) moves s)
include h

/-- A lookup gives what it gives after the same reads, one after the other. -/
theorem Run.place_done (hread : AnsweredBy read moves) {ix : LineIndex} (ht : ⟨l, .done ix⟩ ∈ s.tasks) :
    l.place ix = l.frame.place ((preloadAll texts).loadAll read (readsIn moves)) l.offset := by
  have hlines := (h.sound (nodup_keys_preloadAll texts)).lines?_reads hread ht
  show _ = (l.path, position _ l.path _)
  rw [position, hlines]
  rfl

theorem Run.independent (hread : AnsweredBy read moves) (hagrees : Agrees read ((entered moves).map Lookup.path)) :
    Independent texts read moves s := by
  have hnodup := nodup_keys_preloadAll texts
  have hs := h.sound hnodup
  constructor
  · intro l ix ht
    rw [hs.source_done hread hagrees ht]
    exact lookup_source ..
  · intro f span ix ix' start stop ht ht'
    rw [hs.source_done hread hagrees ht, hs.source_done hread hagrees ht']
    refine lookupSpan_source (hagrees.mono ?_)
    intro p hp
    rcases List.mem_pair.mp hp with rfl | rfl
    · exact List.mem_map_of_mem (hs.entered_of_task ht)
    · exact List.mem_map_of_mem (hs.entered_of_task ht')
  · intro hf inTurn
    obtain ⟨hsize, hreads⟩ := h.counts_eq_loadAll hnodup hf read fun _ => Iff.rfl
    rw [hs.counted, reads_preloadAll, Nat.zero_add] at hreads
    exact ⟨hreads, hsize⟩

theorem Run.servesAnalysis {Token Tree : Type} (f : Frontend Token Tree) (settings : Settings) (uri : Uri)
    (text : List Char) (read : Reader) : ServesAnalysis texts moves s f settings uri text read where
  report := by
    rintro pre rfl hf hread hagrees hpre hfiles read'
    exact h.analyze_eq hf hread hagrees hpre hfiles read'
  failed _ hpre := Analysis.reads_of_failed hpre
  document _ hothers hpre := Analysis.analyze_congr hothers hpre

end

/-- Let texts be preloaded and then lookups share the mapper, in whichever order they begin and go on, and whatever is
answered to their reads. Files are read once, and lookups come to an end. If a reader gives the answers, a lookup gives
what it gives after the same reads, one after the other; and if the reader says the same of all paths to a file, what
it gives alone. An analysis with its document at hand needs the lines that its lookups have found, and nothing else. -/
theorem lookups_share_reads {texts : List (Path × List Char)} {moves : List Move} {s : Sharing}
    (h : Run (preloadAll texts) moves s) :
    ReadOnce texts moves s ∧ Unhindered moves s ∧
    (∀ read : Reader, AnsweredBy read moves →
      (∀ l ix, ⟨l, .done ix⟩ ∈ s.tasks →
        l.place ix = l.frame.place ((preloadAll texts).loadAll read (readsIn moves)) l.offset) ∧
      (Agrees read ((entered moves).map Lookup.path) → Independent texts read moves s)) ∧
    ∀ (Token Tree : Type) (f : Frontend Token Tree) (settings : Settings) (uri : Uri) (text : List Char) (read : Reader),
      ServesAnalysis texts moves s f settings uri text read := by
  refine ⟨h.readOnce, h.unhindered (nodup_keys_preloadAll texts), ?_, ?_⟩
  · intro read hread
    exact ⟨fun l ix ht => h.place_done hread ht, h.independent hread⟩
  · intro Token Tree f settings uri text read
    exact h.servesAnalysis f settings uri text read

def inFile (file : String) (offset : Nat) : Lookup := .direct (.ofText file) offset

def memoryTexts : List (Path × List Char) := [(.ofText "/a.sqf", "in\nmemory".toList)]

def diskTexts : MemoryFiles := [(.ofText "/b.hpp", "x\ny".toList)]

/-- Two lookups of a file, under paths that are written differently. The document is looked up while it is read. -/
def interleaved : List Move :=
  [.enter (inFile "/b.hpp" 2), .enter (inFile "//b.hpp" 2), .read (.ofText "/b.hpp"), .enter (inFile "/a.sqf" 4),
    .take (.ofText "/a.sqf"), .answer (.ofText "/b.hpp") (diskTexts.read (.ofText "/b.hpp")), .take (.ofText "//b.hpp")]

theorem run_interleaved :
    ∃ s, Run (preloadAll memoryTexts) interleaved s ∧
      s.tasks = [⟨inFile "/b.hpp" 2, .done (linesOf (diskTexts.read (.ofText "/b.hpp")))⟩,
        ⟨inFile "//b.hpp" 2, .done (.ofText "x\ny".toList)⟩, ⟨inFile "/a.sqf" 4, .done (.ofText "in\nmemory".toList)⟩] := by
  have h0 : Run (preloadAll memoryTexts) [] _ := .nil
  have h1 := h0.step (.enter (inFile "/b.hpp" 2))
  have h2 := h1.step (.enter (inFile "//b.hpp" 2))
  have h3 := h2.step (@Step.read _ [] [_] (inFile "/b.hpp" 2) rfl (by decide +kernel) (by decide +kernel))
  have h4 := h3.step (.enter (inFile "/a.sqf" 4))
  have h5 := h4.step (@Step.take _ [_, _] [] (inFile "/a.sqf" 4) (.ofText "in\nmemory".toList) rfl (by decide +kernel))
  have h6 := h5.step (@Step.answer _ [] _ (inFile "/b.hpp" 2) rfl (diskTexts.read (.ofText "/b.hpp")))
  have h7 := h6.step (@Step.take _ [_] [_] (inFile "//b.hpp" 2) (.ofText "x\ny".toList) rfl (by decide +kernel))
  exact ⟨_, h7, rfl⟩

theorem one_read_for_two_paths :
    ∃ s, Run (preloadAll memoryTexts) interleaved s ∧ (readsIn interleaved).length = 1 ∧ s.size = 2 ∧
      (∀ t ∈ memoryTexts, ∀ p ∈ readsIn interleaved, t.1.same p = false) ∧
      ((inFile "//b.hpp" 2).frame.lookup diskTexts.read (preloadAll memoryTexts) [2]).1 = [(.ofText "//b.hpp", ⟨1, 0⟩)] := by
  obtain ⟨s, hrun, htasks⟩ := run_interleaved
  obtain ⟨honce, -, hfixed, -⟩ := lookups_share_reads hrun
  have hindependent := (hfixed diskTexts.read (by simp [AnsweredBy, interleaved, answersIn, Move.answer?])).2
    (by decide +kernel)
  refine ⟨s, hrun, rfl, honce.size.trans (by decide +kernel), honce.unread, ?_⟩
  refine (hindependent.lookup (inFile "//b.hpp" 2) (.ofText "x\ny".toList) (by simp [htasks])).trans ?_
  decide +kernel

end Mapper

end SqfIndex
