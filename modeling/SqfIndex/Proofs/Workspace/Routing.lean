import Mathlib.Data.String.Basic
import SqfIndex.Proofs.Analysis.Targets
import SqfIndex.Workspace.Publish

/-!
# Diagnostics by file

What an analysis publishes, file by file: `mem_publications` says for which files and with what, and
`publications_exact` also in which order.
-/

namespace SqfIndex.Workspace

open Std (ExtTreeMap)

/-! ## Sheets as a list of notes -/

theorem touch_eq_note (sheets : Sheets) (u : Uri) : touch sheets u = note sheets u [] := by
  simp [touch, note]

theorem getElem?_note (sheets : Sheets) (u : Uri) (ds : List Diagnostic) (f : Uri) :
    (note sheets u ds)[f]? = if u = f then some ((sheets[f]?).getD [] ++ ds) else sheets[f]? := by
  unfold note
  rw [ExtTreeMap.getElem?_alter]
  by_cases h : u = f
  · subst h; simp
  · simp [h]

/-- Files with diagnostics to add to theirs, one after the other. -/
def noteAll (sheets : Sheets) (entries : List (Uri × List Diagnostic)) : Sheets :=
  entries.foldl (fun sheets e => note sheets e.1 e.2) sheets

theorem mem_noteAll (sheets : Sheets) (entries : List (Uri × List Diagnostic)) (f : Uri) :
    f ∈ noteAll sheets entries ↔ f ∈ sheets ∨ f ∈ entries.map (·.1) := by
  induction entries generalizing sheets with
  | nil => simp [noteAll]
  | cons e entries ih =>
      have hnote : f ∈ note sheets e.1 e.2 ↔ f ∈ sheets ∨ f = e.1 := by
        rw [ExtTreeMap.mem_iff_isSome_getElem?, getElem?_note, ExtTreeMap.mem_iff_isSome_getElem?]
        by_cases h : e.1 = f
        · simp [h]
        · simp [h, Ne.symm h]
      have hrest := ih (note sheets e.1 e.2)
      rw [hnote, or_assoc, ← List.mem_cons] at hrest
      exact hrest

theorem getD_noteAll (sheets : Sheets) (entries : List (Uri × List Diagnostic)) (f : Uri) :
    ((noteAll sheets entries)[f]?).getD [] = (sheets[f]?).getD [] ++ (entries.filter (·.1 = f)).flatMap (·.2) := by
  induction entries generalizing sheets with
  | nil => simp [noteAll]
  | cons e entries ih =>
      have hrest := ih (note sheets e.1 e.2)
      rw [getElem?_note] at hrest
      by_cases h : e.1 = f <;> simpa [noteAll, h] using hrest

/-! ## What is routed to a file -/

/-- The diagnostics that belong to a file. -/
def notesFor (ps : List Placed) (f : Uri) : List Diagnostic := (ps.filter (·.uri = f)).map (·.diagnostic)

/-- What an analysis has to say about a file. The warnings about undefined globals go to the document. -/
def routed (settings : Settings) (uri : Uri) (r : Report) (undefined : List Diagnostic) (f : Uri) : List Diagnostic :=
  notesFor r.errors f ++
    if settings.warnings then notesFor r.warnings f ++ if uri = f then undefined else [] else []

def entriesOf (settings : Settings) (uri : Uri) (r : Report) (undefined : List Diagnostic) : List (Uri × List Diagnostic) :=
  let known := (uri, []) :: r.targets.map (·, [])
  let errors := r.errors.map fun p => (p.uri, [p.diagnostic])
  let warnings := r.warnings.map (fun p => (p.uri, [p.diagnostic])) ++ [(uri, undefined)]
  known ++ errors ++ if settings.warnings then warnings else []

variable {settings : Settings} {uri : Uri} {r : Report} {undefined : List Diagnostic}

theorem sheetsOf_eq : sheetsOf settings uri r undefined = noteAll ∅ (entriesOf settings uri r undefined) := by
  have htouch : touch = fun sheets u => note sheets u [] := by
    funext sheets u
    exact touch_eq_note sheets u
  unfold sheetsOf entriesOf noteAll
  rw [htouch]
  cases settings.warnings <;> simp [List.foldl_append, List.foldl_map, Report.targets]

theorem flatMap_notes (ps : List Placed) (f : Uri) :
    ((ps.map fun p => (p.uri, [p.diagnostic])).filter (·.1 = f)).flatMap (·.2) = notesFor ps f := by
  induction ps with
  | nil => rfl
  | cons p ps ih => by_cases h : p.uri = f <;> simp_all [notesFor]

theorem getD_sheetsOf (f : Uri) : ((sheetsOf settings uri r undefined)[f]?).getD [] = routed settings uri r undefined f := by
  -- making a file known notes nothing about it
  have hknown : (((uri, []) :: r.targets.map (·, [])).filter (·.1 = f)).flatMap (·.2) = ([] : List Diagnostic) := by
    rw [List.flatMap_eq_nil_iff]
    intro e he
    rcases List.mem_cons.mp (List.mem_filter.mp he).1 with rfl | he
    · rfl
    · obtain ⟨u, -, rfl⟩ := List.mem_map.mp he
      rfl
  rw [sheetsOf_eq, getD_noteAll]
  unfold entriesOf routed
  simp only [List.filter_append, List.flatMap_append, hknown, flatMap_notes]
  cases settings.warnings with
  | false => simp
  | true => by_cases h : uri = f <;> simp [List.filter_append, flatMap_notes, h]

theorem mem_sheetsOf {f : Uri} :
    f ∈ sheetsOf settings uri r undefined ↔
      f = uri ∨ f ∈ r.targets ∨ f ∈ r.errors.map (·.uri) ∨ settings.warnings = true ∧ f ∈ r.warnings.map (·.uri) := by
  rw [sheetsOf_eq, mem_noteAll]
  unfold entriesOf
  cases settings.warnings with
  | false => simp [Function.comp_def]
  | true =>
      simp only [List.map_append, List.map_cons, List.map_map, Function.comp_def, List.mem_append, List.mem_cons,
        List.map_id', ↓reduceIte, ExtTreeMap.not_mem_empty, List.map_nil, List.not_mem_nil]
      tauto

theorem getElem?_sheetsOf {f : Uri} {ds : List Diagnostic} :
    (sheetsOf settings uri r undefined)[f]? = some ds ↔
      f ∈ sheetsOf settings uri r undefined ∧ ds = routed settings uri r undefined f := by
  rw [ExtTreeMap.mem_iff_isSome_getElem?, ← getD_sheetsOf]
  cases (sheetsOf settings uri r undefined)[f]? <;> simp [eq_comm]

theorem mem_publications (p : Publication) :
    p ∈ publications settings uri r undefined ↔
      p.uri ∈ sheetsOf settings uri r undefined ∧ p.diagnostics = routed settings uri r undefined p.uri := by
  obtain ⟨f, ds⟩ := p
  unfold publications
  rw [List.mem_cons, List.mem_map, getD_sheetsOf]
  constructor
  · rintro (h | ⟨⟨u, ds'⟩, hmem, h⟩)
    · cases h
      exact ⟨mem_sheetsOf.mpr (Or.inl rfl), rfl⟩
    · cases h
      rw [ExtTreeMap.mem_toList_iff_getElem?_eq_some, ExtTreeMap.getElem?_erase] at hmem
      split at hmem
      · cases hmem
      · exact getElem?_sheetsOf.mp hmem
  · intro hp
    by_cases h : uri = f
    · subst h
      exact Or.inl (congrArg (Publication.mk uri) hp.2)
    · refine Or.inr ⟨(f, ds), ?_, rfl⟩
      rw [ExtTreeMap.mem_toList_iff_getElem?_eq_some, ExtTreeMap.getElem?_erase]
      simpa [h] using getElem?_sheetsOf.mpr hp

/-! ## The order of publications -/

theorem uris_publications :
    (publications settings uri r undefined).map (·.uri) =
      uri :: ((sheetsOf settings uri r undefined).erase uri).toList.map (·.1) := by
  unfold publications
  rw [List.map_cons, List.map_map]
  rfl

theorem uris_toList_increasing (sheets : Sheets) : (sheets.toList.map (·.1)).Pairwise (· < ·) := by
  rw [List.pairwise_map]
  refine ExtTreeMap.ordered_keys_toList.imp ?_
  intro a b hlt
  exact compare_lt_iff_lt.mp hlt

theorem notMem_uris_erase (sheets : Sheets) (u : Uri) : u ∉ (sheets.erase u).toList.map (·.1) := by
  intro hmem
  obtain ⟨⟨u', ds⟩, hentry, rfl⟩ := List.mem_map.mp hmem
  rw [ExtTreeMap.mem_toList_iff_getElem?_eq_some, ExtTreeMap.getElem?_erase_self] at hentry
  cases hentry

/-- The document comes first and then the other files, in the order of their addresses and each of them once.
Published are the document, the included files that have an address and the files with diagnostics that are to
be seen. What is published for a file are its errors, and after them, if warnings are to be seen, its warnings
and at last, for the document, those about undefined globals. -/
theorem publications_exact (settings : Settings) (uri : Uri) (r : Report) (undefined : List Diagnostic) :
    let published := publications settings uri r undefined
    let files := published.map (·.uri)
    files.head? = some uri ∧ files.tail.Pairwise (· < ·) ∧ files.Nodup ∧
    (∀ f, f ∈ files ↔
      f = uri ∨ (∃ i ∈ r.includes, Uri.ofPath? i.path = some f) ∨ (∃ p ∈ r.errors, p.uri = f) ∨
        settings.warnings = true ∧ ∃ p ∈ r.warnings, p.uri = f) ∧
    ∀ p ∈ published, p.diagnostics =
      (r.errors.filter (·.uri = p.uri)).map (·.diagnostic) ++
        if settings.warnings then
          (r.warnings.filter (·.uri = p.uri)).map (·.diagnostic) ++ if p.uri = uri then undefined else []
        else [] := by
  intro published files
  have hfiles : files = uri :: ((sheetsOf settings uri r undefined).erase uri).toList.map (·.1) := uris_publications
  have hincreasing := uris_toList_increasing ((sheetsOf settings uri r undefined).erase uri)
  refine ⟨?_, ?_, ?_, ?_, ?_⟩
  · rw [hfiles]; rfl
  · rw [hfiles]; exact hincreasing
  · rw [hfiles, List.nodup_cons]
    exact ⟨notMem_uris_erase _ uri, hincreasing.imp ne_of_lt⟩
  · intro f
    have hmem : f ∈ files ↔ f ∈ sheetsOf settings uri r undefined := by
      constructor
      · intro hf
        obtain ⟨p, hp, rfl⟩ := List.mem_map.mp hf
        exact ((mem_publications p).mp hp).1
      · intro hf
        have hp := (mem_publications ⟨f, routed settings uri r undefined f⟩).mpr ⟨hf, rfl⟩
        exact List.mem_map_of_mem hp
    rw [hmem, mem_sheetsOf, Report.targets]
    simp only [List.mem_filterMap, List.mem_map]
  · intro p hp
    rw [((mem_publications p).mp hp).2, routed, notesFor, notesFor]
    simp only [eq_comm (a := uri)]

end SqfIndex.Workspace
