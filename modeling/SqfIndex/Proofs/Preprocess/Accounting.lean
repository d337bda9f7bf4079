import SqfIndex.Proofs.Preprocess.Placement
import SqfIndex.Proofs.Preprocess.Trace

/-!
# Every include is accounted for

`Runs` tells what is done with the chunks of a text that is so many includes deep, rule by rule: the depth goes
up with every include, and nothing bounds it but the limit that an include is held against. Every text runs in
exactly one way, which is that of the preprocessor (`runs_work`, `Runs.unique`), however the files include one
another. Along a run each include directive that is met leaves exactly one piece that records or refuses it
(`Runs.filter_asks`), so that `includes_accounted` can be read off the pieces.
-/

namespace SqfIndex.Preprocess

open Text (width StandsAt)

/-! ## Runs -/

section

variable (r : Resolver)

/-- The answer to a request of a text that is `depth` includes deep, and the files that are loaded for it. -/
inductive Answered (depth : Nat) (file : Path) (requested : List Char) :
    List Path → Except IncludeError (Path × List Char) → Prop
  | tooDeep : depthLimit < depth + 1 → Answered depth file requested [] (.error (.tooDeep depthLimit))
  | empty : depth + 1 ≤ depthLimit → requested = [] → Answered depth file requested [] (.error .empty)
  | unresolved {e : IncludeError} : depth + 1 ≤ depthLimit → requested ≠ [] →
      r.resolve (String.ofList requested) file = .error e → Answered depth file requested [] (.error e)
  | unread {path : Path} {e : IncludeError} : depth + 1 ≤ depthLimit → requested ≠ [] →
      r.resolve (String.ofList requested) file = .ok path → r.load path = .error e →
      Answered depth file requested [path] (.error e)
  | read {path : Path} {t : List Char} : depth + 1 ≤ depthLimit → requested ≠ [] →
      r.resolve (String.ofList requested) file = .ok path → r.load path = .ok t →
      Answered depth file requested [path] (.ok (path, t))

/-- An include directive that is met, with what comes of it. -/
structure Meeting where
  depth : Nat
  file : Path
  offset : Nat
  directive : List Char
  requested : List Char
  /-- The files that are loaded for it. -/
  loads : List Path
  answer : Except IncludeError (Path × List Char)

/-- What happens while a document is worked off, as far as includes go. -/
inductive Event
  | processed (depth : Nat) (file : Path) (text : List Char)
  | met (m : Meeting)

/-- A file is within the limit, and a request has its answer. -/
def Event.Sound : Event → Prop
  | processed depth _ _ => depth ≤ depthLimit
  | met m => readCommand m.file m.offset m.directive = .fetch m.requested ∧
      Answered r m.depth m.file m.requested m.loads m.answer

/-- The chunks `cs` from `offset` on, of a text of `file` that is `depth` includes deep, become the pieces `ps` while
the events `es` happen, and the macros `ms` turn into `ms'`. -/
inductive Runs : (depth : Nat) → (file : Path) → (offset : Nat) → (cs : List Chunk) → (ms : Macros) →
    (es : List Event) → (ps : List Piece) → (ms' : Macros) → Prop
  | done {depth file offset ms} : Runs depth file offset [] ms [] [] ms
  | code {depth file offset line cs ms es ps ms'} :
      Runs depth file (offset + width line) cs ms es ps ms' →
      Runs depth file offset (.code line :: cs) ms es (piecesOf file offset (fragments ms line) ++ ps) ms'
  | idle {depth file offset d cs ms es ps ms'} :
      (∀ requested, readCommand file offset d ≠ .fetch requested) →
      Runs depth file (offset + width d) cs (macrosAfter file offset d ms) es ps ms' →
      Runs depth file offset (.directive d :: cs) ms es
        (.directive file offset d (effectOf r true file offset d) :: ps) ms'
  | refused {depth file offset d cs ms es ps ms' requested loads e} :
      readCommand file offset d = .fetch requested → Answered r depth file requested loads (.error e) →
      Runs depth file (offset + width d) cs ms es ps ms' →
      Runs depth file offset (.directive d :: cs) ms
        (.met ⟨depth, file, offset, d, requested, loads, .error e⟩ :: es)
        (.directive file offset d (.refused (String.ofList requested) (!loads.isEmpty) e) :: ps) ms'
  | included {depth file offset d cs ms es ps ms' es' ps' ms'' requested loads path t} :
      readCommand file offset d = .fetch requested → Answered r depth file requested loads (.ok (path, t)) →
      Runs (depth + 1) path 0 (chunks t) ms es ps ms' →
      Runs depth file (offset + width d) cs ms' es' ps' ms'' →
      Runs depth file offset (.directive d :: cs) ms
        (.met ⟨depth, file, offset, d, requested, loads, .ok (path, t)⟩ :: .processed (depth + 1) path t :: es ++ es')
        (.directive file offset d (.included (String.ofList requested) path) :: leadIn file offset d ++ ps ++
          leadOut path t ++ ps') ms''

def Processes (depth : Nat) (file : Path) (text : List Char) (ms : Macros) (es : List Event) (ps : List Piece) (ms' : Macros) :
    Prop :=
  ∃ later, es = .processed depth file text :: later ∧ Runs r depth file 0 (chunks text) ms later ps ms'

end

/-! ## Runs end, in one way -/

section

variable {r : Resolver} {depth : Nat} {file : Path} {requested : List Char}

theorem Answered.unique {loads loads' : List Path} {a a' : Except IncludeError (Path × List Char)}
    (h : Answered r depth file requested loads a) (h' : Answered r depth file requested loads' a') :
    loads = loads' ∧ a = a' := by
  cases h <;> cases h' <;> first | omega | simp_all

theorem Answered.depth_lt {loads : List Path} {found : Path × List Char}
    (h : Answered r depth file requested loads (.ok found)) : depth + 1 ≤ depthLimit := by
  cases h with
  | read hdepth => exact hdepth

theorem fetch_answered (r : Resolver) (depth : Nat) (file : Path) (requested : List Char) :
    ∃ loads, Answered r depth file requested loads ((fetch r (depth < depthLimit) file requested).mapError Prod.snd) ∧
      ∀ tried e, fetch r (depth < depthLimit) file requested = .error (tried, e) → tried = !loads.isEmpty := by
  unfold fetch
  by_cases hdepth : depth < depthLimit
  · simp only [hdepth, decide_true, Bool.not_true, Bool.false_eq_true, ↓reduceIte]
    by_cases hrequested : requested = []
    · rw [if_pos hrequested]
      exact ⟨[], .empty hdepth hrequested, by rintro _ _ ⟨⟩; rfl⟩
    · rw [if_neg hrequested]
      cases hresolve : r.resolve (String.ofList requested) file with
      | error e => exact ⟨[], .unresolved hdepth hrequested hresolve, by rintro _ _ ⟨⟩; rfl⟩
      | ok path =>
          simp only
          cases hload : r.load path with
          | error e => exact ⟨[path], .unread hdepth hrequested hresolve hload, by rintro _ _ ⟨⟩; rfl⟩
          | ok t => exact ⟨[path], .read hdepth hrequested hresolve hload, by rintro _ _ ⟨⟩⟩
  · simp only [hdepth, decide_false, Bool.not_false, ↓reduceIte]
    exact ⟨[], .tooDeep (by omega), by rintro _ _ ⟨⟩; rfl⟩

theorem directive_of_idle {enter : Option (Path → List Char → Work)} {offset : Nat} {d : List Char}
    (h : ∀ requested, readCommand file offset d ≠ .fetch requested) (ms : Macros) :
    directive r enter file offset d ms =
      ([.directive file offset d (effectOf r true file offset d)], macrosAfter file offset d ms) := by
  unfold directive effectOf macrosAfter
  cases hread : readCommand file offset d with
  | nothing => rfl
  | define m record => rfl
  | undefine name => rfl
  | fetch requested => exact absurd hread (h requested)

variable {enter : Option (Path → List Char → Work)}

/-- A directive and the rest of the text after it, where the files on the next level run. -/
theorem runs_directive (hsome : enter.isSome = decide (depth < depthLimit))
    (henter : ∀ work, enter = some work → ∀ path t ms, ∃ es,
      Runs r (depth + 1) path 0 (chunks t) ms es (work path t ms).1 (work path t ms).2)
    {offset : Nat} {d : List Char} {cs : List Chunk} {ms ms' : Macros} {es : List Event} {ps : List Piece}
    (hrest : Runs r depth file (offset + width d) cs (directive r enter file offset d ms).2 es ps ms') :
    ∃ es', Runs r depth file offset (.directive d :: cs) ms es' ((directive r enter file offset d ms).1 ++ ps) ms' := by
  by_cases hidle : ∀ requested, readCommand file offset d ≠ .fetch requested
  · rw [directive_of_idle hidle] at hrest ⊢
    exact ⟨es, .idle hidle hrest⟩
  · obtain ⟨requested, hread⟩ := not_forall_not.mp hidle
    obtain ⟨loads, hanswered, htried⟩ := fetch_answered r depth file requested
    rw [← hsome] at hanswered htried
    cases hfetch : fetch r enter.isSome file requested with
    | error refusal =>
        obtain ⟨tried, e⟩ := refusal
        have hdirective : directive r enter file offset d ms =
            ([.directive file offset d (.refused (String.ofList requested) tried e)], ms) := by
          simp only [directive, hread, hfetch]
        rw [hfetch] at hanswered
        rw [hdirective] at hrest ⊢
        rw [htried tried e hfetch]
        exact ⟨_, .refused hread hanswered hrest⟩
    | ok found =>
        obtain ⟨path, t⟩ := found
        rw [hfetch] at hanswered
        cases enter with
        | none =>
            -- without a further level nothing is fetched
            rw [Option.isSome_none, fetch] at hfetch
            cases hfetch
        | some work =>
            obtain ⟨es', hinner⟩ := henter work rfl path t ms
            have hdirective : directive r (some work) file offset d ms =
                (.directive file offset d (.included (String.ofList requested) path) :: leadIn file offset d ++
                  (work path t ms).1 ++ leadOut path t, (work path t ms).2) := by
              simp only [directive, hread, hfetch, leadIn, leadOut]
            rw [hdirective] at hrest ⊢
            exact ⟨_, .included hread hanswered hinner hrest⟩

theorem runs_chunkwise (hsome : enter.isSome = decide (depth < depthLimit))
    (henter : ∀ work, enter = some work → ∀ path t ms, ∃ es,
      Runs r (depth + 1) path 0 (chunks t) ms es (work path t ms).1 (work path t ms).2)
    (offset : Nat) (cs : List Chunk) (ms : Macros) :
    ∃ es, Runs r depth file offset cs ms es (chunkwise r enter file offset cs ms).1 (chunkwise r enter file offset cs ms).2 := by
  induction cs generalizing offset ms with
  | nil => exact ⟨[], .done⟩
  | cons c cs ih =>
      cases c with
      | code line =>
          obtain ⟨es, hrest⟩ := ih (offset + width line) ms
          exact ⟨es, .code hrest⟩
      | directive d =>
          obtain ⟨es, hrest⟩ := ih (offset + width d) (directive r enter file offset d ms).2
          exact runs_directive hsome henter hrest

/-- Each file is entered with one level less to go, so that every text runs. -/
theorem runs_work (levels : Nat) (hlevels : depth + levels = depthLimit) (t : List Char) (ms : Macros) :
    ∃ es, Runs r depth file 0 (chunks t) ms es (work r levels file t ms).1 (work r levels file t ms).2 := by
  induction levels generalizing depth file t ms with
  | zero =>
      refine runs_chunkwise ?_ (by simp) 0 (chunks t) ms
      simp only [Option.isSome_none, false_eq_decide_iff]
      omega
  | succ levels ih =>
      refine runs_chunkwise ?_ ?_ 0 (chunks t) ms
      · simp only [Option.isSome_some, true_eq_decide_iff]
        omega
      · rintro work ⟨⟩ path t' ms'
        exact ih (by omega) t' ms'

theorem Runs.unique {offset : Nat} {cs : List Chunk} {ms ms₁ ms₂ : Macros} {es₁ es₂ : List Event} {ps₁ ps₂ : List Piece}
    (h₁ : Runs r depth file offset cs ms es₁ ps₁ ms₁) (h₂ : Runs r depth file offset cs ms es₂ ps₂ ms₂) :
    es₁ = es₂ ∧ ps₁ = ps₂ ∧ ms₁ = ms₂ := by
  -- what a directive asks for, and the answer to it, leave only one way to go on
  induction h₁ generalizing es₂ ps₂ ms₂ with
  | done =>
      cases h₂
      exact ⟨rfl, rfl, rfl⟩
  | code _ ih =>
      cases h₂ with
      | code hrest =>
          obtain ⟨rfl, rfl, rfl⟩ := ih hrest
          exact ⟨rfl, rfl, rfl⟩
  | idle hidle _ ih =>
      cases h₂ with
      | idle _ hrest =>
          obtain ⟨rfl, rfl, rfl⟩ := ih hrest
          exact ⟨rfl, rfl, rfl⟩
      | refused hread => exact absurd hread (hidle _)
      | included hread => exact absurd hread (hidle _)
  | refused hread hanswered _ ih =>
      cases h₂ with
      | idle hidle => exact absurd hread (hidle _)
      | refused hread' hanswered' hrest =>
          cases hread.symm.trans hread'
          obtain ⟨rfl, he⟩ := hanswered.unique hanswered'
          cases he
          obtain ⟨rfl, rfl, rfl⟩ := ih hrest
          exact ⟨rfl, rfl, rfl⟩
      | included hread' hanswered' =>
          cases hread.symm.trans hread'
          cases (hanswered.unique hanswered').2
  | included hread hanswered _ _ ihinner ihrest =>
      cases h₂ with
      | idle hidle => exact absurd hread (hidle _)
      | refused hread' hanswered' =>
          cases hread.symm.trans hread'
          cases (hanswered.unique hanswered').2
      | included hread' hanswered' hinner hrest =>
          cases hread.symm.trans hread'
          obtain ⟨rfl, hfound⟩ := hanswered.unique hanswered'
          cases hfound
          obtain ⟨rfl, rfl, rfl⟩ := ihinner hinner
          obtain ⟨rfl, rfl, rfl⟩ := ihrest hrest
          exact ⟨rfl, rfl, rfl⟩

/-- Along a run every file is within the limit, and every request has its answer. -/
theorem Runs.events {offset : Nat} {cs : List Chunk} {ms ms' : Macros} {es : List Event} {ps : List Piece}
    (h : Runs r depth file offset cs ms es ps ms') : ∀ e ∈ es, e.Sound r := by
  induction h with
  | done => simp
  | code _ ih => exact ih
  | idle _ _ ih => exact ih
  | refused hread hanswered _ ih => exact List.forall_mem_cons.mpr ⟨⟨hread, hanswered⟩, ih⟩
  | included hread hanswered _ _ ihinner ihrest =>
      refine List.forall_mem_cons.mpr ⟨⟨hread, hanswered⟩, List.forall_mem_cons.mpr ⟨hanswered.depth_lt, ?_⟩⟩
      exact List.forall_mem_append.mpr ⟨ihinner, ihrest⟩

/-! ## Pieces of includes -/

/-- Whether a piece is that of a directive that asked for a file. -/
def Piece.asks (p : Piece) : Bool :=
  match p.effect with
  | .included _ _ => true
  | .refused _ _ _ => true
  | _ => false

namespace Meeting

def effect (m : Meeting) : Effect :=
  match m.answer with
  | .ok (path, _) => .included (String.ofList m.requested) path
  | .error e => .refused (String.ofList m.requested) (!m.loads.isEmpty) e

def piece (m : Meeting) : Piece := .directive m.file m.offset m.directive m.effect

/-- The span of the blanks for the directive, from `start` of the code on. -/
def span (m : Meeting) (start : Nat) : Span := ⟨start, start + width m.directive⟩

/-- The record of an include that was followed. -/
def include? (start : Nat) (m : Meeting) : Option IncludeRecord :=
  match m.answer with
  | .ok (path, _) => some ⟨String.ofList m.requested, path, m.span start⟩
  | .error _ => none

/-- The error of an include that was refused. -/
def error? (start : Nat) (m : Meeting) : Option Finding :=
  match m.answer with
  | .ok _ => none
  | .error e => some ⟨.error, "Failed to include '" ++ String.ofList m.requested ++ "': " ++ e.message, m.span start⟩

/-- Whether the include was refused because its file could not be read. -/
def loadFails (m : Meeting) : Bool :=
  match m.answer with
  | .ok _ => false
  | .error _ => !m.loads.isEmpty

theorem includeOf?_piece (start : Nat) (m : Meeting) : includeOf? start m.piece = m.include? start := by
  unfold includeOf? include? piece effect Piece.effect
  cases m.answer <;> rfl

theorem errorOf?_piece (start : Nat) (m : Meeting) : errorOf? start m.piece = m.error? start := by
  unfold errorOf? error? piece effect Piece.effect
  cases m.answer <;> rfl

end Meeting

def meetings (es : List Event) : List Meeting :=
  es.filterMap fun
    | .processed _ _ _ => none
    | .met m => some m

theorem filter_asks_piecesOf (offset : Nat) (fs : List Fragment) : (piecesOf file offset fs).filter Piece.asks = [] := by
  rw [List.filter_eq_nil_iff]
  intro p hp
  obtain ⟨before, f, after, -, rfl⟩ := exists_fragment_of_mem_piecesOf hp
  cases f <;> exact Bool.false_ne_true

theorem filter_asks_leadIn (offset : Nat) (d : List Char) : (leadIn file offset d).filter Piece.asks = [] := by
  unfold leadIn
  split <;> rfl

theorem filter_asks_leadOut (t : List Char) : (leadOut file t).filter Piece.asks = [] := by
  unfold leadOut
  split <;> rfl

theorem asks_of_idle {offset : Nat} {d : List Char} (h : ∀ requested, readCommand file offset d ≠ .fetch requested) :
    (Piece.directive file offset d (effectOf r true file offset d)).asks = false := by
  unfold effectOf
  cases hread : readCommand file offset d with
  | nothing => rfl
  | define m record => rfl
  | undefine name => rfl
  | fetch requested => exact absurd hread (h requested)

/-- Each include that is met leaves its piece, and no other piece asks for a file. -/
theorem Runs.filter_asks {offset : Nat} {cs : List Chunk} {ms ms' : Macros} {es : List Event} {ps : List Piece}
    (h : Runs r depth file offset cs ms es ps ms') : ps.filter Piece.asks = (meetings es).map Meeting.piece := by
  induction h with
  | done => rfl
  | code _ ih => rw [List.filter_append, filter_asks_piecesOf, List.nil_append, ih]
  | idle hidle _ ih => rw [List.filter_cons_of_neg (by simp [asks_of_idle hidle]), ih]
  | refused _ _ _ ih =>
      rw [List.filter_cons_of_pos rfl, ih]
      rfl
  | included _ _ _ _ ihinner ihrest =>
      simp only [List.cons_append, List.filter_cons_of_pos (rfl : Piece.asks (.directive _ _ _ (.included _ _)) = true),
        List.filter_append, filter_asks_leadIn, filter_asks_leadOut, List.nil_append, List.append_nil, ihinner, ihrest]
      simp [meetings, Meeting.piece, Meeting.effect]

/-! ## Accounts -/

section

variable {ps : List Piece} {met : List (Nat × Meeting)}

/-- The directives of includes, with the offsets at which their blanks start. -/
theorem exists_starts {ms : List Meeting} (h : ps.filter Piece.asks = ms.map Meeting.piece) (start : Nat) :
    ∃ met : List (Nat × Meeting), met.map Prod.snd = ms ∧
      (placed start ps).filter (·.2.asks) = met.map (fun x => (x.1, x.2.piece)) := by
  induction ps generalizing start ms with
  | nil =>
      rw [List.filter_nil, eq_comm, List.map_eq_nil_iff] at h
      exact ⟨[], h.symm, rfl⟩
  | cons p ps ih =>
      by_cases hp : p.asks = true
      · rw [List.filter_cons_of_pos hp] at h
        obtain ⟨m, ms, rfl, hm, hms⟩ := List.map_eq_cons_iff.mp h.symm
        obtain ⟨met, rfl, hplaced⟩ := ih hms.symm (start + p.size)
        refine ⟨(start, m) :: met, rfl, ?_⟩
        rw [placed, List.filter_cons, if_pos hp, hplaced, List.map_cons, hm]
      · rw [List.filter_cons_of_neg hp] at h
        obtain ⟨met, hms, hplaced⟩ := ih h (start + p.size)
        exact ⟨met, hms, by rw [placed, List.filter_cons, if_neg hp, hplaced]⟩

/-- What only directives of includes contribute can be read off them. -/
theorem filterMap_placed {α : Type} {f : Nat → Piece → Option α} (hf : ∀ start p, p.asks = false → f start p = none)
    (h : (placed 0 ps).filter (·.2.asks) = met.map (fun x => (x.1, x.2.piece))) :
    (placed 0 ps).filterMap (fun (start, p) => f start p) = met.filterMap fun x => f x.1 x.2.piece := by
  calc (placed 0 ps).filterMap (fun (start, p) => f start p)
      = ((placed 0 ps).filter (·.2.asks)).filterMap (fun (start, p) => f start p) := by
        rw [List.filterMap_filter]
        congr 1
        funext ⟨start, p⟩
        cases hp : p.asks with
        | true => simp
        | false => simpa using hf start p hp
    _ = met.filterMap fun x => f x.1 x.2.piece := by
        rw [h, List.filterMap_map]
        rfl

theorem includes_of_met (h : (placed 0 ps).filter (·.2.asks) = met.map (fun x => (x.1, x.2.piece))) :
    (ofPieces ps).includes = met.filterMap fun x => x.2.include? x.1 := by
  have hidle : ∀ start p, p.asks = false → includeOf? start p = none := by
    intro start p hp
    unfold Piece.asks at hp
    unfold includeOf?
    split at hp <;> simp_all
  rw [ofPieces, filterMap_placed hidle h]
  simp only [Meeting.includeOf?_piece]

theorem errors_of_met (h : (placed 0 ps).filter (·.2.asks) = met.map (fun x => (x.1, x.2.piece))) :
    (ofPieces ps).errors = met.filterMap fun x => x.2.error? x.1 := by
  have hidle : ∀ start p, p.asks = false → errorOf? start p = none := by
    intro start p hp
    unfold Piece.asks at hp
    unfold errorOf?
    split at hp <;> simp_all
  rw [ofPieces, filterMap_placed hidle h]
  simp only [Meeting.errorOf?_piece]

theorem ordered_of_met (h : (placed 0 ps).filter (·.2.asks) = met.map (fun x => (x.1, x.2.piece))) :
    met.Pairwise fun x y => (x.2.span x.1).stop ≤ y.1 := by
  have hordered (start : Nat) : (placed start ps).Pairwise fun x y => x.1 + x.2.size ≤ y.1 := by
    clear h
    induction ps generalizing start with
    | nil => exact .nil
    | cons p ps ih => exact .cons (fun _ hx => start_le_of_mem_placed hx) (ih (start + p.size))
  have hmet := (hordered 0).filter (·.2.asks)
  rw [h, List.pairwise_map] at hmet
  exact hmet

end

/-- The directive of an include is blanked out from `start` of the code on. -/
structure Blanked (out : Preprocessed) (start : Nat) (m : Meeting) : Prop where
  stands : StandsAt out.code start (blank m.directive)
  leads : SameAnswer (out.map.resolve? start) (some (m.file, m.offset))

theorem blanked_of_placed {ps : List Piece} {start : Nat} {m : Meeting} (h : (start, m.piece) ∈ placed 0 ps)
    (hm : (Event.met m).Sound r) : Blanked (ofPieces ps) start m := by
  obtain ⟨before, after, rfl, rfl⟩ := mem_placed_iff.mp h
  have hne : m.directive ≠ [] := by
    intro hnil
    have hread := hm.1
    rw [hnil] at hread
    cases hread
  have hsize : 0 < m.piece.size := Text.width_pos hne
  have hresolve := resolve?_piece before after m.piece hsize (Nat.zero_le _) (Or.inr hsize)
  exact ⟨⟨codeOf before, codeOf after, by simp [ofPieces, codeOf, Piece.code, Meeting.piece], rfl⟩, hresolve⟩

theorem length_includes_errors (met : List (Nat × Meeting)) :
    (met.filterMap fun x => x.2.include? x.1).length + (met.filterMap fun x => x.2.error? x.1).length = met.length := by
  induction met with
  | nil => rfl
  | cons x met ih =>
      cases hanswer : x.2.answer with
      | ok found =>
          simp only [List.filterMap_cons, Meeting.include?, Meeting.error?, hanswer, List.length_cons] at ih ⊢
          omega
      | error e =>
          simp only [List.filterMap_cons, Meeting.include?, Meeting.error?, hanswer, List.length_cons] at ih ⊢
          omega

/-- At most one file is loaded for an include: one is if the include is followed, or if the load fails. -/
theorem Answered.length_loads {m : Meeting} (h : Answered r m.depth m.file m.requested m.loads m.answer) (start : Nat) :
    m.loads.length = (if isLoad m.piece then 1 else 0) ∧
      m.loads.length = (m.include? start).toList.length + if m.loadFails then 1 else 0 := by
  obtain ⟨depth, f, offset, d, requested, loads, answer⟩ := m
  cases h <;> exact ⟨rfl, rfl⟩

theorem loads_of_meetings {ps : List Piece} {ms : List Meeting} (h : ps.filter Piece.asks = ms.map Meeting.piece)
    (hms : ∀ m ∈ ms, (Event.met m).Sound r) : (ofPieces ps).loads = (ms.flatMap Meeting.loads).length := by
  have hasks (p : Piece) : (isLoad p && p.asks) = isLoad p := by
    unfold isLoad Piece.asks
    cases p.effect <;> simp
  calc ps.countP isLoad = (ps.filter Piece.asks).countP isLoad := by simp only [List.countP_filter, hasks]
    _ = ms.countP (isLoad ∘ Meeting.piece) := by rw [h, List.countP_map]
    _ = (ms.flatMap Meeting.loads).length := by
        clear h
        induction ms with
        | nil => rfl
        | cons m ms ih =>
            obtain ⟨⟨-, hm⟩, hms⟩ := List.forall_mem_cons.mp hms
            rw [List.countP_cons, ih hms, List.flatMap_cons, List.length_append, (hm.length_loads 0).1, Nat.add_comm]
            rfl

theorem length_loads {met : List (Nat × Meeting)} (hmet : ∀ x ∈ met, (Event.met x.2).Sound r) :
    ((met.map Prod.snd).flatMap Meeting.loads).length =
      (met.filterMap fun x => x.2.include? x.1).length + (met.map Prod.snd).countP Meeting.loadFails := by
  induction met with
  | nil => rfl
  | cons x met ih =>
      obtain ⟨⟨-, hx⟩, hmet⟩ := List.forall_mem_cons.mp hmet
      have hloads := (hx.length_loads x.1).2
      rw [List.map_cons, List.flatMap_cons, List.length_append, ih hmet, List.countP_cons, hloads, List.filterMap_cons]
      cases x.2.include? x.1 <;> simp <;> omega

/-- However the files include one another, a document is worked off in exactly one way, and no text of it is more
includes deep than the limit allows. Each include directive that is met stands blanked out in the code, and
leaves a record or an error with that span, but not both; as many files are loaded as there are records and
errors because a file could not be read. -/
theorem includes_accounted (r : Resolver) (file : Path) (text : List Char) :
    let out := preprocess r file text
    ∃ es ms, Processes r 0 file text [] es (pieces r file text) ms ∧
      (∀ es' ps' ms', Processes r 0 file text [] es' ps' ms' → es' = es ∧ ps' = pieces r file text ∧ ms' = ms) ∧
      (∀ depth f t, .processed depth f t ∈ es → depth ≤ depthLimit) ∧
      ∃ met : List (Nat × Meeting), met.map Prod.snd = meetings es ∧
        (∀ x ∈ met, Blanked out x.1 x.2) ∧ met.Pairwise (fun x y => (x.2.span x.1).stop ≤ y.1) ∧
        out.includes = met.filterMap (fun x => x.2.include? x.1) ∧
        out.errors = met.filterMap (fun x => x.2.error? x.1) ∧
        out.includes.length + out.errors.length = (meetings es).length ∧
        out.loads = ((meetings es).flatMap Meeting.loads).length ∧
        out.loads = out.includes.length + (meetings es).countP Meeting.loadFails := by
  intro out
  obtain ⟨es, hruns⟩ := @runs_work r 0 file depthLimit (Nat.zero_add _) text []
  have hasks := hruns.filter_asks
  have hmeetings : ∀ m ∈ meetings es, (Event.met m).Sound r := by
    intro m hm
    obtain ⟨e, he, hsome⟩ := List.mem_filterMap.mp hm
    cases e with
    | processed => cases hsome
    | met m' =>
        cases hsome
        exact hruns.events _ he
  obtain ⟨met, hmet, hplaced⟩ := exists_starts hasks 0
  have hsound : ∀ x ∈ met, (Event.met x.2).Sound r := by
    intro x hx
    exact hmeetings x.2 (hmet ▸ List.mem_map_of_mem hx)
  have hincludes : out.includes = met.filterMap (fun x => x.2.include? x.1) := includes_of_met hplaced
  have herrors : out.errors = met.filterMap (fun x => x.2.error? x.1) := errors_of_met hplaced
  have hloads : out.loads = ((meetings es).flatMap Meeting.loads).length := loads_of_meetings hasks hmeetings
  refine ⟨.processed 0 file text :: es, _, ⟨es, rfl, hruns⟩, ?_, ?_, met, hmet, ?_, ordered_of_met hplaced, hincludes, herrors,
    ?_, hloads, ?_⟩
  · rintro es' ps' ms' ⟨later, rfl, hruns'⟩
    obtain ⟨rfl, rfl, rfl⟩ := hruns.unique hruns'
    exact ⟨rfl, rfl, rfl⟩
  · intro depth f t hmem
    rcases List.mem_cons.mp hmem with hfirst | hlater
    · cases hfirst
      exact Nat.zero_le _
    · exact hruns.events _ hlater
  · intro x hx
    refine blanked_of_placed ?_ (hsound x hx)
    have hmem : (x.1, x.2.piece) ∈ (placed 0 (pieces r file text)).filter (·.2.asks) := by
      rw [show pieces r file text = (work r depthLimit file text []).1 from rfl, hplaced]
      exact List.mem_map_of_mem hx
    exact (List.mem_filter.mp hmem).1
  · have hlength := length_includes_errors met
    rw [← hincludes, ← herrors, ← List.length_map Prod.snd, hmet] at hlength
    exact hlength
  · have hlength := length_loads hsound
    rw [hmet, ← hloads, ← hincludes] at hlength
    exact hlength

end

end SqfIndex.Preprocess
