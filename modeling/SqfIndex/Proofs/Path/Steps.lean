import SqfIndex.Path

/-!
# Steps of a path

A path has the root or a dot that it begins with, if any, and the steps that are written after it (`components_eq`).
Appending a path that is not absolute appends its steps (`components_join`), and the path that is made of steps has
them (`components_ofComponents`). An absolute path without `..` keeps its steps when `.` and `..` are resolved:
`exists_normalize?`.
-/

namespace SqfIndex

/-! ## Parts between separators -/

namespace Text

variable {α : Type} [DecidableEq α] {sep : α}

theorem splitAt_ne_nil (sep : α) (cs : List α) : splitAt sep cs ≠ [] := by
  cases cs with
  | nil => simp [splitAt]
  | cons c cs =>
      unfold splitAt
      split
      · simp
      · split <;> simp

theorem splitAt_cons_of_ne {c : α} (h : c ≠ sep) (cs : List α) :
    ∃ piece pieces, splitAt sep cs = piece :: pieces ∧ splitAt sep (c :: cs) = (c :: piece) :: pieces := by
  obtain ⟨piece, pieces, hsplit⟩ := List.exists_cons_of_ne_nil (splitAt_ne_nil sep cs)
  exact ⟨piece, pieces, hsplit, by simp [splitAt, h, hsplit]⟩

theorem splitAt_append (as bs : List α) : splitAt sep (as ++ sep :: bs) = splitAt sep as ++ splitAt sep bs := by
  induction as with
  | nil => simp [splitAt]
  | cons a as ih =>
      by_cases ha : a = sep
      · simp [splitAt, ha, ih]
      · obtain ⟨piece, pieces, hsplit, hcons⟩ := splitAt_cons_of_ne ha as
        rw [hcons, List.cons_append, splitAt, if_neg ha, ih, hsplit]
        rfl

theorem splitAt_of_notMem {piece : List α} (h : sep ∉ piece) : splitAt sep piece = [piece] := by
  induction piece with
  | nil => rfl
  | cons c piece ih =>
      have hc : c ≠ sep := fun he => h (he ▸ List.mem_cons_self)
      simp [splitAt, hc, ih fun hmem => h (List.mem_cons_of_mem _ hmem)]

theorem notMem_of_mem_splitAt {cs piece : List α} (h : piece ∈ splitAt sep cs) : sep ∉ piece := by
  induction cs generalizing piece with
  | nil => simp_all [splitAt]
  | cons c cs ih =>
      by_cases hc : c = sep
      · rw [splitAt, if_pos hc] at h
        rcases List.mem_cons.mp h with rfl | h
        · exact List.not_mem_nil
        · exact ih h
      · obtain ⟨first, pieces, hsplit, hcons⟩ := splitAt_cons_of_ne hc cs
        rw [hsplit] at ih
        rw [hcons] at h
        rcases List.mem_cons.mp h with rfl | h
        · have hfirst := ih List.mem_cons_self
          simp [hfirst, Ne.symm hc]
        · exact ih (List.mem_cons_of_mem first h)

end Text

/-! ## Parts that are steps -/

namespace Component

theorem ofPart?_bytes {part : Bytes} {c : Component} (h : ofPart? part = some c) : c.bytes = part := by
  unfold ofPart? at h
  split at h
  · cases h
  · split at h
    · next hup => cases h; exact hup.symm
    · cases h; rfl

/-- Steps that were read from parts are read from what is written for them. -/
theorem filterMap_bytes (parts : List Bytes) :
    ((parts.filterMap ofPart?).map bytes).filterMap ofPart? = parts.filterMap ofPart? := by
  induction parts with
  | nil => rfl
  | cons part parts ih =>
      cases hc : ofPart? part with
      | none => simpa [hc] using ih
      | some c => simp [hc, ofPart?_bytes hc, ih]

theorem bytes_ne_nil {parts : List Bytes} {c : Component} (h : c ∈ parts.filterMap ofPart?) : c.bytes ≠ [] := by
  obtain ⟨part, -, hc⟩ := List.mem_filterMap.mp h
  rw [ofPart?_bytes hc]
  rintro rfl
  simp [ofPart?] at hc

theorem ne_here_of_ofPart? {part : Bytes} {c : Component} (h : ofPart? part = some c) : c ≠ here := by
  rintro rfl
  unfold ofPart? at h
  split at h
  · cases h
  · split at h <;> cases h

end Component

namespace Path

/-- The steps that a text stands for when it is written after other steps. -/
def steps (bytes : Bytes) : List Component := (Text.splitAt separator bytes).filterMap Component.ofPart?

@[simp] theorem steps_nil : steps [] = [] := rfl

theorem steps_append (as bs : Bytes) : steps (as ++ separator :: bs) = steps as ++ steps bs := by
  rw [steps, Text.splitAt_append, List.filterMap_append, steps, steps]

@[simp] theorem steps_separator (bytes : Bytes) : steps (separator :: bytes) = steps bytes := steps_append [] bytes

/-- A step is read again from what is written for it. -/
theorem ofPart?_of_mem_steps {bytes : Bytes} {c : Component} (h : c ∈ steps bytes) :
    separator ∉ c.bytes ∧ Component.ofPart? c.bytes = some c := by
  obtain ⟨part, hpart, hc⟩ := List.mem_filterMap.mp h
  rw [Component.ofPart?_bytes hc]
  exact ⟨Text.notMem_of_mem_splitAt hpart, hc⟩

/-- What is written for a step is that step, and is no absolute path. -/
theorem steps_bytes {bytes : Bytes} {c : Component} (h : c ∈ steps bytes) :
    steps c.bytes = [c] ∧ (Path.mk c.bytes).isAbsolute = false := by
  obtain ⟨hnotMem, hc⟩ := ofPart?_of_mem_steps h
  constructor
  · rw [steps, Text.splitAt_of_notMem hnotMem, List.filterMap_cons_some hc, List.filterMap_nil]
  · rw [isAbsolute, beq_eq_false_iff_ne]
    exact fun hhead => hnotMem (List.mem_of_head? hhead)

theorem components_separator (bytes : Bytes) : (Path.mk (separator :: bytes)).components = .root :: steps bytes := by
  simp [components, parts, Text.splitAt, Text.splitAt_ne_nil, steps]

theorem exists_of_isAbsolute {p : Path} (h : p.isAbsolute = true) : ∃ bytes, p = ⟨separator :: bytes⟩ := by
  obtain ⟨bytes⟩ := p
  obtain ⟨rest, rfl⟩ := List.head?_eq_some_iff.mp (beq_iff_eq.mp h)
  exact ⟨rest, rfl⟩

theorem bytes_ne_nil {p : Path} (h : p.isAbsolute = true) : p.bytes ≠ [] := by
  obtain ⟨bytes, rfl⟩ := exists_of_isAbsolute h
  exact List.cons_ne_nil separator bytes

theorem components_of_isAbsolute {p : Path} (h : p.isAbsolute = true) :
    ∃ parts : List Bytes, p.components = .root :: parts.filterMap Component.ofPart? := by
  obtain ⟨bytes, rfl⟩ := exists_of_isAbsolute h
  exact ⟨_, components_separator bytes⟩

/-- What a path begins with before its steps: the root, or a dot that counts. -/
def lead (p : Path) : List Component :=
  if p.isAbsolute then [.root] else if p.parts.head? = some [Component.dot] then [.here] else []

theorem components_eq (p : Path) : p.components = p.lead ++ steps p.bytes := by
  obtain ⟨bytes⟩ := p
  cases bytes with
  | nil => rfl
  | cons b bytes =>
      by_cases hb : b = separator
      · subst hb
        rw [components_separator, steps_separator]
        rfl
      · obtain ⟨piece, pieces, -, hsplit⟩ := Text.splitAt_cons_of_ne hb bytes
        have hrelative : (Path.mk (b :: bytes)).isAbsolute = false := by simpa [isAbsolute] using hb
        by_cases hdot : b :: piece = [Component.dot]
        · simp [components, lead, hrelative, parts, steps, hsplit, hdot, Component.ofPart?]
        · cases hstep : Component.ofPart? (b :: piece) <;>
            simp [components, lead, hrelative, parts, steps, hsplit, hdot, hstep]

theorem components_bytes {bytes : Bytes} {c : Component} (h : c ∈ steps bytes) : (Path.mk c.bytes).components = [c] := by
  obtain ⟨hnotMem, hc⟩ := ofPart?_of_mem_steps h
  obtain ⟨hsteps, hrelative⟩ := steps_bytes h
  have hlead : (Path.mk c.bytes).lead = [] := by
    have hdot : c.bytes ≠ [Component.dot] := by
      intro hbytes
      rw [hbytes] at hc
      cases hc
    simp [lead, hrelative, parts, Text.splitAt_of_notMem hnotMem, hdot]
  rw [components_eq, hlead, List.nil_append, hsteps]

/-! ## Appending -/

theorem isAbsolute_join {p q : Path} (hp : p.isAbsolute = true) : (p.join q).isAbsolute = true := by
  obtain ⟨bytes, rfl⟩ := exists_of_isAbsolute hp
  unfold join
  split
  · next hq => exact hq
  · split <;> rfl

theorem bytes_join_ne_nil {p : Path} (hp : p.bytes ≠ []) (q : Path) : (p.join q).bytes ≠ [] := by
  unfold join
  split
  · next hq => exact bytes_ne_nil hq
  · split <;> simp [hp]

/-- What a path begins with is told by what stands before its first separator. -/
theorem lead_append (front bytes : Bytes) :
    (Path.mk (front ++ separator :: bytes)).lead = if front = [] then [.root] else (Path.mk front).lead := by
  cases front with
  | nil => rfl
  | cons b front =>
      have habsolute : (Path.mk (b :: front ++ separator :: bytes)).isAbsolute = (Path.mk (b :: front)).isAbsolute := rfl
      have hparts : (Path.mk (b :: front ++ separator :: bytes)).parts.head? = (Path.mk (b :: front)).parts.head? := by
        rw [parts, Text.splitAt_append, List.head?_append]
        obtain ⟨piece, pieces, hsplit⟩ := List.exists_cons_of_ne_nil (Text.splitAt_ne_nil separator (b :: front))
        rw [parts, hsplit, List.head?_cons, Option.some_or]
      rw [lead, lead, habsolute, hparts, if_neg (List.cons_ne_nil b front)]

theorem components_join {p : Path} (hp : p.bytes ≠ []) {bytes : Bytes} (hbytes : (Path.mk bytes).isAbsolute = false) :
    (p.join ⟨bytes⟩).components = p.components ++ steps bytes := by
  rw [join, if_neg (by rw [hbytes]; exact Bool.false_ne_true), components_eq p]
  split
  · next hlast =>
    -- a separator is there already
    obtain ⟨front, b, hfront⟩ := (List.eq_nil_or_concat p.bytes).resolve_left hp
    rw [List.concat_eq_append] at hfront
    have hb : b = separator := by
      simpa only [hfront, List.getLast?_concat, Option.all_some, beq_iff_eq] using hlast
    obtain rfl : p = ⟨front ++ [separator]⟩ := by rw [← hb, ← hfront]
    rw [List.append_assoc, List.singleton_append, components_eq, lead_append, lead_append, steps_append, steps_append,
      steps_nil, List.append_nil, List.append_assoc]
  · rw [components_eq, lead_append, if_neg hp, steps_append, List.append_assoc]

theorem components_foldl_join {p : Path} (hp : p.bytes ≠ []) {cs : List Component}
    (hcs : ∀ c ∈ cs, steps c.bytes = [c] ∧ (Path.mk c.bytes).isAbsolute = false) :
    (cs.foldl (fun q c => q.join ⟨c.bytes⟩) p).components = p.components ++ cs := by
  induction cs generalizing p with
  | nil => rw [List.foldl_nil, List.append_nil]
  | cons c cs ih =>
      obtain ⟨⟨hsteps, hrelative⟩, hcs⟩ := List.forall_mem_cons.mp hcs
      rw [List.foldl_cons, ih (bytes_join_ne_nil hp _) hcs, components_join hp hrelative, hsteps, List.append_assoc,
        List.singleton_append]

/-- The path that is made of steps has them, after the root if that comes first. -/
theorem components_ofComponents {bytes : Bytes} {cs : List Component} (hcs : cs ⊆ steps bytes) (rooted : Bool) :
    (ofComponents ((if rooted then [.root] else []) ++ cs)).components = (if rooted then [.root] else []) ++ cs := by
  have hsteps : ∀ c ∈ cs, steps c.bytes = [c] ∧ (Path.mk c.bytes).isAbsolute = false := fun c hc => steps_bytes (hcs hc)
  cases rooted with
  | true =>
      have hroot : ofComponents (.root :: cs) = cs.foldl (fun q c => q.join ⟨c.bytes⟩) ⟨[separator]⟩ := rfl
      rw [if_pos rfl, List.singleton_append, hroot, components_foldl_join (List.cons_ne_nil _ _) hsteps,
        components_separator, steps_nil, List.singleton_append]
  | false =>
      cases cs with
      | nil => rfl
      | cons c cs =>
          have hfirst : (Path.mk []).join ⟨c.bytes⟩ = ⟨c.bytes⟩ := by simp [join]
          have hbytes : (Path.mk c.bytes).bytes ≠ [] := Component.bytes_ne_nil (hcs List.mem_cons_self)
          rw [if_neg Bool.false_ne_true, List.nil_append, ofComponents, List.foldl_cons, hfirst,
            components_foldl_join hbytes (List.forall_mem_cons.mp hsteps).2, components_bytes (hcs List.mem_cons_self),
            List.singleton_append]

/-! ## Resolving `.` and `..` -/

theorem step_eq_cons {c : Component} (hup : c ≠ .up) (hhere : c ≠ .here) (back : List Component) :
    step back c = c :: back := by
  cases c with
  | up => exact absurd rfl hup
  | here => exact absurd rfl hhere
  | root => simp [step]
  | name written => simp [step]

theorem foldl_step {cs : List Component} (h : ∀ c ∈ cs, c ≠ .up ∧ c ≠ .here) (back : List Component) :
    cs.foldl step back = cs.reverse ++ back := by
  induction cs generalizing back with
  | nil => rfl
  | cons c cs ih =>
      obtain ⟨⟨hup, hhere⟩, hcs⟩ := List.forall_mem_cons.mp h
      rw [List.foldl_cons, step_eq_cons hup hhere, ih hcs, List.reverse_cons, List.append_assoc, List.singleton_append]

/-- An absolute path without `..` has all its steps still when `.` and `..` are resolved. -/
theorem exists_normalize? {p : Path} (hp : p.isAbsolute = true) (hup : Component.up ∉ p.components) :
    ∃ q, p.normalize? = some q ∧ q.components = p.components := by
  obtain ⟨bytes, rfl⟩ := exists_of_isAbsolute hp
  rw [components_separator] at hup ⊢
  have hplain : ∀ c ∈ Component.root :: steps bytes, c ≠ .up ∧ c ≠ .here := by
    intro c hc
    refine ⟨fun he => hup (he ▸ hc), ?_⟩
    rcases List.mem_cons.mp hc with rfl | hc
    · exact Component.noConfusion
    · obtain ⟨part, -, hpart⟩ := List.mem_filterMap.mp hc
      exact Component.ne_here_of_ofPart? hpart
  have hresolved : resolved (.root :: steps bytes) = .root :: steps bytes := by
    rw [resolved, foldl_step hplain, List.append_nil, List.reverse_reverse]
  refine ⟨ofComponents (.root :: steps bytes), ?_, ?_⟩
  · rw [normalize?, components_separator, hresolved]
  · exact components_ofComponents (List.Subset.refl (steps bytes)) true

end Path

end SqfIndex
