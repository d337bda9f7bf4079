import Mathlib.Logic.Relation
import SqfIndex.Proofs.Path.Steps

/-!
# Paths without `.` and `..`

`Drops` says which steps of a path may be left out: `.`, a name with the `..` after it, and a `..` that has nothing to
undo, at the front or right after the root. What is left when no more can be left out is what resolving gives
(`resolved_eq_of_drops`, `drops_resolved`), so that it does not matter whether a path is resolved before or after another
is appended: `normalized_path_exact`.
-/

namespace SqfIndex.Path

open Relation (ReflTransGen)

/-! ## Steps that may be left out -/

/-- One step of a row is resolved. -/
inductive Drops : List Component → List Component → Prop
  | here (before after : List Component) : Drops (before ++ .here :: after) (before ++ after)
  | undone (before : List Component) (written : Bytes) (after : List Component) :
      Drops (before ++ .name written :: .up :: after) (before ++ after)
  | atRoot (before after : List Component) : Drops (before ++ .root :: .up :: after) (before ++ .root :: after)
  | atFront (after : List Component) : Drops (.up :: after) after

theorem Drops.append {cs ds : List Component} (h : Drops cs ds) (after : List Component) :
    Drops (cs ++ after) (ds ++ after) := by
  cases h with
  | here before rest => simpa using Drops.here before (rest ++ after)
  | undone before written rest => simpa using Drops.undone before written (rest ++ after)
  | atRoot before rest => simpa using Drops.atRoot before (rest ++ after)
  | atFront => exact Drops.atFront _

/-- Whatever is left out, the same steps are left in the end. -/
theorem resolved_eq_of_drops {cs ds : List Component} (h : ReflTransGen Drops cs ds) : resolved cs = resolved ds := by
  induction h with
  | refl => rfl
  | tail _ hdrop ih =>
      rw [ih]
      cases hdrop <;> simp [resolved, step]

/-! ## Steps that are left -/

/-- What a further step does: `..` undoes a name and nothing else, `.` does nothing, and any other is added. -/
theorem step_cases (back : List Component) (c : Component) :
    (∃ written, c = .up ∧ back = .name written :: step back c) ∨
      (c = .up ∧ (∀ written, back.head? ≠ some (.name written)) ∨ c = .here) ∧ step back c = back ∨
      (c ≠ .up ∧ c ≠ .here) ∧ step back c = c :: back := by
  cases c with
  | root => simp [step]
  | here => simp [step]
  | name => simp [step]
  | up =>
      cases back with
      | nil => simp [step]
      | cons last back => cases last <;> simp [step]

/-- Neither `.` nor `..`. -/
def Plain (cs : List Component) : Prop := ∀ c ∈ cs, c ≠ .up ∧ c ≠ .here

theorem Plain.step {back : List Component} (h : Plain back) (c : Component) : Plain (step back c) := by
  rcases step_cases back c with ⟨written, -, hback⟩ | ⟨-, hkept⟩ | ⟨hc, hadded⟩
  · rw [hback] at h
    exact (List.forall_mem_cons.mp h).2
  · rwa [hkept]
  · rw [hadded]
    exact List.forall_mem_cons.mpr ⟨hc, h⟩

theorem Plain.foldl_step {back : List Component} (h : Plain back) (cs : List Component) : Plain (cs.foldl Path.step back) := by
  induction cs generalizing back with
  | nil => exact h
  | cons c cs ih => exact ih (h.step c)

theorem plain_nil : Plain [] := by simp [Plain]

theorem plain_resolved (cs : List Component) : Plain (resolved cs) :=
  fun c hc => plain_nil.foldl_step cs c (List.mem_reverse.mp hc)

theorem resolved_of_plain {cs : List Component} (h : Plain cs) : resolved cs = cs := by
  rw [resolved, foldl_step h, List.append_nil, List.reverse_reverse]

/-- After steps that are resolved, one more is resolved by leaving out at most one. -/
theorem Plain.drops_step {back : List Component} (h : Plain back) (c : Component) :
    ReflTransGen Drops (back.reverse ++ [c]) (Path.step back c).reverse := by
  rcases step_cases back c with ⟨written, rfl, hback⟩ | ⟨⟨rfl, hname⟩ | rfl, hkept⟩ | ⟨-, hadded⟩
  · have hdrop := Drops.undone (Path.step back .up).reverse written []
    rw [List.append_nil] at hdrop
    rw [hback]
    simpa using .single hdrop
  · rw [hkept]
    cases back with
    | nil => exact .single (.atFront [])
    | cons last back =>
        obtain ⟨hup, hhere⟩ := h last List.mem_cons_self
        cases last with
        | root => simpa using .single (Drops.atRoot back.reverse [])
        | name written => exact absurd rfl (hname written)
        | here => exact absurd rfl hhere
        | up => exact absurd rfl hup
  · have hdrop := Drops.here back.reverse []
    rw [List.append_nil] at hdrop
    rw [hkept]
    exact .single hdrop
  · rw [hadded, List.reverse_cons]

theorem Plain.drops_foldl_step {back : List Component} (h : Plain back) (cs : List Component) :
    ReflTransGen Drops (back.reverse ++ cs) (cs.foldl Path.step back).reverse := by
  -- on the steps to come; `back` holds those that are resolved already, latest first
  induction cs generalizing back with
  | nil => rw [List.append_nil, List.foldl_nil]
  | cons c cs ih =>
      have hone : ReflTransGen Drops (back.reverse ++ [c] ++ cs) ((Path.step back c).reverse ++ cs) :=
        (h.drops_step c).lift (· ++ cs) fun _ _ hdrop => hdrop.append cs
      rw [List.append_assoc, List.singleton_append] at hone
      exact hone.trans (ih (h.step c))

/-- Leaving out steps leads to those that are left when `.` and `..` are resolved. -/
theorem drops_resolved (cs : List Component) : ReflTransGen Drops cs (resolved cs) := plain_nil.drops_foldl_step cs

theorem resolved_eq_nil_iff {cs : List Component} : resolved cs = [] ↔ ReflTransGen Drops cs [] :=
  ⟨fun h => h ▸ drops_resolved cs, resolved_eq_of_drops⟩

/-! ## The steps of a normalized path -/

/-- Above a place that is no name, going up does not lead away from it. -/
theorem exists_step_above {base : List Component} (hbase : ∀ written, base.head? ≠ some (.name written))
    (front : List Component) (c : Component) :
    ∃ front', step (front ++ base) c = front' ++ base ∧ front' ⊆ front ++ [c] := by
  rcases step_cases (front ++ base) c with ⟨written, -, hback⟩ | ⟨-, hkept⟩ | ⟨-, hadded⟩
  · cases front with
    | nil =>
        have hhead := congrArg List.head? hback
        exact absurd hhead (hbase written)
    | cons last front =>
        obtain ⟨-, hfront⟩ := List.cons.inj hback
        exact ⟨front, hfront.symm, by simp⟩
  · exact ⟨front, hkept, by simp⟩
  · exact ⟨c :: front, hadded, by simp⟩

theorem exists_foldl_step_above {base : List Component} (hbase : ∀ written, base.head? ≠ some (.name written))
    (front cs : List Component) : ∃ front', cs.foldl step (front ++ base) = front' ++ base ∧ front' ⊆ front ++ cs := by
  induction cs generalizing front with
  | nil => exact ⟨front, rfl, by simp⟩
  | cons c cs ih =>
      obtain ⟨next, hstep, hnext⟩ := exists_step_above hbase front c
      obtain ⟨front', hfold, hfront'⟩ := ih next
      refine ⟨front', by rw [List.foldl_cons, hstep, hfold], ?_⟩
      rw [← List.singleton_append, ← List.append_assoc]
      refine List.Subset.trans hfront' (List.append_subset.mpr ⟨?_, List.subset_append_right _ cs⟩)
      exact List.Subset.trans hnext (List.subset_append_left _ cs)

/-- A dot at the front does not count when steps are resolved. -/
theorem foldl_components (p : Path) :
    p.components.foldl step [] = (steps p.bytes).foldl step (if p.isAbsolute then [.root] else []) := by
  rw [components_eq, List.foldl_append, lead]
  split
  · rfl
  · split <;> rfl

/-- The root stays, and only steps that are written in a path are left. -/
theorem exists_resolved_components (p : Path) :
    ∃ names, resolved p.components = (if p.isAbsolute then [.root] else []) ++ names ∧ names ⊆ steps p.bytes := by
  have hbase : ∀ written, (if p.isAbsolute then [.root] else [] : List Component).head? ≠ some (.name written) := by
    intro written
    split <;> simp
  obtain ⟨front, hfold, hfront⟩ := exists_foldl_step_above hbase [] (steps p.bytes)
  refine ⟨front.reverse, ?_, fun c hc => hfront (List.mem_reverse.mp hc)⟩
  rw [resolved, foldl_components, ← List.nil_append (if p.isAbsolute then _ else _), hfold, List.reverse_append]
  split <;> rfl

theorem root_notMem_steps (bytes : Bytes) : Component.root ∉ steps bytes := by
  intro hmem
  have hc := (ofPart?_of_mem_steps hmem).2
  cases hc

theorem root_mem_components (p : Path) : .root ∈ p.components ↔ p.isAbsolute = true := by
  have hsteps := root_notMem_steps p.bytes
  rw [components_eq, lead]
  split
  · next habsolute => simp [habsolute]
  · next hrelative => split <;> simp [hrelative, hsteps]

theorem root_mem_resolved (p : Path) : .root ∈ resolved p.components ↔ p.isAbsolute = true := by
  obtain ⟨names, hresolved, hnames⟩ := exists_resolved_components p
  have hroot : .root ∉ names := fun hmem => root_notMem_steps p.bytes (hnames hmem)
  cases habsolute : p.isAbsolute <;> simp [hresolved, habsolute, hroot]

theorem normalize?_eq (p : Path) :
    p.normalize? = if resolved p.components = [] then none else some (ofComponents (resolved p.components)) := by
  unfold normalize?
  split
  · next hnil => rw [if_pos hnil]
  · next hne => rw [if_neg hne]

/-- A normalized path has the steps that are left. -/
theorem components_normalize? (p : Path) : (p.normalize?.getD ⟨[]⟩).components = resolved p.components := by
  rw [normalize?_eq]
  split
  · next hnil => rw [hnil]; rfl
  · obtain ⟨names, hresolved, hnames⟩ := exists_resolved_components p
    rw [Option.getD_some, hresolved]
    exact components_ofComponents hnames p.isAbsolute

/-! ## Appending before or after -/

/-- The steps of a path that is appended are taken after those that are left of the first. -/
theorem resolved_components_join (p : Path) {r : Path} (hr : r.isAbsolute = false) :
    resolved (p.join r).components = ((steps r.bytes).foldl step (resolved p.components).reverse).reverse := by
  rw [resolved, resolved, List.reverse_reverse]
  by_cases hp : p.bytes = []
  · -- a path that is appended to nothing keeps its leading dot, which does not count
    obtain ⟨bytes⟩ := p
    subst hp
    have hjoin : (Path.mk []).join r = r := by simp [join]
    rw [hjoin, foldl_components, hr]
    rfl
  · rw [components_join hp hr, List.foldl_append]

theorem normalize?_join (p : Path) {r : Path} (hr : r.isAbsolute = false) :
    (p.join r).normalize? = ((p.normalize?.getD ⟨[]⟩).join r).normalize? := by
  rw [normalize?_eq, normalize?_eq ((p.normalize?.getD ⟨[]⟩).join r), resolved_components_join p hr,
    resolved_components_join _ hr, components_normalize?, resolved_of_plain (plain_resolved p.components)]

/-- Resolving `.` and `..`. There is no result exactly if all steps of the path may be left out. A result has the steps
that are left, none of them `.` or `..`; it is absolute if the path is, and resolving changes nothing more. If a path
that is not absolute is appended then the first may be resolved before. The root is never lost. -/
theorem normalized_path_exact (p : Path) :
    (p.normalize? = none ↔ ReflTransGen Drops p.components []) ∧
    (∀ q, p.normalize? = some q →
      ReflTransGen Drops p.components q.components ∧ .here ∉ q.components ∧ .up ∉ q.components ∧
        q.isAbsolute = p.isAbsolute ∧ q.normalize? = some q) ∧
    (∀ r, r.isAbsolute = false → (p.join r).normalize? = ((p.normalize?.getD ⟨[]⟩).join r).normalize?) ∧
    (p.isAbsolute = true → ∃ q, p.normalize? = some q ∧ q.components.head? = some .root) := by
  have hnormal := components_normalize? p
  have hplain := plain_resolved p.components
  refine ⟨?_, ?_, fun r => normalize?_join p, ?_⟩
  · rw [← resolved_eq_nil_iff, normalize?_eq]
    simp
  · intro q hq
    rw [hq, Option.getD_some] at hnormal
    rw [← hnormal] at hplain
    refine ⟨hnormal ▸ drops_resolved p.components, fun h => (hplain _ h).2 rfl, fun h => (hplain _ h).1 rfl, ?_, ?_⟩
    · rw [Bool.eq_iff_iff, ← root_mem_components, hnormal, root_mem_resolved]
    · rw [← hq, normalize?_eq, normalize?_eq, resolved_of_plain hplain, hnormal]
  · intro habsolute
    obtain ⟨names, hresolved, -⟩ := exists_resolved_components p
    rw [habsolute, if_pos rfl, List.singleton_append] at hresolved
    have hsome : p.normalize? = some (ofComponents (resolved p.components)) := by
      rw [normalize?_eq, if_neg (by rw [hresolved]; exact List.cons_ne_nil _ _)]
    rw [hsome, Option.getD_some, hresolved] at hnormal
    exact ⟨_, hsome, by rw [hresolved, hnormal, List.head?_cons]⟩

/-- More `..` than names lead to the root and not beyond it. -/
theorem climbing_path_normalized :
    let p := Path.ofText "/a/.//../../b"
    let q := Path.ofText "/b"
    let r := Path.ofText "../c/."
    r.isAbsolute = false ∧ p.isAbsolute = true ∧ p.normalize? = some q ∧
      ReflTransGen Drops [.root, .name [0x61], .up, .up, .name [0x62]] [.root, .name [0x62]] ∧
      (p.join r).normalize? = (q.join r).normalize? ∧ (q.join r).normalize? = some (.ofText "/c") := by
  intro p q r
  have hr : r.isAbsolute = false := by decide +kernel
  have hq : p.normalize? = some q := by decide +kernel
  obtain ⟨-, hsome, hjoin, -⟩ := normalized_path_exact p
  have happended := hjoin r hr
  rw [hq, Option.getD_some] at happended
  exact ⟨hr, by decide +kernel, hq, (hsome q hq).1, happended, by decide +kernel⟩

end SqfIndex.Path
