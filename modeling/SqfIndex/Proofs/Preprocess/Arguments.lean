import SqfIndex.Preprocess.Macro
import SqfIndex.Proofs.Text.Standing

/-!
# Where a list of arguments ends

Brackets of all kinds count alike. A list of arguments is the shortest start of a text that closes as many brackets as
it opens, and the arguments are what stands between its first and its last character, divided at the commas that no
further bracket encloses: `arguments_end_with_list`. The depth at which a character is read is the number of brackets
open before it, so what is read from some depth on keeps it above zero up to the bracket that ends the list; `Enclosed`
says that of the text and of the commas in it.
-/

namespace SqfIndex

namespace Text

theorem joinWith_cons {α : Type} (sep piece : List α) {pieces : List (List α)} (h : pieces ≠ []) :
    joinWith sep (piece :: pieces) = piece ++ sep ++ joinWith sep pieces := by
  cases pieces with
  | nil => exact absurd rfl h
  | cons next pieces => simp [joinWith]

end Text

namespace Preprocess

/-! ## Counting brackets -/

/-- A start of a text that is not empty and closes as many brackets as it opens, of whatever kinds. -/
def EvenStart (text start : List Char) : Prop :=
  start <+: text ∧ start ≠ [] ∧ start.countP closes = start.countP opens

theorem closes_eq_false_of_opens {c : Char} (h : opens c = true) : closes c = false := by
  simp only [opens, Bool.or_eq_true, beq_iff_eq] at h
  rcases h with (rfl | rfl) | rfl <;> rfl

theorem utf8Size_of_closes {c : Char} (h : closes c = true) : c.utf8Size = 1 := by
  simp only [closes, Bool.or_eq_true, beq_iff_eq] at h
  rcases h with (rfl | rfl) | rfl <;> rfl

/-- The depths before and after a character. -/
def StepsTo (depth : Nat) (c : Char) (depth' : Nat) : Prop :=
  depth' + [c].countP closes = depth + [c].countP opens

section

variable {c : Char} {depth depth' : Nat}

theorem StepsTo.of_opens (h : opens c = true) : StepsTo depth c (depth + 1) := by
  simp [StepsTo, h, closes_eq_false_of_opens h]

theorem StepsTo.of_closes (ho : ¬opens c = true) (h : closes c = true) (hdepth : 0 < depth) : StepsTo depth c (depth - 1) := by
  simp [StepsTo, h, ho]
  omega

theorem StepsTo.of_other (ho : ¬opens c = true) (h : ¬closes c = true) : StepsTo depth c depth := by
  simp [StepsTo, h, ho]

/-- Read from some depth on, a text does not close the bracket that was opened first. -/
def Inside (depth : Nat) (cs : List Char) : Prop := ∀ start, start <+: cs → start.countP closes < start.countP opens + depth

theorem Inside.nil (h : 0 < depth) : Inside depth [] := by
  intro start hstart
  rw [List.prefix_nil.mp hstart]
  simpa using h

theorem Inside.cons {cs : List Char} (hc : StepsTo depth c depth') (h : 0 < depth) (hcs : Inside depth' cs) :
    Inside depth (c :: cs) := by
  intro start hstart
  rcases List.prefix_cons_iff.mp hstart with rfl | ⟨tail, rfl, htail⟩
  · simpa using h
  · have hlater := hcs tail htail
    rw [← List.singleton_append, List.countP_append, List.countP_append]
    unfold StepsTo at hc
    omega

/-- Read from some depth on, a text has no comma right inside the list. -/
def Guarded (depth : Nat) (arg : List Char) : Prop :=
  ∀ before after, arg = before ++ ',' :: after → before.countP closes + 1 < before.countP opens + depth

theorem Guarded.nil : Guarded depth [] := by
  intro before after h
  cases before <;> cases h

theorem Guarded.cons {arg : List Char} (hc : StepsTo depth c depth') (hcomma : c = ',' → 1 < depth)
    (harg : Guarded depth' arg) : Guarded depth (c :: arg) := by
  intro before after h
  cases before with
  | nil =>
      have hlow := hcomma (List.cons.inj h).1
      simpa using hlow
  | cons d before =>
      obtain ⟨rfl, hrest⟩ := List.cons.inj h
      have hlater := harg before after hrest
      rw [← List.singleton_append, List.countP_append, List.countP_append]
      unfold StepsTo at hc
      omega

/-! ## Reading on from a depth -/

/-- What is read from some depth on before the bracket that ends the list, and the arguments into which it is divided.
The first of them goes on with what was read before. -/
structure Enclosed (depth : Nat) (inner : List Char) (args : List (List Char)) : Prop where
  joined : Text.joinWith [','] args = inner
  inside : Inside depth inner
  /-- All brackets are closed but the one that the list begins with. -/
  level : inner.countP closes + 1 = inner.countP opens + depth
  guarded : ∃ first others, args = first :: others ∧ Guarded depth first ∧ ∀ arg ∈ others, Guarded 1 arg

namespace Enclosed

variable {inner : List Char} {args : List (List Char)}

theorem nil : Enclosed 1 [] [[]] where
  joined := rfl
  inside := .nil Nat.one_pos
  level := rfl
  guarded := ⟨[], [], rfl, .nil, by simp⟩

theorem ne_nil (h : Enclosed depth inner args) : args ≠ [] := by
  obtain ⟨first, others, rfl, -⟩ := h.guarded
  exact List.cons_ne_nil first others

theorem guarded_of_mem (h : Enclosed 1 inner args) : ∀ arg ∈ args, Guarded 1 arg := by
  obtain ⟨first, others, rfl, hfirst, hothers⟩ := h.guarded
  exact List.forall_mem_cons.mpr ⟨hfirst, hothers⟩

theorem level_cons (h : Enclosed depth' inner args) (hc : StepsTo depth c depth') :
    (c :: inner).countP closes + 1 = (c :: inner).countP opens + depth := by
  have hlater := h.level
  rw [← List.singleton_append, List.countP_append, List.countP_append]
  unfold StepsTo at hc
  omega

/-- A character that does not divide belongs to the first argument. -/
theorem cons (h : Enclosed depth' inner args) (hc : StepsTo depth c depth') (hdepth : 0 < depth)
    (hcomma : c = ',' → 1 < depth) : Enclosed depth (c :: inner) (consFirst c args) := by
  have hinside := h.inside.cons hc hdepth
  have hlevel := h.level_cons hc
  obtain ⟨rfl, -, -, first, others, rfl, hfirst, hothers⟩ := h
  refine ⟨?_, hinside, hlevel, c :: first, others, rfl, hfirst.cons hc hcomma, hothers⟩
  cases others <;> simp [consFirst, Text.joinWith]

/-- A comma right inside the list ends an argument. -/
theorem comma (h : Enclosed 1 inner args) : Enclosed 1 (',' :: inner) ([] :: args) where
  joined := by
    rw [Text.joinWith_cons _ _ h.ne_nil, h.joined]
    rfl
  inside := h.inside.cons rfl Nat.one_pos
  level := h.level_cons rfl
  guarded := ⟨[], args, rfl, .nil, h.guarded_of_mem⟩

end Enclosed

end

/-- Arguments that are read end at a bracket which closes the list, and what stands before it is enclosed. -/
theorem enclosed_of_readArguments {depth : Nat} {cs rest : List Char} {args : List (List Char)} (hdepth : 0 < depth)
    (h : readArguments depth cs = some (args, rest)) :
    ∃ inner close, cs = inner ++ close :: rest ∧ closes close = true ∧ Enclosed depth inner args := by
  fun_induction readArguments depth cs generalizing args rest with
  | case1 => cases h
  | case2 depth c cs hopens ih =>
      simp only [Nat.ne_of_gt hdepth, ↓reduceIte, Option.map_eq_some_iff, Prod.exists, Prod.mk.injEq] at h
      obtain ⟨args, rest, h, rfl, rfl⟩ := h
      obtain ⟨inner, close, rfl, hclose, henclosed⟩ := ih (Nat.succ_pos depth) h
      have hcomma : c = ',' → 1 < depth := by
        rintro rfl
        cases hopens
      exact ⟨c :: inner, close, rfl, hclose, henclosed.cons (.of_opens hopens) hdepth hcomma⟩
  | case3 depth c cs hopens hcloses hlow =>
      -- the bracket that ends the list; nothing is enclosed before it yet
      obtain rfl : depth = 1 := by omega
      cases h
      exact ⟨[], c, rfl, hcloses, .nil⟩
  | case4 depth c cs hopens hcloses hlow ih =>
      simp only [Option.map_eq_some_iff, Prod.exists, Prod.mk.injEq] at h
      obtain ⟨args, rest, h, rfl, rfl⟩ := h
      obtain ⟨inner, close, rfl, hclose, henclosed⟩ := ih (by omega) h
      exact ⟨c :: inner, close, rfl, hclose, henclosed.cons (.of_closes hopens hcloses hdepth) hdepth fun _ => by omega⟩
  | case5 depth c cs hopens hcloses hdivides ih =>
      obtain ⟨rfl, rfl⟩ := hdivides
      simp only [Option.map_eq_some_iff, Prod.exists, Prod.mk.injEq] at h
      obtain ⟨args, rest, h, rfl, rfl⟩ := h
      obtain ⟨inner, close, rfl, hclose, henclosed⟩ := ih hdepth h
      exact ⟨',' :: inner, close, rfl, hclose, henclosed.comma⟩
  | case6 depth c cs hopens hcloses hdivides ih =>
      simp only [Option.map_eq_some_iff, Prod.exists, Prod.mk.injEq] at h
      obtain ⟨args, rest, h, rfl, rfl⟩ := h
      obtain ⟨inner, close, rfl, hclose, henclosed⟩ := ih hdepth h
      have hcomma : c = ',' → 1 < depth := by
        intro hc
        have hne : depth ≠ 1 := fun hone => hdivides ⟨hc, hone⟩
        omega
      exact ⟨c :: inner, close, rfl, hclose, henclosed.cons (.of_other hopens hcloses) hdepth hcomma⟩

/-- A text in which no list of arguments ends stays inside it. -/
theorem inside_of_readArguments {depth : Nat} {cs : List Char} (hdepth : 0 < depth) (h : readArguments depth cs = none) :
    Inside depth cs := by
  fun_induction readArguments depth cs with
  | case1 => exact .nil hdepth
  | case2 depth c cs hopens ih =>
      exact (ih (Nat.succ_pos depth) (Option.map_eq_none_iff.mp h)).cons (.of_opens hopens) hdepth
  | case3 => cases h
  | case4 depth c cs hopens hcloses hlow ih =>
      exact (ih (by omega) (Option.map_eq_none_iff.mp h)).cons (.of_closes hopens hcloses hdepth) hdepth
  | case5 depth c cs hopens hcloses hdivides ih | case6 depth c cs hopens hcloses hdivides ih =>
      exact (ih hdepth (Option.map_eq_none_iff.mp h)).cons (.of_other hopens hcloses) hdepth

/-! ## The whole list -/

theorem readArguments_zero (cs : List Char) : readArguments 0 ('(' :: cs) = readArguments 1 cs := by
  have hopens : opens '(' = true := rfl
  rw [readArguments, if_pos hopens]
  exact Option.map_id'

theorem countP_closes_paren (cs : List Char) : ('(' :: cs).countP closes = cs.countP closes :=
  List.countP_cons_of_neg (by decide)

theorem countP_opens_paren (cs : List Char) : ('(' :: cs).countP opens = cs.countP opens + 1 :=
  List.countP_cons_of_pos (by decide)

/-- Where the bracket at the front is not closed, more brackets are open than closed. -/
theorem not_evenStart_of_inside {text cs : List Char} (h : Inside 1 cs) {start : List Char} (hstart : start <+: '(' :: cs) :
    ¬EvenStart text start := by
  rintro ⟨-, hne, heven⟩
  rcases List.prefix_cons_iff.mp hstart with rfl | ⟨tail, rfl, htail⟩
  · exact hne rfl
  · have hopen := h tail htail
    rw [countP_closes_paren, countP_opens_paren] at heven
    omega

theorem Enclosed.shortest {inner : List Char} {args : List (List Char)} (h : Enclosed 1 inner args) {close : Char}
    (hclose : closes close = true) (rest : List Char) :
    EvenStart ('(' :: inner ++ close :: rest) ('(' :: inner ++ [close]) ∧
      ∀ start, EvenStart ('(' :: inner ++ close :: rest) start → '(' :: inner ++ [close] <+: start := by
  have hfront : '(' :: inner ++ [close] <+: '(' :: inner ++ close :: rest := ⟨rest, by simp⟩
  constructor
  · refine ⟨hfront, List.cons_ne_nil _ _, ?_⟩
    have hlevel := h.level
    have hopens : opens close = false := Bool.eq_false_iff.mpr fun hopens => by
      rw [closes_eq_false_of_opens hopens] at hclose
      cases hclose
    rw [List.countP_append, List.countP_append, countP_closes_paren, countP_opens_paren, List.countP_singleton,
      List.countP_singleton, hclose, hopens]
    simpa using hlevel
  · intro start hstart
    -- a shorter start would lie before the bracket that ends the list, where the first one is still open
    rcases List.prefix_or_prefix_of_prefix hfront hstart.1 with hle | hle
    · exact hle
    · rcases List.prefix_concat_iff.mp hle with rfl | hshort
      · exact List.prefix_rfl
      · exact absurd hstart (not_evenStart_of_inside h.inside hshort)

/-- A list of arguments is the shortest start of a text that opens and closes as many brackets. It ends between two
characters of the text; within its first and its last character stand the arguments with commas between them, and a
comma in an argument has an open bracket of that argument before it. If no start of the text is like that then there is
no list of arguments. -/
theorem arguments_end_with_list (text : List Char) (hopen : text.head? = some '(') :
    (∀ args rest, readArguments 0 text = some (args, rest) →
      let n := Text.width text - Text.width rest
      ∃ used close, EvenStart text used ∧ (∀ start, EvenStart text start → used <+: start) ∧
        Text.cutAt? n text = some (used, rest) ∧
        Text.cutAt? (n - 1) text = some ('(' :: Text.joinWith [','] args, close :: rest) ∧
        args ≠ [] ∧
        ∀ arg ∈ args, ∀ before after, arg = before ++ ',' :: after → before.countP closes < before.countP opens) ∧
    (readArguments 0 text = none ↔ ¬∃ start, EvenStart text start) := by
  obtain ⟨cs, rfl⟩ := List.head?_eq_some_iff.mp hopen
  rw [readArguments_zero]
  constructor
  · intro args rest hread n
    obtain ⟨inner, close, rfl, hclose, henclosed⟩ := enclosed_of_readArguments Nat.one_pos hread
    obtain ⟨heven, hshortest⟩ := henclosed.shortest hclose rest
    have hn : n = Text.width ('(' :: inner) + 1 := by
      simp only [n, Text.width_cons, Text.width_append, utf8Size_of_closes hclose]
      omega
    refine ⟨'(' :: inner ++ [close], close, heven, hshortest, ?_, ?_, henclosed.ne_nil, ?_⟩
    · refine Text.cutAt?_eq_some_iff.mpr ⟨by simp, ?_⟩
      rw [hn, Text.width_append, Text.width_cons close, utf8Size_of_closes hclose, Text.width_nil]
    · rw [henclosed.joined, hn, Nat.add_sub_cancel]
      exact Text.cutAt?_eq_some_iff.mpr ⟨rfl, rfl⟩
    · intro arg harg before after hsplit
      exact Nat.lt_of_succ_lt_succ (henclosed.guarded_of_mem arg harg before after hsplit)
  · constructor
    · rintro hnone ⟨start, hstart⟩
      exact not_evenStart_of_inside (inside_of_readArguments Nat.one_pos hnone) hstart.1 hstart
    · intro hodd
      cases hread : readArguments 1 cs with
      | none => rfl
      | some result =>
          obtain ⟨inner, close, rfl, hclose, henclosed⟩ := enclosed_of_readArguments Nat.one_pos hread
          exact absurd ⟨_, (henclosed.shortest hclose result.2).1⟩ hodd

/-- Brackets of different kinds close each other, and characters may take several bytes. -/
theorem mixedList_ends :
    let text := "(é, [1, (2]), (x);) é)".toList
    text.head? = some '(' ∧ readArguments 0 text = some (["é".toList, " [1, (2])".toList, " (x);".toList], " é)".toList) ∧
      ∃ used close, EvenStart text used ∧ (∀ start, EvenStart text start → used <+: start) ∧
        Text.cutAt? 20 text = some (used, " é)".toList) ∧
        Text.cutAt? 19 text = some ("(é, [1, (2]), (x);".toList, close :: " é)".toList) := by
  intro text
  have hopen : text.head? = some '(' := by decide +kernel
  have hread : readArguments 0 text = some (["é".toList, " [1, (2])".toList, " (x);".toList], " é)".toList) := by
    decide +kernel
  obtain ⟨used, close, heven, hshortest, hused, hjoined, -, -⟩ := (arguments_end_with_list text hopen).1 _ _ hread
  exact ⟨hopen, hread, used, close, heven, hshortest, hused, hjoined⟩

end Preprocess

end SqfIndex
