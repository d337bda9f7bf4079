import Mathlib.Data.List.Basic
import Mathlib.Data.List.TakeWhile
import SqfIndex.Preprocess.Macro
import SqfIndex.Proofs.Script.Tokens

/-!
# Arguments in place of parameters

Parameters are put into the body of a macro one after the other, and each of these passes goes over the whole text
once more, also over arguments that are in it already. Word by word, a parameter is replaced by its argument, in
which the parameters after it are replaced in turn: `putIn_eq`. That is the same as putting all in at once where no
argument mentions a later parameter, and need not be elsewhere: `arguments_put_in_turn`,
`later_parameter_captured`.
-/

namespace SqfIndex

/-! ## Words of a text -/

namespace Script

theorem words_of_start {c : Char} (hc : isWordStart c = true) (rest : List Char) :
    words (c :: rest) = (c :: rest.takeWhile isWordChar) :: words (rest.dropWhile isWordChar) := by
  rw [words, if_pos hc]

theorem words_of_other {c : Char} (hc : isWordStart c = false) (rest : List Char) :
    words (c :: rest) = [c] :: words rest := by
  rw [words, if_neg (by simp [hc])]

theorem isWordStart_of_isWordChar_eq_false {c : Char} (h : isWordChar c = false) : isWordStart c = false := by
  cases hc : isWordStart c with
  | false => rfl
  | true => rw [isWordChar_of_isWordStart hc] at h; cases h

theorem flatten_words (cs : List Char) : (words cs).flatten = cs := by
  fun_induction words cs with
  | case1 => rfl
  | case2 c rest hc ih => simp [ih]
  | case3 c rest hc ih => simp [ih]

/-- A word is a longest identifier or a single character that begins none. -/
theorem mem_words_cases {cs w : List Char} (h : w ∈ words cs) :
    isIdentifier w = true ∨ ∃ c, w = [c] ∧ isWordStart c = false := by
  fun_induction words cs with
  | case1 => cases h
  | case2 c rest hc ih =>
      rcases List.mem_cons.mp h with rfl | h
      · exact Or.inl (by simp [isIdentifier, hc])
      · exact ih h
  | case3 c rest hc ih =>
      rcases List.mem_cons.mp h with rfl | h
      · exact Or.inr ⟨c, rfl, by simpa using hc⟩
      · exact ih h

theorem words_of_isIdentifier {w : List Char} (h : isIdentifier w = true) : words w = [w] := by
  cases w with
  | nil => cases h
  | cons c w =>
      simp only [isIdentifier, Bool.and_eq_true, List.all_eq_true] at h
      rw [words_of_start h.1, List.takeWhile_eq_self_iff.mpr h.2, List.dropWhile_eq_nil_iff.mpr h.2, words]

theorem words_of_mem_words {cs w : List Char} (h : w ∈ words cs) : words w = [w] := by
  rcases mem_words_cases h with h | ⟨c, rfl, hc⟩
  · exact words_of_isIdentifier h
  · rw [words_of_other hc, words]

theorem cut_append {p : Char → Bool} (as : List Char) {bs : List Char} (h : ∀ c, bs.head? = some c → p c = false) :
    (as ++ bs).takeWhile p = as.takeWhile p ∧ (as ++ bs).dropWhile p = as.dropWhile p ++ bs := by
  induction as with
  | nil =>
      cases bs with
      | nil => exact ⟨rfl, rfl⟩
      | cons b bs => simp [h b rfl]
  | cons a as ih => cases ha : p a <;> simp [ha, ih]

/-- Texts can be split apart where no word goes on. -/
theorem words_append (as : List Char) {bs : List Char} (h : ∀ c, bs.head? = some c → isWordChar c = false) :
    words (as ++ bs) = words as ++ words bs := by
  fun_induction words as with
  | case1 => rfl
  | case2 c rest hc ih =>
      obtain ⟨htake, hdrop⟩ := cut_append rest h
      rw [List.cons_append, words_of_start hc, htake, hdrop, ih, List.cons_append]
  | case3 c rest hc ih => rw [List.cons_append, words_of_other (by simpa using hc), ih, List.cons_append]

variable {f : List Char → List Char}

theorem head?_flatMap_words (hf : ∀ c, isWordStart c = false → f [c] = [c]) {cs : List Char}
    (h : ∀ c, cs.head? = some c → isWordChar c = false) {d : Char} (hd : ((words cs).flatMap f).head? = some d) :
    isWordChar d = false := by
  cases cs with
  | nil =>
      rw [words] at hd
      cases hd
  | cons c cs =>
      have hc := isWordStart_of_isWordChar_eq_false (h c rfl)
      rw [words_of_other hc, List.flatMap_cons, hf c hc] at hd
      exact Option.some.inj hd ▸ h c rfl

/-- If words are replaced, the words of the result are those of what they are replaced by. Between two words stands a
character that belongs to none, so that nothing grows together. -/
theorem words_flatMap_words (hf : ∀ c, isWordStart c = false → f [c] = [c]) (cs : List Char) :
    words ((words cs).flatMap f) = (words cs).flatMap fun w => words (f w) := by
  fun_induction words cs with
  | case1 => rw [List.flatMap_nil, words, List.flatMap_nil]
  | case2 c rest hc ih =>
      have hrest : ∀ d, ((words (rest.dropWhile isWordChar)).flatMap f).head? = some d → isWordChar d = false :=
        fun d => head?_flatMap_words hf (fun _ => isWordChar_head?_dropWhile)
      rw [List.flatMap_cons, words_append _ hrest, ih, List.flatMap_cons]
  | case3 c rest hc ih =>
      have hc : isWordStart c = false := by simpa using hc
      rw [List.flatMap_cons, List.flatMap_cons, hf c hc, List.singleton_append, words_of_other hc, ih, words_of_other hc,
        words, List.singleton_append]

end Script

namespace Preprocess

open Script (words isIdentifier isWordStart)

/-! ## Parameters in turn and at once -/

/-- What comes of a word if parameters are put in one after the other: the argument of the first that is called so, in
which those after it are put in. -/
def inTurn : List (List Char × List Char) → List Char → List Char
  | [], w => w
  | (p, a) :: later, w => if isIdentifier w ∧ w = p then (words a).flatMap (inTurn later) else inTurn later w

/-- What comes of a word if parameters are put in all at once: the argument of the first that is called so. -/
def atOnce (pairs : List (List Char × List Char)) (w : List Char) : List Char :=
  if isIdentifier w then ((pairs.find? fun (p, _) => p = w).map (·.2)).getD w else w

/-- The text after one pass for each parameter. -/
def putIn (pairs : List (List Char × List Char)) (text : List Char) : List Char :=
  pairs.foldl (fun text (p, a) => replaceWord p a text) text

theorem substitute_eq (params args : List (List Char)) (body : List Char) :
    substitute params args body = dropPasteMarks (putIn (params.zip (args.map Text.trim)) body) := by
  rw [substitute, putIn, List.zip_map_right, List.foldl_map]
  rfl

theorem isIdentifier_of_mem_words {cs w : List Char} (h : w ∈ words cs) :
    isIdentifier w = w.head?.any isWordStart := by
  rcases Script.mem_words_cases h with hw | ⟨c, rfl, hc⟩
  · cases w with
    | nil => cases hw
    | cons c w =>
        have hc : isWordStart c = true := by
          simp only [isIdentifier, Bool.and_eq_true] at hw
          exact hw.1
        simp [hw, hc]
  · simp [isIdentifier, hc]

/-- One parameter after the other, word by word. -/
theorem putIn_eq (pairs : List (List Char × List Char)) (text : List Char) :
    putIn pairs text = (words text).flatMap (inTurn pairs) := by
  induction pairs generalizing text with
  | nil =>
      show text = (words text).flatMap fun w => w
      rw [List.flatMap_id', Script.flatten_words]
  | cons pair later ih =>
      obtain ⟨p, a⟩ := pair
      have hsingle (c : Char) (hc : isWordStart c = false) :
          (if ([c] : List Char).head?.any isWordStart && [c] == p then a else [c]) = [c] := by simp [hc]
      calc putIn ((p, a) :: later) text
          = putIn later (replaceWord p a text) := rfl
        _ = (words (replaceWord p a text)).flatMap (inTurn later) := ih _
        _ = (words text).flatMap fun w =>
              (words (if w.head?.any isWordStart && w == p then a else w)).flatMap (inTurn later) := by
            rw [replaceWord, Script.words_flatMap_words hsingle, List.flatMap_assoc]
        _ = (words text).flatMap (inTurn ((p, a) :: later)) := by
            refine List.flatMap_congr ?_
            intro w hw
            rw [← isIdentifier_of_mem_words hw, inTurn]
            by_cases hp : isIdentifier w = true ∧ w = p
            · rw [if_pos hp, if_pos (by simpa using hp)]
            · rw [if_neg hp, if_neg (by simpa using hp), Script.words_of_mem_words hw, List.flatMap_singleton]

/-! ## When the order does not show -/

theorem inTurn_of_notMem {pairs : List (List Char × List Char)} {w : List Char} (h : ∀ pair ∈ pairs, pair.1 ≠ w) :
    inTurn pairs w = w := by
  induction pairs with
  | nil => rfl
  | cons pair later ih =>
      obtain ⟨hp, hlater⟩ := List.forall_mem_cons.mp h
      rw [inTurn, if_neg (fun hw => hp hw.2.symm), ih hlater]

theorem inTurn_eq_atOnce {pairs : List (List Char × List Char)} {w : List Char}
    (h : pairs.Pairwise fun early late => early.1 = w → late.1 ∉ words early.2) : inTurn pairs w = atOnce pairs w := by
  induction pairs with
  | nil => simp [inTurn, atOnce]
  | cons pair later ih =>
      obtain ⟨p, a⟩ := pair
      obtain ⟨hargument, hlater⟩ := List.pairwise_cons.mp h
      by_cases hp : isIdentifier w = true ∧ w = p
      · obtain ⟨hw, rfl⟩ := hp
        have hkept : ∀ q ∈ words a, inTurn later q = q := by
          intro q hq
          exact inTurn_of_notMem fun late hlate hname => hargument late hlate rfl (hname ▸ hq)
        rw [inTurn, if_pos ⟨hw, rfl⟩, List.flatMap_congr hkept, List.flatMap_id', Script.flatten_words]
        simp [atOnce, hw]
      · rw [inTurn, if_neg hp, ih hlater]
        by_cases hw : isIdentifier w = true
        · have hne : p ≠ w := fun hname => hp ⟨hw, hname.symm⟩
          simp [atOnce, hne]
        · simp [atOnce, hw]

/-- What a macro with parameters turns into: each word of its body that is the name of a parameter is replaced by the
argument, and in the argument the parameters after it are replaced in turn. If no argument that is put in mentions a
later parameter, then all parameters are replaced at once. -/
theorem arguments_put_in_turn {m : Macro} {params args : List (List Char)} {after rest : List Char}
    (hparams : m.params = some params) (hopen : after.head? = some '(')
    (hargs : readArguments 0 after = some (args, rest)) :
    let pairs := params.zip (args.map Text.trim)
    ∃ i, m.invoke? after = some i ∧ i.after = rest ∧
      i.expansion = dropPasteMarks ((words m.body).flatMap (inTurn pairs)) ∧
      ((pairs.Pairwise fun early late => early.1 ∈ words m.body → late.1 ∉ words early.2) →
        i.expansion = dropPasteMarks ((words m.body).flatMap (atOnce pairs))) := by
  intro pairs
  have hexpansion : substitute params args m.body = dropPasteMarks ((words m.body).flatMap (inTurn pairs)) := by
    rw [substitute_eq, putIn_eq]
  refine ⟨⟨substitute params args m.body, m.name ++ after.take (after.length - rest.length), rest⟩, ?_, rfl, hexpansion, ?_⟩
  · rw [Macro.invoke?, hparams]
    simp only [hopen, hargs, ↓reduceIte, Option.map_some]
  · intro hapart
    have hwords : ∀ w ∈ words m.body, inTurn pairs w = atOnce pairs w := by
      intro w hw
      refine inTurn_eq_atOnce (hapart.imp ?_)
      intro early late hmentions hname
      exact hmentions (hname ▸ hw)
    rw [← List.flatMap_congr hwords]
    exact hexpansion

/-- `#define F(x,y) x y` -/
def spaced : Macro where
  name := "F".toList
  params := some ["x".toList, "y".toList]
  body := "x y".toList
  file := .ofText "/a.sqf"
  offset := 15
  extent := 3

/-- An argument may mention an earlier parameter. -/
theorem spaced_earlier_mentioned :
    readArguments 0 "(1, x);".toList = some (["1".toList, " x".toList], ";".toList) ∧
      ∃ i, spaced.invoke? "(1, x);".toList = some i ∧ i.after = ";".toList ∧ i.expansion = "1 x".toList ∧
        i.expansion =
          dropPasteMarks ((words spaced.body).flatMap (atOnce [("x".toList, "1".toList), ("y".toList, "x".toList)])) := by
  have hargs : readArguments 0 "(1, x);".toList = some (["1".toList, " x".toList], ";".toList) := by decide +kernel
  obtain ⟨i, hi, hafter, hturn, honce⟩ := arguments_put_in_turn (m := spaced) rfl (by decide +kernel) hargs
  exact ⟨hargs, i, hi, hafter, hturn.trans (by decide +kernel), honce (by decide +kernel)⟩

/-- An argument that mentions a later parameter does not stay as it is. -/
theorem later_parameter_captured :
    spaced.params = some ["x".toList, "y".toList] ∧ ["x".toList, "y".toList].Nodup ∧
      (∀ p ∈ ["x".toList, "y".toList], isIdentifier p = true) ∧
      readArguments 0 "(y,1)".toList = some (["y".toList, "1".toList], []) ∧
      dropPasteMarks ((words spaced.body).flatMap (atOnce [("x".toList, "y".toList), ("y".toList, "1".toList)])) =
        "y 1".toList ∧
      (spaced.invoke? "(y,1)".toList).map (·.expansion) = some "1 1".toList := by
  decide +kernel

end Preprocess

end SqfIndex
