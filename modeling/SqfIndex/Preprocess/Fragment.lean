import SqfIndex.Preprocess.Macro
import SqfIndex.Script.Lexer

/-!
A line of code as a row of fragments: text that stays, and invocations of macros. Quoted text and
what follows `//` stays as it is; a quote reaches at most to the end of its line.
-/

namespace SqfIndex.Preprocess

inductive Fragment
  | plain (text : List Char)
  | invocation (m : Macro) (written expansion : List Char)
deriving DecidableEq, Repr

/-- The text of the line that a fragment takes up. -/
def Fragment.written : Fragment → List Char
  | plain text => text
  | invocation _ written _ => written

theorem length_readArguments {depth : Nat} {cs after : List Char} {args : List (List Char)}
    (h : readArguments depth cs = some (args, after)) : after.length < cs.length := by
  fun_induction readArguments depth cs generalizing args after with
  | case1 => simp at h
  | case2 depth c rest _ ih =>
    simp only [Option.map_eq_some_iff, Prod.exists, Prod.mk.injEq] at h
    obtain ⟨a, b, h, _, rfl⟩ := h
    exact Nat.lt_succ_of_lt (ih h)
  | case3 => simp_all
  | case4 depth c rest _ _ _ ih =>
    simp only [Option.map_eq_some_iff, Prod.exists, Prod.mk.injEq] at h
    obtain ⟨a, b, h, _, rfl⟩ := h
    exact Nat.lt_succ_of_lt (ih h)
  | case5 depth c rest _ _ _ ih =>
    simp only [Option.map_eq_some_iff, Prod.exists, Prod.mk.injEq] at h
    obtain ⟨a, b, h, _, rfl⟩ := h
    exact Nat.lt_succ_of_lt (ih h)
  | case6 depth c rest _ _ _ ih =>
    simp only [Option.map_eq_some_iff, Prod.exists, Prod.mk.injEq] at h
    obtain ⟨a, b, h, _, rfl⟩ := h
    exact Nat.lt_succ_of_lt (ih h)

theorem length_invoke? {m : Macro} {after : List Char} {i : Invocation} (h : m.invoke? after = some i) :
    i.after.length ≤ after.length := by
  unfold Macro.invoke? at h
  split at h
  · simp only [Option.some.injEq] at h
    simp [← h]
  · split at h
    · simp only [Option.map_eq_some_iff, Prod.exists] at h
      obtain ⟨args, rest, h, rfl⟩ := h
      exact Nat.le_of_lt (length_readArguments h)
    · simp at h

/-- The fragments of a line under the macros in force. -/
def fragments (ms : Macros) (line : List Char) : List Fragment :=
  match line with
  | [] => []
  | c :: rest =>
    if Script.isQuote c then
      match _close : rest.dropWhile (· != c) with
      | [] => [.plain (c :: rest)]
      | q :: after => .plain (c :: rest.takeWhile (· != c) ++ [q]) :: fragments ms after
    else if c = '/' ∧ rest.head? = some '/' then [.plain (c :: rest)]
    else if Script.isWordStart c then
      let name := c :: rest.takeWhile Script.isWordChar
      let after := rest.dropWhile Script.isWordChar
      match _found : (ms.find? name).bind fun m => (m.invoke? after).map fun i => (m, i) with
      | some (m, i) => .invocation m i.written i.expansion :: fragments ms i.after
      | none => .plain name :: fragments ms after
    else .plain [c] :: fragments ms rest
termination_by line.length
decreasing_by
  · have := (List.dropWhile_sublist (· != c) (l := rest)).length_le
    simp only [_close, List.length_cons] at this ⊢
    omega
  · have : after.length ≤ rest.length := (List.dropWhile_sublist Script.isWordChar).length_le
    simp only [Option.bind_eq_some_iff, Option.map_eq_some_iff, Prod.mk.injEq] at _found
    obtain ⟨_, _, _, h, rfl, rfl⟩ := _found
    have := length_invoke? h
    simp only [List.length_cons]
    omega
  · have := (List.dropWhile_sublist Script.isWordChar (l := rest)).length_le
    simp only [List.length_cons]
    omega
  · simp

end SqfIndex.Preprocess
