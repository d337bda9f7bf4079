import SqfIndex.Preprocess.Chunk
import SqfIndex.Preprocess.Fragment
import SqfIndex.Proofs.Text.Standing

/-!
# Lines, chunks and fragments

A text falls into lines, lines make up chunks, and a line of code falls into fragments. Nothing is lost
on the way: `flatten_rawLines`, `flatMap_text_chunks`, `flatMap_written_fragments`.
-/

namespace SqfIndex

open Text (width StandsAt)

/-! ## Lines -/

theorem Text.flatten_rawLines (cs : List Char) : (rawLines cs).flatten = cs := by
  fun_induction rawLines cs with
  | case1 => rfl
  | case2 cs ih => simp [ih]
  | case3 c cs hc hnil ih =>
      rw [hnil] at ih
      simp [← ih]
  | case4 c cs hc l ls hcons ih =>
      rw [hcons] at ih
      simp [← ih]

theorem Text.rawLines_ne_nil {cs l : List Char} (h : l ∈ rawLines cs) : l ≠ [] := by
  fun_induction rawLines cs with
  | case1 => cases h
  | case2 cs ih =>
      rcases List.mem_cons.mp h with rfl | h
      · simp
      · exact ih h
  | case3 => simp_all
  | case4 c cs hc l' ls hcons ih =>
      rcases List.mem_cons.mp h with rfl | h
      · simp
      · exact ih (hcons ▸ List.mem_cons_of_mem _ h)

/-- Every line but the last ends in a line feed. -/
theorem Text.getLast?_of_rawLines {cs : List Char} {before after : List (List Char)} {l : List Char}
    (h : rawLines cs = before ++ l :: after) (hne : after ≠ []) : l.getLast? = some '\n' := by
  fun_induction rawLines cs generalizing before l with
  | case1 => simp at h
  | case2 cs ih =>
      cases before with
      | nil => cases h; rfl
      | cons b before =>
          rw [List.cons_append, List.cons.injEq] at h
          exact ih h.2
  | case3 c cs hc hnil ih =>
      cases before with
      | nil => cases h; exact absurd rfl hne
      | cons b before => simp at h
  | case4 c cs hc l' ls hcons ih =>
      have hl' : l' ≠ [] := @rawLines_ne_nil cs l' (hcons ▸ List.mem_cons_self)
      cases before with
      | nil =>
          rw [List.nil_append, List.cons.injEq] at h
          obtain ⟨rfl, rfl⟩ := h
          obtain ⟨d, l'', rfl⟩ := List.exists_cons_of_ne_nil hl'
          have hlast := @ih [] _ hcons
          rwa [List.getLast?_cons_cons]
      | cons b before =>
          rw [List.cons_append, List.cons.injEq] at h
          exact @ih (l' :: before) _ (hcons.trans (by rw [h.2]; rfl))

namespace Preprocess

/-! ## Chunks -/

theorem flatMap_text_chunksFrom (begun : Option (List Char)) (ls : List (List Char)) :
    (chunksFrom begun ls).flatMap Chunk.text = begun.getD [] ++ ls.flatten := by
  fun_induction chunksFrom begun ls with
  | case1 => rfl
  | case2 d => simp [Chunk.text]
  | case3 l ls _ _ ih => simp [ih]
  | case4 l ls _ _ ih => simp [ih, Chunk.text]
  | case5 l ls _ ih => simp [ih, Chunk.text]
  | case6 d l ls _ ih => simp [ih]
  | case7 d l ls _ ih => simp [ih, Chunk.text]

theorem flatMap_text_chunks (text : List Char) : (chunks text).flatMap Chunk.text = text := by
  simp [chunks, flatMap_text_chunksFrom, Text.flatten_rawLines]

/-- The chunk `c` begins at byte `offset` of a text. -/
def HasChunk (text : List Char) (offset : Nat) (c : Chunk) : Prop :=
  ∃ before after, chunks text = before ++ c :: after ∧ offset = width (before.flatMap Chunk.text)

theorem HasChunk.standsAt {text : List Char} {offset : Nat} {c : Chunk} (h : HasChunk text offset c) :
    StandsAt text offset c.text := by
  obtain ⟨before, after, hc, rfl⟩ := h
  refine ⟨before.flatMap Chunk.text, after.flatMap Chunk.text, ?_, rfl⟩
  rw [← flatMap_text_chunks text, hc]
  simp

/-! ## Invocations -/

theorem readArguments_suffix {depth : Nat} {cs after : List Char} {args : List (List Char)}
    (h : readArguments depth cs = some (args, after)) : ∃ used, cs = used ++ after := by
  fun_induction readArguments depth cs generalizing args after with
  | case1 => simp at h
  | case2 depth c rest _ ih | case4 depth c rest _ _ _ ih | case5 depth c rest _ _ _ ih | case6 depth c rest _ _ _ ih =>
      simp only [Option.map_eq_some_iff, Prod.exists, Prod.mk.injEq] at h
      obtain ⟨_, _, h, _, rfl⟩ := h
      obtain ⟨used, rfl⟩ := ih h
      exact ⟨c :: used, rfl⟩
  | case3 depth c rest =>
      simp only [Option.some.injEq, Prod.mk.injEq] at h
      exact ⟨[c], by simp [h.2]⟩

theorem Macro.written_invoke? {m : Macro} {after : List Char} {i : Invocation} (h : m.invoke? after = some i) :
    i.written ++ i.after = m.name ++ after := by
  unfold Macro.invoke? at h
  split at h
  · cases h; rfl
  · split at h
    · simp only [Option.map_eq_some_iff, Prod.exists] at h
      obtain ⟨args, rest, h, rfl⟩ := h
      obtain ⟨used, rfl⟩ := readArguments_suffix h
      simp
    · cases h

theorem Macro.expansion_of_params_none {m : Macro} {after : List Char} {i : Invocation} (hp : m.params = none)
    (h : m.invoke? after = some i) : i.expansion = m.body := by
  unfold Macro.invoke? at h
  rw [hp] at h
  cases h; rfl

theorem Macros.find?_some {ms : Macros} {name : List Char} {m : Macro} (h : ms.find? name = some m) :
    m ∈ ms ∧ m.name = name :=
  ⟨List.mem_of_find?_eq_some h, by simpa using List.find?_some h⟩

/-! ## Fragments -/

/-- Every fragment of a line is text of it, or an invocation of a macro in force. -/
def Fragment.Valid (ms : Macros) : Fragment → Prop
  | plain text => text ≠ []
  | invocation m written expansion =>
    m ∈ ms ∧ m.name ≠ [] ∧ ∃ after i, m.invoke? after = some i ∧ written = i.written ∧ expansion = i.expansion

theorem valid_of_mem_fragments (ms : Macros) (line : List Char) : ∀ f ∈ fragments ms line, f.Valid ms := by
  fun_induction fragments ms line with
  | case1 => simp
  | case2 c rest hq hc => simp [Fragment.Valid]
  | case3 c rest hq q after hc ih => simpa [Fragment.Valid] using ih
  | case4 c rest => simp [Fragment.Valid]
  | case5 c rest _ _ _ name after m i found ih =>
      simp only [Option.bind_eq_some_iff, Option.map_eq_some_iff, Prod.mk.injEq] at found
      obtain ⟨m', hm, i', hi, rfl, rfl⟩ := found
      obtain ⟨hmem, hname⟩ := Macros.find?_some hm
      have hv : (Fragment.invocation m' i'.written i'.expansion).Valid ms :=
        ⟨hmem, by simp [hname, name], _, _, hi, rfl, rfl⟩
      exact List.forall_mem_cons.mpr ⟨hv, ih⟩
  | case6 c rest _ _ _ name after _ ih => exact List.forall_mem_cons.mpr ⟨by simp [Fragment.Valid, name], ih⟩
  | case7 c rest _ _ _ ih => exact List.forall_mem_cons.mpr ⟨by simp [Fragment.Valid], ih⟩

theorem flatMap_written_fragments (ms : Macros) (line : List Char) :
    (fragments ms line).flatMap Fragment.written = line := by
  fun_induction fragments ms line with
  | case1 => rfl
  | case2 => simp [Fragment.written]
  | case3 c rest hq q after hc ih =>
      have hsplit := List.takeWhile_append_dropWhile (p := (· != c)) (l := rest)
      rw [hc] at hsplit
      simp [Fragment.written, ih, hsplit]
  | case4 => simp [Fragment.written]
  | case5 c rest _ _ _ name after m i found ih =>
      simp only [Option.bind_eq_some_iff, Option.map_eq_some_iff, Prod.mk.injEq] at found
      obtain ⟨m', hm, i', hi, rfl, rfl⟩ := found
      have hw := Macro.written_invoke? hi
      rw [(Macros.find?_some hm).2] at hw
      simp only [List.flatMap_cons, Fragment.written, ih, hw]
      simp [name, after]
  | case6 c rest _ _ _ name after _ ih => simp [Fragment.written, ih, name, after]
  | case7 c rest _ _ _ ih => simp [Fragment.written, ih]

end Preprocess

end SqfIndex
