import Mathlib.Data.List.TakeWhile
import SqfIndex.Proofs.Preprocess.Sources
import SqfIndex.Proofs.Preprocess.Tiling
import SqfIndex.Proofs.Script.Mentions

/-!
# Includes that fail

A directive that asks for a text which is not to be had does nothing but report this: were its keyword any
other word of as many letters, the document would come out the same, but for the one error
(`refused_include_leaves_rest`). For this, changing letters within a line changes neither lines nor chunks
(`chunks_reword`), and both directives leave a piece of the same size and the macros as they are.
-/

namespace SqfIndex

open Text (width StandsAt)

/-! ## Lines -/

namespace Text

/-- `l` is a line of its own when `rest` follows it. -/
structure IsLine (l rest : List Char) : Prop where
  ne_nil : l ≠ []
  within : '\n' ∉ l.dropLast
  ends : l.getLast? = some '\n' ∨ rest = []

theorem rawLines_append {l rest : List Char} (h : IsLine l rest) : rawLines (l ++ rest) = l :: rawLines rest := by
  induction l with
  | nil => exact absurd rfl h.ne_nil
  | cons c l ih =>
      cases l with
      | nil =>
          by_cases hc : c = '\n'
          · subst hc
            rfl
          · rcases h.ends with hend | rfl
            · exact absurd (Option.some.inj hend) hc
            · simp [rawLines, hc]
      | cons d l =>
          have hwithin := h.within
          rw [List.dropLast_cons_cons, List.mem_cons, not_or] at hwithin
          have hrest := ih ⟨List.cons_ne_nil d l, hwithin.2, by simpa [List.getLast?_cons_cons] using h.ends⟩
          rw [List.cons_append, rawLines, hrest, if_neg (Ne.symm hwithin.1)]

theorem isLine_of_rawLines {cs l : List Char} {ls : List (List Char)} (h : rawLines cs = l :: ls) :
    IsLine l ls.flatten ∧ rawLines ls.flatten = ls := by
  fun_induction rawLines cs generalizing l with
  | case1 => cases h
  | case2 cs ih =>
      cases h
      exact ⟨⟨by simp, by simp, Or.inl rfl⟩, by rw [flatten_rawLines]⟩
  | case3 c cs hc hnil ih =>
      cases h
      exact ⟨⟨by simp, by simp, Or.inr rfl⟩, rfl⟩
  | case4 c cs hc l' ls' hcons ih =>
      cases h
      obtain ⟨hline, hrest⟩ := ih hcons
      obtain ⟨d, l'', rfl⟩ := List.exists_cons_of_ne_nil hline.ne_nil
      refine ⟨⟨by simp, ?_, ?_⟩, hrest⟩
      · rw [List.dropLast_cons_cons, List.mem_cons, not_or]
        exact ⟨Ne.symm hc, hline.within⟩
      · simpa [List.getLast?_cons_cons] using hline.ends

theorem rawLines_split {cs : List Char} {before after : List (List Char)} (h : rawLines cs = before ++ after) :
    rawLines before.flatten = before ∧ rawLines after.flatten = after := by
  induction before generalizing cs with
  | nil =>
      rw [List.nil_append] at h
      exact ⟨rfl, by rw [← h, flatten_rawLines]⟩
  | cons b before ih =>
      rw [List.cons_append] at h
      obtain ⟨hb, hrest⟩ := isLine_of_rawLines h
      obtain ⟨hbefore, hafter⟩ := ih hrest
      have hline : IsLine b before.flatten := by
        refine ⟨hb.ne_nil, hb.within, hb.ends.imp_right ?_⟩
        intro hnil
        rw [List.flatten_append, List.append_eq_nil_iff] at hnil
        exact hnil.1
      exact ⟨by rw [List.flatten_cons, rawLines_append hline, hbefore], hafter⟩

/-- Another line in the place of one line leaves the others as they are. -/
theorem rawLines_replace {cs l l' : List Char} {before after : List (List Char)}
    (h : rawLines cs = before ++ l :: after) (hl' : IsLine l' after.flatten) :
    rawLines (before.flatten ++ l' ++ after.flatten) = before ++ l' :: after := by
  induction before generalizing cs with
  | nil =>
      obtain ⟨-, hafter⟩ := isLine_of_rawLines h
      rw [List.flatten_nil, List.nil_append, rawLines_append hl', hafter, List.nil_append]
  | cons b before ih =>
      obtain ⟨hb, hrest⟩ := isLine_of_rawLines h
      have hl : l ≠ [] := @rawLines_ne_nil cs l (by simp [h])
      -- more follows, so that the line ends in a line feed
      have hend : b.getLast? = some '\n' := by
        rcases hb.ends with hend | hnil
        · exact hend
        · simp [hl] at hnil
      have hline : IsLine b (before.flatten ++ l' ++ after.flatten) := ⟨hb.ne_nil, hb.within, Or.inl hend⟩
      rw [List.flatten_cons, List.append_assoc, List.append_assoc, ← List.append_assoc before.flatten,
        rawLines_append hline, ih hrest, List.cons_append]

theorem IsLine.reword {front word word' back rest : List Char} (h : IsLine (front ++ word ++ back) rest)
    (hne : word ≠ []) (hne' : word' ≠ []) (hword : '\n' ∉ word) (hword' : '\n' ∉ word') :
    IsLine (front ++ word' ++ back) rest := by
  obtain ⟨-, hwithin, hends⟩ := h
  refine ⟨by simp [hne'], ?_, ?_⟩
  · cases back with
    | nil =>
        simp only [List.append_nil, List.dropLast_append_of_ne_nil hne] at hwithin
        simp only [List.append_nil, List.dropLast_append_of_ne_nil hne', List.mem_append, not_or] at hwithin ⊢
        exact ⟨hwithin.1, fun hmem => hword' (List.dropLast_subset _ hmem)⟩
    | cons b back =>
        rw [List.dropLast_append_of_ne_nil (List.cons_ne_nil b back)] at hwithin ⊢
        simp only [List.mem_append, not_or] at hwithin ⊢
        exact ⟨⟨hwithin.1.1, hword'⟩, hwithin.2⟩
  · cases back with
    | nil =>
        rw [List.append_nil, List.getLast?_append_of_ne_nil _ hne] at hends
        rcases hends with hend | hnil
        · exact absurd (List.mem_of_getLast? hend) hword
        · exact Or.inr hnil
    | cons b back =>
        rwa [List.getLast?_append_of_ne_nil _ (List.cons_ne_nil b back)] at hends ⊢

end Text

namespace Preprocess

/-! ## Chunks -/

theorem isDirective_eq (l : List Char) : isDirective l = (l.find? (fun c => !Text.isSpace c) == some '#') := by
  rw [List.find?_not_eq_head?_dropWhile]
  rfl

theorem isContinued_eq (l : List Char) : isContinued l = (l.reverse.find? (fun c => !Text.isSpace c) == some '\\') := by
  rw [List.find?_not_eq_head?_dropWhile, isContinued, Text.trimEnd, Text.dropEndWhile, List.getLast?_reverse]

/-- What goes on with a directive that was begun does not depend on how it was begun. -/
theorem chunksFrom_begun (ls : List (List Char)) :
    ∃ tail rest, ∀ d, chunksFrom (some d) ls = .directive (d ++ tail) :: rest := by
  induction ls with
  | nil => exact ⟨[], [], fun d => by rw [chunksFrom, List.append_nil]⟩
  | cons l ls ih =>
      obtain ⟨tail, rest, ih⟩ := ih
      by_cases hl : isContinued l = true
      · exact ⟨l ++ tail, rest, fun d => by rw [chunksFrom, if_pos hl, ih, List.append_assoc]⟩
      · exact ⟨l, chunksFrom none ls, fun d => by rw [chunksFrom, if_neg hl]⟩

/-- A line goes to a directive that is still open after it, or completes a chunk. -/
theorem chunksFrom_step (begun : Option (List Char)) (l : List Char) :
    (∃ d, ∀ ls, chunksFrom begun (l :: ls) = chunksFrom (some d) ls) ∨
      ∃ c, ∀ ls, chunksFrom begun (l :: ls) = c :: chunksFrom none ls := by
  by_cases hcontinued : isContinued l = true
  · cases begun with
    | none =>
        by_cases hl : isDirective l = true
        · exact Or.inl ⟨l, fun ls => by rw [chunksFrom, if_pos hl, if_pos hcontinued]⟩
        · exact Or.inr ⟨.code l, fun ls => by rw [chunksFrom, if_neg hl]⟩
    | some d => exact Or.inl ⟨d ++ l, fun ls => by rw [chunksFrom, if_pos hcontinued]⟩
  · cases begun with
    | none =>
        by_cases hl : isDirective l = true
        · exact Or.inr ⟨.directive l, fun ls => by rw [chunksFrom, if_pos hl, if_neg hcontinued]⟩
        · exact Or.inr ⟨.code l, fun ls => by rw [chunksFrom, if_neg hl]⟩
    | some d => exact Or.inr ⟨.directive (d ++ l), fun ls => by rw [chunksFrom, if_neg hcontinued]⟩

/-- Before a chunk the lines are over and done with. -/
theorem chunksFrom_split {begun : Option (List Char)} {ls : List (List Char)} {before after : List Chunk} {c : Chunk}
    (h : chunksFrom begun ls = before ++ c :: after) (hbegun : begun = none ∨ before ≠ []) :
    ∃ front l back, ls = front ++ l :: back ∧
      (∀ rest, chunksFrom begun (front ++ rest) = before ++ chunksFrom none rest) ∧
      chunksFrom none (l :: back) = c :: after := by
  induction ls generalizing begun before with
  | nil =>
      cases begun with
      | none => simp [chunksFrom] at h
      | some d =>
          obtain ⟨b, before, rfl⟩ := List.exists_cons_of_ne_nil (hbegun.resolve_left (by simp))
          simp [chunksFrom] at h
  | cons l ls ih =>
      by_cases hbefore : before = []
      · subst hbefore
        obtain rfl : begun = none := hbegun.resolve_right (by simp)
        exact ⟨[], l, ls, rfl, fun rest => rfl, h⟩
      · rcases chunksFrom_step begun l with ⟨d, hstep⟩ | ⟨b, hstep⟩
        · rw [hstep] at h
          obtain ⟨front, l₂, back, rfl, hfront, hback⟩ := ih h (Or.inr hbefore)
          refine ⟨l :: front, l₂, back, rfl, ?_, hback⟩
          intro rest
          rw [List.cons_append, hstep, hfront]
        · obtain ⟨b', before, rfl⟩ := List.exists_cons_of_ne_nil hbefore
          rw [hstep, List.cons_append, List.cons.injEq] at h
          obtain ⟨rfl, h⟩ := h
          obtain ⟨front, l₂, back, rfl, hfront, hback⟩ := ih h (Or.inl rfl)
          refine ⟨l :: front, l₂, back, rfl, ?_, hback⟩
          intro rest
          rw [List.cons_append, hstep, hfront, List.cons_append]

/-- A directive goes on after its first line only if this line says so, and then in the same way after any other
line that does. -/
theorem directive_of_firstLine {l d : List Char} {ls : List (List Char)} {after : List Chunk}
    (h : chunksFrom none (l :: ls) = .directive d :: after) :
    ∃ tail, d = l ++ tail ∧ (tail ≠ [] → isContinued l = true) ∧
      ∀ l', isDirective l' = true → isContinued l' = isContinued l →
        chunksFrom none (l' :: ls) = .directive (l' ++ tail) :: after := by
  rw [chunksFrom] at h
  split at h
  · split at h
    · next hcontinued =>
      obtain ⟨tail, rest, hbegun⟩ := chunksFrom_begun ls
      rw [hbegun] at h
      cases h
      refine ⟨tail, rfl, fun _ => hcontinued, ?_⟩
      intro l' hl' hsame
      rw [chunksFrom, if_pos hl', hsame, if_pos hcontinued, hbegun]
    · next hcontinued =>
      cases h
      refine ⟨[], by rw [List.append_nil], by simp, ?_⟩
      intro l' hl' hsame
      rw [chunksFrom, if_pos hl', hsame, if_neg hcontinued, List.append_nil]
  · cases h

/-! ## Keywords -/

/-- What stands before the keyword of a directive: `#`, and blanks around it. -/
def IsLead (lead : List Char) : Prop :=
  ∃ before after, lead = before ++ '#' :: after ∧ (∀ c ∈ before, Text.isSpace c = true) ∧ ∀ c ∈ after, Text.isSpace c = true

/-- A word of letters. -/
def IsKeyword (word : List Char) : Prop := word ≠ [] ∧ ∀ c ∈ word, c.isAlpha = true

theorem toNat_lt_of_isAlpha {c : Char} (h : c.isAlpha = true) : c.toNat < 0x80 :=
  Script.toNat_lt_of_isWordChar (by simp [Script.isWordChar, Char.isAlphanum, h])

theorem blank_append (as bs : List Char) : blank (as ++ bs) = blank as ++ blank bs := by
  simp [blank]

theorem isKeyword_include : IsKeyword "include".toList := ⟨by decide, List.all_eq_true.mp (by decide)⟩

namespace IsKeyword

variable {word : List Char}

theorem lineFeed_notMem (h : IsKeyword word) : '\n' ∉ word := fun hmem => absurd (h.2 _ hmem) (by decide)

theorem find?_reverse_append (h : IsKeyword word) (rest : List Char) :
    ∃ c, c.isAlpha = true ∧ (word.reverse ++ rest).find? (fun c => !Text.isSpace c) = some c := by
  obtain ⟨c, cs, hcs⟩ := List.exists_cons_of_ne_nil (List.reverse_ne_nil_iff.mpr h.1)
  have hc : c.isAlpha = true := h.2 c (List.mem_reverse.mp (hcs ▸ List.mem_cons_self))
  exact ⟨c, hc, by rw [hcs, List.cons_append, List.find?_cons_of_pos (by simp [Text.isSpace_of_isAlpha hc])]⟩

theorem blank_eq (h : IsKeyword word) : blank word = List.replicate word.length ' ' := by
  obtain ⟨-, h⟩ := h
  induction word with
  | nil => rfl
  | cons c word ih =>
      have hc := h c List.mem_cons_self
      have hfeed : c ≠ '\n' := by
        rintro rfl
        exact absurd hc (by decide)
      have hsize : c.utf8Size = 1 := Char.utf8Size_eq_one_iff.mpr (by
        rw [UInt32.le_iff_toNat_le]
        exact Nat.le_of_lt_succ (toNat_lt_of_isAlpha hc))
      have hrest := ih fun d hd => h d (List.mem_cons_of_mem c hd)
      rw [blank] at hrest ⊢
      rw [List.flatMap_cons, hrest, if_neg hfeed, hsize, List.length_cons, List.replicate_succ]
      rfl

end IsKeyword

section

variable {lead word word' args : List Char}

theorem isDirective_of_lead (h : IsLead lead) (rest : List Char) : isDirective (lead ++ rest) = true := by
  obtain ⟨before, after, rfl, hbefore, -⟩ := h
  have hnone : before.find? (fun c => !Text.isSpace c) = none := by simpa using hbefore
  rw [isDirective_eq, List.append_assoc, List.find?_append, hnone, List.cons_append,
    List.find?_cons_of_pos (by decide)]
  rfl

theorem isContinued_reword (h : IsKeyword word) (h' : IsKeyword word') (lead args : List Char) :
    isContinued (lead ++ word' ++ args) = isContinued (lead ++ word ++ args) := by
  obtain ⟨c, hc, hfind⟩ := h.find?_reverse_append lead.reverse
  obtain ⟨c', hc', hfind'⟩ := h'.find?_reverse_append lead.reverse
  have hslash {d : Char} (hd : d.isAlpha = true) : (some d == some '\\') = false := by
    rw [beq_eq_false_iff_ne]
    rintro ⟨⟩
    exact absurd hd (by decide)
  rw [isContinued_eq, isContinued_eq]
  simp only [List.reverse_append, List.find?_append] at hfind hfind' ⊢
  rw [hfind, hfind']
  cases args.reverse.find? (fun c => !Text.isSpace c) with
  | some d => rfl
  | none => rw [Option.none_or, Option.none_or, hslash hc, hslash hc']

/-- Lead and keyword stand on the first line of a directive. -/
theorem keyword_on_firstLine {l tail : List Char} (hlead : IsLead lead) (hword : IsKeyword word)
    (h : lead ++ word ++ args = l ++ tail) (hcontinued : tail ≠ [] → isContinued l = true) :
    ∃ args', l = lead ++ word ++ args' ∧ args = args' ++ tail := by
  rcases List.append_eq_append_iff.mp h with ⟨mid, rfl, hargs⟩ | ⟨mid, hl, htail⟩
  · exact ⟨mid, rfl, hargs⟩
  · by_cases hmid : mid = []
    · subst hmid
      exact ⟨[], by rw [hl, List.append_nil, List.append_nil], by simpa using htail.symm⟩
    · -- a continued line would end in a backslash
      have hslash := hcontinued (by simp [htail, hmid])
      rw [isContinued_eq, beq_iff_eq] at hslash
      have hmem : '\\' ∈ lead ++ word := by
        rw [hl]
        exact List.mem_append_left _ (List.mem_reverse.mp (List.mem_of_find?_eq_some hslash))
      obtain ⟨before, after, rfl, hbefore, hafter⟩ := hlead
      simp only [List.mem_append, List.mem_cons] at hmem
      rcases hmem with (hmem | hmem | hmem) | hmem
      · exact absurd (hbefore _ hmem) (by decide)
      · exact absurd hmem (by decide)
      · exact absurd (hafter _ hmem) (by decide)
      · exact absurd (hword.2 _ hmem) (by decide)

/-- Another keyword makes another directive of this chunk, and leaves the other chunks as they are. -/
theorem chunks_reword {text : List Char} {before after : List Chunk} (hlead : IsLead lead) (hword : IsKeyword word)
    (hword' : IsKeyword word') (h : chunks text = before ++ .directive (lead ++ word ++ args) :: after) :
    chunks (before.flatMap Chunk.text) = before ∧
    chunks (before.flatMap Chunk.text ++ (lead ++ word' ++ args) ++ after.flatMap Chunk.text) =
      before ++ .directive (lead ++ word' ++ args) :: after := by
  -- the directive begins with the line `l`, which holds the keyword; `tail` are the lines it goes on with
  obtain ⟨front, l, back, hlines, hfront, hback⟩ := chunksFrom_split h (Or.inl rfl)
  obtain ⟨tail, hd, htail, hreword⟩ := directive_of_firstLine hback
  obtain ⟨args', rfl, rfl⟩ := keyword_on_firstLine hlead hword hd htail
  have hbefore : chunksFrom none front = before := by simpa [chunksFrom] using hfront []
  have hflat : before.flatMap Chunk.text = front.flatten := by
    rw [← hbefore, flatMap_text_chunksFrom]
    rfl
  have hrest : tail ++ after.flatMap Chunk.text = back.flatten := by
    have hall := congrArg (List.flatMap Chunk.text) hback
    rw [flatMap_text_chunksFrom, List.flatMap_cons, Chunk.text, List.flatten_cons] at hall
    simpa using hall.symm
  obtain ⟨hfirst, hlater⟩ := Text.rawLines_split hlines
  obtain ⟨hline, -⟩ := Text.isLine_of_rawLines hlater
  have hraw := Text.rawLines_replace hlines (hline.reword hword.1 hword'.1 hword.lineFeed_notMem hword'.lineFeed_notMem)
  constructor
  · rw [hflat, chunks, hfirst, hbefore]
  · rw [hflat]
    have htext : front.flatten ++ (lead ++ word' ++ (args' ++ tail)) ++ after.flatMap Chunk.text =
        front.flatten ++ (lead ++ word' ++ args') ++ back.flatten := by
      rw [← hrest]
      simp
    rw [htext, chunks, hraw, hfront, hreword _ (by rw [List.append_assoc]; exact isDirective_of_lead hlead _)
      (isContinued_reword hword hword' lead args')]
    simp

/-! ## What directives say -/

theorem readCommand_of_keyword (file : Path) (offset : Nat) (hlead : IsLead lead) (hword : IsKeyword word)
    (hargs : ∀ c, args.head? = some c → c.isAlpha = false) :
    readCommand file offset (lead ++ word ++ args) =
      match String.ofList word with
      | "define" => readDefine file (offset + width (lead ++ word ++ args)) args
      | "undef" => .undefine (Text.trim args)
      | "include" => .fetch (readRequest args)
      | _ => .nothing := by
  obtain ⟨before, after, rfl, hbefore, hafter⟩ := hlead
  have hhash : Text.trimStart (before ++ '#' :: after ++ word ++ args) = '#' :: (after ++ (word ++ args)) := by
    rw [Text.trimStart, List.append_assoc, List.append_assoc, List.dropWhile_append_of_pos hbefore, List.cons_append,
      List.dropWhile_cons_of_neg (by decide)]
  have hbody : Text.trimStart (after ++ (word ++ args)) = word ++ args := by
    obtain ⟨c, cs, rfl⟩ := List.exists_cons_of_ne_nil hword.1
    rw [Text.trimStart, List.dropWhile_append_of_pos hafter, List.cons_append,
      List.dropWhile_cons_of_neg (by simp [Text.isSpace_of_isAlpha (hword.2 c List.mem_cons_self)])]
  have hstop : args.takeWhile Char.isAlpha = [] ∧ args.dropWhile Char.isAlpha = args := by
    cases args with
    | nil => exact ⟨rfl, rfl⟩
    | cons c args =>
        have hc : ¬c.isAlpha = true := by simp [hargs c rfl]
        exact ⟨List.takeWhile_cons_of_neg hc, List.dropWhile_cons_of_neg hc⟩
  have hread (body : List Char) (hbody : Text.trimStart ((Text.trimStart (before ++ '#' :: after ++ word ++ args)).drop 1) = body) :
      readCommand file offset (before ++ '#' :: after ++ word ++ args) =
        match String.ofList (body.takeWhile Char.isAlpha) with
        | "define" => readDefine file (offset + width (before ++ '#' :: after ++ word ++ args)) (body.dropWhile Char.isAlpha)
        | "undef" => .undefine (Text.trim (body.dropWhile Char.isAlpha))
        | "include" => .fetch (readRequest (body.dropWhile Char.isAlpha))
        | _ => .nothing := by
    subst hbody
    rfl
  rw [hread (word ++ args) (by rw [hhash, List.drop_succ_cons, List.drop_zero, hbody]), List.takeWhile_append_of_pos hword.2,
    List.dropWhile_append_of_pos hword.2, hstop.1, hstop.2, List.append_nil]

theorem readCommand_of_other (file : Path) (offset : Nat) (hlead : IsLead lead) (hword : IsKeyword word)
    (hargs : ∀ c, args.head? = some c → c.isAlpha = false) (hlength : word.length = 7)
    (hother : word ≠ "include".toList) : readCommand file offset (lead ++ word ++ args) = .nothing := by
  have hne {s : String} (hs : word ≠ s.toList) : String.ofList word ≠ s := by
    rintro rfl
    exact hs (by rw [String.toList_ofList])
  rw [readCommand_of_keyword file offset hlead hword hargs]
  split
  · next h => exact absurd h (hne (by rintro rfl; exact absurd hlength (by decide)))
  · next h => exact absurd h (hne (by rintro rfl; exact absurd hlength (by decide)))
  · next h => exact absurd h (hne hother)
  · rfl

end

/-! ## Side by side -/

section

variable {r : Resolver} {file : Path}

/-- A directive that leaves one piece and the macros as they are stands between what comes before and after it. -/
theorem pieces_of_idle {text d : List Char} {before after : List Chunk} {effect : Effect}
    (hchunks : chunks text = before ++ .directive d :: after)
    (hidle : ∀ ms, directive r (some (work r (depthLimit - 1))) file (width (before.flatMap Chunk.text)) d ms =
      ([.directive file (width (before.flatMap Chunk.text)) d effect], ms)) :
    pieces r file text = (worked r file before).1 ++ .directive file (width (before.flatMap Chunk.text)) d effect ::
      (chunkwise r (some (work r (depthLimit - 1))) file (width (before.flatMap Chunk.text) + width d) after
        (worked r file before).2).1 := by
  rw [pieces_eq, hchunks, worked, chunkwise_append, chunkwise_cons]
  simp only [Work.andThen, chunkWork, Nat.zero_add, hidle, Chunk.text]
  rfl

theorem directive_refused {enter : Path → List Char → Work} {offset : Nat} {d requested : List Char} {tried : Bool}
    {e : IncludeError} (hread : readCommand file offset d = .fetch requested)
    (hfails : fetch r true file requested = .error (tried, e)) (ms : Macros) :
    directive r (some enter) file offset d ms =
      ([.directive file offset d (.refused (String.ofList requested) tried e)], ms) := by
  simp only [directive, hread, Option.isSome_some, hfails]

theorem directive_nothing {enter : Path → List Char → Work} {offset : Nat} {d : List Char}
    (hread : readCommand file offset d = .nothing) (ms : Macros) :
    directive r (some enter) file offset d ms = ([.directive file offset d .none], ms) := by
  simp only [directive, hread]

/-- A refusal in the place of a directive that does nothing adds its error, and nothing else. -/
theorem ofPieces_refused {file : Path} {offset : Nat} {d d' : List Char} {requested : String} {tried : Bool} {e : IncludeError}
    (hblank : blank d = blank d') (ps qs : List Piece) :
    let out := ofPieces (ps ++ .directive file offset d (.refused requested tried e) :: qs)
    let out' := ofPieces (ps ++ .directive file offset d' .none :: qs)
    let span : Span := ⟨width (codeOf ps), width (codeOf ps) + width d⟩
    out.code = out'.code ∧ out.map = out'.map ∧ out.includes = out'.includes ∧ out.macros = out'.macros ∧
      ∃ later, out'.errors = (ofPieces ps).errors ++ later ∧
        out.errors = (ofPieces ps).errors ++
          ⟨.error, "Failed to include '" ++ requested ++ "': " ++ e.message, span⟩ :: later ∧
        ∀ x ∈ later, span.stop ≤ x.place.start := by
  have hwidth : width d = width d' := by rw [← width_blank d, hblank, width_blank]
  intro out out' span
  refine ⟨?_, ?_, ?_, ?_, (placed span.stop qs).filterMap fun x => errorOf? x.1 x.2, ?_, ?_, ?_⟩
  · simp [out, out', ofPieces, Piece.code, hblank]
  · simp [out, out', ofPieces, placed_append, placed, Piece.push, Piece.size, hwidth]
  · simp [out, out', ofPieces, placed_append, placed, includeOf?, Piece.effect, Piece.size, hwidth]
  · simp [out, out', ofPieces, List.filterMap_cons, recordOf?, Piece.effect]
  · simp [out', ofPieces, placed_append, placed, errorOf?, Piece.effect, Piece.size, span, hwidth]
  · simp [out, ofPieces, placed_append, placed, errorOf?, Piece.effect, Piece.size, span]
  · intro x hx
    obtain ⟨⟨start, p⟩, hp, herror⟩ := List.mem_filterMap.mp hx
    have hle := start_le_of_mem_placed hp
    simp only [errorOf?] at herror
    split at herror
    · cases herror
      exact hle
    · cases herror

/-- Let an include directive of a document fail. With any other word of seven letters for its keyword the document
has the same code, source map, includes and macros, and the errors are the same but for one: that of the
directive, which spans its blanks and stands after the errors of what comes before the directive, and before
those of what comes after it. -/
theorem refused_include_leaves_rest {before lead args after word : List Char} {tried : Bool} {e : IncludeError}
    (hchunk : HasChunk (before ++ (lead ++ "include".toList ++ args) ++ after) (width before)
      (.directive (lead ++ "include".toList ++ args)))
    (hlead : IsLead lead) (hargs : ∀ c, args.head? = some c → c.isAlpha = false)
    (hfails : fetch r true file (readRequest args) = .error (tried, e))
    (hletters : ∀ c ∈ word, c.isAlpha = true) (hlength : word.length = 7) (hother : word ≠ "include".toList) :
    let out := preprocess r file (before ++ (lead ++ "include".toList ++ args) ++ after)
    let out' := preprocess r file (before ++ (lead ++ word ++ args) ++ after)
    let front := preprocess r file before
    let span : Span := ⟨width front.code, width front.code + width (lead ++ "include".toList ++ args)⟩
    out.code = out'.code ∧ out.map = out'.map ∧ out.includes = out'.includes ∧ out.macros = out'.macros ∧
      StandsAt out.code span.start (blank (lead ++ "include".toList ++ args)) ∧
      ∃ later, out'.errors = front.errors ++ later ∧
        out.errors = front.errors ++
          ⟨.error, "Failed to include '" ++ String.ofList (readRequest args) ++ "': " ++ e.message, span⟩ :: later ∧
        (∀ x ∈ front.errors, x.place.stop ≤ span.start) ∧ ∀ x ∈ later, span.stop ≤ x.place.start := by
  have hword : IsKeyword word := by
    refine ⟨?_, hletters⟩
    intro hnil
    rw [hnil] at hlength
    exact absurd hlength (by decide)
  obtain ⟨cs, cs', hchunks, hwidth⟩ := hchunk
  -- the chunks around the directive make up the text around it
  have htext := flatMap_text_chunks (before ++ (lead ++ "include".toList ++ args) ++ after)
  rw [hchunks, List.flatMap_append, List.flatMap_cons, Chunk.text, List.append_assoc before] at htext
  obtain ⟨hcs, hrest⟩ := Text.append_inj_of_width_eq htext hwidth.symm
  obtain ⟨-, hcs'⟩ := Text.append_inj_of_width_eq hrest rfl
  obtain ⟨hfront, hchunks'⟩ := chunks_reword hlead isKeyword_include hword hchunks
  rw [hcs] at hfront hchunks'
  rw [hcs'] at hchunks'
  have hread : readCommand file (width before) (lead ++ "include".toList ++ args) = .fetch (readRequest args) :=
    readCommand_of_keyword file (width before) hlead isKeyword_include hargs
  have hread' := readCommand_of_other file (width before) hlead hword hargs hlength hother
  have hblank : blank (lead ++ "include".toList ++ args) = blank (lead ++ word ++ args) := by
    rw [blank_append, blank_append, blank_append, blank_append, isKeyword_include.blank_eq, hword.blank_eq, hlength]
    rfl
  have hsize : width (lead ++ word ++ args) = width (lead ++ "include".toList ++ args) := by
    rw [← width_blank, ← hblank, width_blank]
  have hpieces := pieces_of_idle hchunks (by rw [hcs]; exact directive_refused hread hfails)
  have hpieces' := pieces_of_idle hchunks' (by rw [hcs]; exact @directive_nothing r file _ _ _ hread')
  have hbefore : pieces r file before = (worked r file cs).1 := by rw [pieces_eq, hfront]
  rw [hsize] at hpieces'
  unfold preprocess
  rw [hpieces, hpieces', hbefore]
  generalize (chunkwise r _ file _ cs' _).1 = rest
  obtain ⟨hcode, hmap, hincludes, hmacros, later, herrors', herrors, hlater⟩ :=
    @ofPieces_refused file (width (cs.flatMap Chunk.text)) _ _ (String.ofList (readRequest args)) tried e hblank
      (worked r file cs).1 rest
  refine ⟨hcode, hmap, hincludes, hmacros, ?_, later, herrors', herrors, ?_, hlater⟩
  · exact ⟨codeOf (worked r file cs).1, codeOf rest, by simp [ofPieces, codeOf, Piece.code], rfl⟩
  · intro x hx
    exact (errors_within _ x hx).2

/-- A document with a directive after a macro and before an include that asks for nothing. -/
def textWith (keyword : String) : List Char :=
  "#define Q q\n".toList ++ (" # ".toList ++ keyword.toList ++ " \"gone\"\n".toList) ++ "Q;\n#include <>".toList

theorem textWith_include_refused :
    HasChunk (textWith "include") 12 (.directive (" # ".toList ++ "include".toList ++ " \"gone\"\n".toList)) ∧
      let out := preprocess sampleResolver (.ofText "main") (textWith "include")
      let out' := preprocess sampleResolver (.ofText "main") (textWith "ifgiven")
      out.code = out'.code ∧ out.map = out'.map ∧ out.includes = out'.includes ∧ out.macros = out'.macros ∧
        ∃ e, e.place = ⟨12, 30⟩ ∧ out.errors = e :: out'.errors ∧ out'.errors.length = 1 := by
  have hchunk : HasChunk (textWith "include") 12 (.directive (" # ".toList ++ "include".toList ++ " \"gone\"\n".toList)) :=
    ⟨[.directive "#define Q q\n".toList], [.code "Q;\n".toList, .directive "#include <>".toList], by decide +kernel,
      by decide +kernel⟩
  have hargs : ∀ c, " \"gone\"\n".toList.head? = some c → c.isAlpha = false := by
    intro c hc
    rw [show " \"gone\"\n".toList.head? = some ' ' by decide] at hc
    cases hc
    decide
  have hblank : ∀ c ∈ " ".toList, Text.isSpace c = true := List.all_eq_true.mp (by decide)
  obtain ⟨hcode, hmap, hincludes, hmacros, -, later, herrors', herrors, -⟩ :=
    @refused_include_leaves_rest sampleResolver (.ofText "main") "#define Q q\n".toList " # ".toList " \"gone\"\n".toList
      "Q;\n#include <>".toList "ifgiven".toList true (.unreadable (.ofText "gone") .notFound) hchunk
      ⟨" ".toList, " ".toList, by decide, hblank, hblank⟩ hargs (by decide +kernel) (List.all_eq_true.mp (by decide))
      (by decide) (by decide)
  have hfront : (preprocess sampleResolver (.ofText "main") "#define Q q\n".toList).errors = [] := by decide +kernel
  have hwidth : width (preprocess sampleResolver (.ofText "main") "#define Q q\n".toList).code = 12 := by decide +kernel
  rw [hfront, List.nil_append] at herrors herrors'
  rw [← herrors', hwidth] at herrors
  exact ⟨hchunk, hcode, hmap, hincludes, hmacros, _, rfl, herrors, by decide +kernel⟩

end

end Preprocess

end SqfIndex
