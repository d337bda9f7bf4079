import SqfIndex.Proofs.Analysis.Outcomes
import SqfIndex.Proofs.Position.Covered
import SqfIndex.Proofs.Preprocess.Seams
import SqfIndex.Proofs.Preprocess.Sources
import SqfIndex.Proofs.Script.Findings

/-!
# Ranges whose ends are in order

The ends of a range are looked up one by one. They are in order if the source map leads them to one file and in
order there, and it does unless the span is torn: it begins in an expansion and does not end in it, an
expansion begins where it ends, or an included file ends there (`Torn`). All three may put the end of a
diagnostic before its start: `torn_spans_are_out_of_order`.
-/

namespace SqfIndex

open Text (width)

theorem seenText_congr (read : Reader) (base : Path) (text : List Char) {asked : List Path} {p q : Path}
    (hp : p ∈ asked) (hsame : p.same q = true) : seenText read base text asked p = seenText read base text asked q := by
  have hcomponents := Path.same_iff.mp hsame
  have hfind : asked.find? (·.same p) = asked.find? (·.same q) := by
    simp only [Path.same, hcomponents]
  obtain ⟨p', hp'⟩ : ∃ p', asked.find? (·.same p) = some p' := by
    rw [← Option.isSome_iff_exists, List.find?_isSome]
    exact ⟨p, hp, Path.same_refl p⟩
  have hbase : p.same base = q.same base := by
    simp only [Path.same, hcomponents]
  rw [seenText, seenText, hbase, ← hfind, hp']
  rfl

namespace Preprocess

/-! ## Torn spans -/

section

variable (r : Resolver) (file : Path) (text : List Char)

/-- The ends of a span of the code may lead to places that have nothing to do with one another. -/
inductive Torn (span : Span) : Prop
  /-- It begins in what an invocation turned into, and does not end there. -/
  | fromExpansion {start offset : Nat} {f : Path} {m : Macro} {written part : List Char} :
      Covers (pieces r file text) span.start start (.expanded f offset written m part) → start + width part ≤ span.stop →
      Torn span
  /-- What an invocation turned into begins at its end. -/
  | toExpansion {offset : Nat} {f : Path} {m : Macro} {written part : List Char} :
      (span.stop, Piece.expanded f offset written m part) ∈ placed 0 (pieces r file text) → Torn span
  /-- It is that of a directive which is the last line of an included text. -/
  | lastLine {depth : Nat} {f : Path} {front d : List Char} {effect : Effect} :
      (span.start, Piece.directive f (width front) d effect) ∈ placed 0 (pieces r file text) →
      span.stop = span.start + width d → Reached r file text (depth + 1) f (front ++ d) → d.getLast? = some '\n' → Torn span

/-- Both ends of a span lead to one file, and in order. -/
def Ordered (span : Span) : Prop :=
  ∃ f x y, SameAnswer ((preprocess r file text).map.resolve? span.start) (some (f, x)) ∧
    SameAnswer ((preprocess r file text).map.resolve? span.stop) (some (f, y)) ∧ x ≤ y

end

section

variable {r : Resolver} {file : Path} {text : List Char}

/-- A span that ends where its piece ends, or before. -/
theorem ordered_of_verbatim {before after : List Piece} {p : Piece} {i j : Nat}
    (hpieces : pieces r file text = before ++ p :: after) (hp : p.Verbatim) (hleaves : p.leaves = false) (hij : i < j)
    (hj : j ≤ p.size) (hends : j = p.size → ¬EndsIncluded r file text p)
    (h : ¬Torn r file text ⟨width (codeOf before) + i, width (codeOf before) + j⟩) :
    Ordered r file text ⟨width (codeOf before) + i, width (codeOf before) + j⟩ := by
  have hresolve {k : Nat} (hk : k < p.size) :
      SameAnswer ((preprocess r file text).map.resolve? (width (codeOf before) + k)) (some (p.file, p.offset + k)) := by
    have hresolve := resolve?_piece before after p (i := k) (by omega) (by omega) (Or.inr hk)
    rwa [← hpieces, hp.origin] at hresolve
  rcases Nat.lt_or_eq_of_le hj with hlt | rfl
  · exact ⟨_, _, _, hresolve (by omega), hresolve hlt, by omega⟩
  · have hne : p.written ≠ [] := by
      intro hnil
      have hsize := hp.size
      rw [hnil, Text.width_nil] at hsize
      omega
    refine ⟨_, _, _, hresolve hij, resolve?_seam hpieces hp hne hleaves (hends rfl) ?_, ?_⟩
    · intro f o written m part hmem
      exact h (.toExpansion hmem)
    · have hsize := hp.size
      rw [Piece.stop]
      omega

theorem ordered_of_error {e : Finding} (he : e ∈ (preprocess r file text).errors) (h : ¬Torn r file text e.place) :
    Ordered r file text e.place := by
  obtain ⟨⟨start, p⟩, hmem, herror⟩ := List.mem_filterMap.mp he
  simp only [errorOf?] at herror
  split at herror
  · next requested tried error heffect =>
    cases herror
    obtain ⟨before, after, hpieces, rfl⟩ := mem_placed_iff.mp hmem
    have hsolid : p.Solid := (solid_law r file text).pieces p (by simp [hpieces])
    cases p with
    | copied | expanded | separator => cases heffect
    | directive f o d effect =>
        obtain rfl : effect = .refused requested tried error := heffect
        refine ordered_of_verbatim (i := 0) hpieces ⟨rfl, fun _ => rfl⟩ rfl (Text.width_pos hsolid) (Nat.le_refl _) ?_ h
        rintro - ⟨depth, front, hreached, hoffset, hlast⟩
        obtain rfl : o = width front := hoffset
        have hfeed : d.getLast? = some '\n' := (List.getLast?_append_of_ne_nil front hsolid).symm.trans hlast
        exact h (.lastLine hmem rfl hreached hfeed)
  · cases herror

/-- The piece in which a token begins. -/
theorem exists_piece_of_token {front back : List Char} {c : Char} (h : (preprocess r file text).code = front ++ c :: back) :
    ∃ before p after, pieces r file text = before ++ p :: after ∧ width (codeOf before) ≤ width front ∧
      width front < width (codeOf before) + p.size ∧ c ∈ p.code := by
  have hcode : codeOf (pieces r file text) = front ++ c :: back := h
  have hlt : width front < width (codeOf (pieces r file text)) := by
    have := c.utf8Size_pos
    rw [hcode, Text.width_append, Text.width_cons]
    omega
  obtain ⟨start, p, hp⟩ := exists_covering hlt
  obtain ⟨before, after, hpieces, rfl⟩ := mem_placed_iff.mp hp.mem
  exact ⟨before, p, after, hpieces, hp.le, hp.lt, head_mem_code (hpieces ▸ hcode) hp.le hp.lt⟩

/-- Within an expansion the places grow. -/
theorem ordered_of_expanded {before after : List Piece} {f : Path} {o : Nat} {written part : List Char} {m : Macro} {span : Span}
    (hpieces : pieces r file text = before ++ .expanded f o written m part :: after)
    (hle : width (codeOf before) ≤ span.start) (hlt : span.start < width (codeOf before) + width part)
    (hspan : span.start ≤ span.stop) (h : ¬Torn r file text span) : Ordered r file text span := by
  have hmem : (width (codeOf before), Piece.expanded f o written m part) ∈ placed 0 (pieces r file text) :=
    mem_placed_iff.mpr ⟨before, after, hpieces, rfl⟩
  have hstart : Covers (pieces r file text) span.start _ _ := ⟨hmem, hle, hlt⟩
  have hwithin : span.stop < width (codeOf before) + width part := by
    by_contra hover
    exact h (.fromExpansion hstart (Nat.not_lt.mp hover))
  have hstop : Covers (pieces r file text) span.stop _ _ := ⟨hmem, Nat.le_trans hle hspan, hwithin⟩
  refine ⟨_, _, _, hstart.resolve?, hstop.resolve?, ?_⟩
  omega

theorem ordered_of_copied {before after : List Piece} {f : Path} {o : Nat} {inner w rest : List Char}
    (hpieces : pieces r file text = before ++ .copied f o (inner ++ w ++ rest) :: after) (hne : w ≠ []) (hfeed : '\n' ∉ w)
    (h : ¬Torn r file text ⟨width (codeOf before) + width inner, width (codeOf before) + (width inner + width w)⟩) :
    Ordered r file text ⟨width (codeOf before) + width inner, width (codeOf before) + (width inner + width w)⟩ := by
  have hpos := Text.width_pos hne
  have hsize : (Piece.copied f o (inner ++ w ++ rest)).size = width inner + width w + width rest := by
    simp [Piece.size, Nat.add_assoc]
  refine ordered_of_verbatim hpieces ⟨rfl, fun _ => rfl⟩ rfl (by omega) (by omega) ?_ h
  rintro hend ⟨depth, front, -, -, hlast⟩
  -- nothing of the piece comes after the word, which would end in a line feed
  have hrest : rest = [] := Text.width_eq_zero_iff.mp (by omega)
  have hw : (front ++ (inner ++ w ++ rest)).getLast? = w.getLast? := by
    rw [hrest, List.append_nil, ← List.append_assoc, List.getLast?_append_of_ne_nil _ hne]
  exact hfeed (List.mem_of_getLast? (hw.symm.trans hlast))

/-- A character that stands in the code within a piece stands in the piece. -/
theorem exists_split_of_char {before after : List Piece} {p : Piece} {c : Char} {front back : List Char}
    (hcode : codeOf (before ++ p :: after) = front ++ c :: back) (hle : width (codeOf before) ≤ width front)
    (hlt : width front < width (codeOf before) + p.size) :
    ∃ inner rest, p.code = inner ++ [c] ++ rest ∧ front = codeOf before ++ inner := by
  rw [codeOf_append, codeOf_cons] at hcode
  obtain ⟨inner, rfl, hrest⟩ := Text.exists_append_of_width_le hcode hle
  rw [Text.width_append] at hlt
  rcases split_append hrest with ⟨rest, hp⟩ | ⟨rest, hinner, -⟩
  · exact ⟨inner, rest, by simp [hp], rfl⟩
  · rw [hinner, Text.width_append, p.width_code] at hlt
    omega

theorem first_of_token {t : Script.Token} (hkind : t.kind = .identifier ∨ ∃ c, Script.isMark c = true ∧ t.text = [c])
    (hword : t.kind = .identifier → Script.isIdentifier t.text = true) :
    ∃ c w, t.text = c :: w ∧ (Script.isWordStart c || Script.isMark c) = true := by
  rcases hkind with hkind | ⟨c, hmark, htext⟩
  · have hword := hword hkind
    cases htext : t.text with
    | nil => rw [htext] at hword; cases hword
    | cons c w =>
        rw [htext, Script.isIdentifier, Bool.and_eq_true] at hword
        exact ⟨c, w, rfl, by rw [hword.1, Bool.true_or]⟩
  · exact ⟨c, [], htext, by rw [hmark, Bool.or_true]⟩

theorem ordered_of_token {tokens : List Script.Token} (hlex : Script.lex (preprocess r file text).code = .ok tokens)
    {t : Script.Token} (ht : t ∈ tokens) (hkind : t.kind = .identifier ∨ ∃ c, Script.isMark c = true ∧ t.text = [c])
    (h : ¬Torn r file text t.span) : Ordered r file text t.span := by
  obtain ⟨front, back, hcode, hstart, hword⟩ := Script.inText_of_mem_lex hlex ht
  rw [Nat.zero_add] at hstart
  obtain ⟨c, w, htext, hfirst⟩ := first_of_token hkind fun hkind => (hword hkind).1
  have hfeed : '\n' ∉ t.text := by
    rcases hkind with hkind | ⟨c', hmark, htext'⟩
    · intro hmem
      exact absurd (Script.isWordChar_of_mem (hword hkind).1 hmem) (by decide)
    · rw [htext', List.mem_singleton]
      rintro rfl
      exact absurd hmark (by decide)
  have hcode' : (preprocess r file text).code = front ++ c :: (w ++ back) := by
    rw [hcode, htext, List.append_assoc, List.cons_append]
  obtain ⟨before, p, after, hpieces, hle, hlt, hmem⟩ := exists_piece_of_token hcode'
  cases p with
  | directive f o d effect =>
      -- a blank begins no token
      rcases mem_blank hmem with rfl | rfl
      · exact absurd hfirst (by decide)
      · exact absurd hfirst (by decide)
  | separator f o =>
      rw [List.mem_singleton.mp hmem] at hfirst
      exact absurd hfirst (by decide)
  | expanded f o written m part =>
      rw [← hstart] at hle hlt
      exact ordered_of_expanded hpieces hle hlt (Nat.le_add_right _ _) h
  | copied f o part =>
      obtain ⟨inner, rest, rfl, rfl⟩ : ∃ inner rest, part = inner ++ t.text ++ rest ∧ front = codeOf before ++ inner := by
        have hall : codeOf (before ++ .copied f o part :: after) = front ++ t.text ++ back := by
          rw [← hpieces]
          exact hcode
        rcases hkind with hkind | ⟨c', -, htext'⟩
        · have hclosed := closed_pieces r file text
          rw [hpieces] at hclosed
          exact hclosed.identifier (hword hkind).1 hall hle hlt
        · rw [htext', List.append_assoc, List.singleton_append] at hall
          rw [htext']
          exact exists_split_of_char hall hle hlt
      have hspan : t.span = ⟨width (codeOf before) + width inner, width (codeOf before) + (width inner + width t.text)⟩ := by
        rw [Script.Token.span, Script.Token.stop, hstart, Text.width_append, Nat.add_assoc]
      rw [hspan] at h ⊢
      exact ordered_of_copied hpieces (by simp [htext]) hfeed h

end

end Preprocess

/-! ## Ranges -/

namespace Analysis

open Preprocess (preprocess Torn Ordered Preprocessed)

theorem exists_of_forall₂ {α β : Type} {R : α → β → Prop} {as : List α} {bs : List β} (h : List.Forall₂ R as bs) {b : β}
    (hb : b ∈ bs) : ∃ a ∈ as, R a b := by
  induction h with
  | nil => cases hb
  | cons hab _ ih =>
      rcases List.mem_cons.mp hb with rfl | hb
      · exact ⟨_, List.mem_cons_self, hab⟩
      · obtain ⟨a, ha, hab⟩ := ih hb
        exact ⟨a, List.mem_cons_of_mem _ ha, hab⟩

section

variable {read : Reader} {uri : Uri} {text : List Char} {r : Resolver}

/-- Ends that lead to one file in order have positions in order. -/
theorem range_le {asked : List Path} {span : Span} (h : Ordered r uri.toPath text span)
    (hasked : ∀ offset ∈ [span.start, span.stop],
      ((View.through (preprocess r uri.toPath text).map uri (seenText read uri.toPath text asked)).leads offset).1 ∈ asked) :
    let range := (View.through (preprocess r uri.toPath text).map uri (seenText read uri.toPath text asked)).range span
    range.start.le range.stop = true := by
  intro range
  obtain ⟨f, x, y, hstart, hstop, hle⟩ := h
  obtain ⟨g, hg, hsame⟩ := hstart.exists_some
  obtain ⟨g', hg', hsame'⟩ := hstop.exists_some
  have hfirst := hasked span.start (by simp)
  simp only [View.through, hg, Option.getD_some] at hfirst
  have htexts := seenText_congr read uri.toPath text hfirst (Path.same_trans hsame (Path.same_symm hsame'))
  simp only [range, View.range, View.spot, View.through, hg, hg', Option.getD_some, ← htexts]
  exact Position.after_mono hle _

theorem leads_mem_askedFor {pre : Preprocessed} {found : List Finding} {vars : List (Variable Span)} {f : Finding}
    (hf : f ∈ pre.errors ++ found) (texts : Path → List Char) :
    ∀ offset ∈ [f.place.start, f.place.stop], ((View.through pre.map uri texts).leads offset).1 ∈ askedFor uri pre found vars := by
  intro offset hoffset
  refine List.mem_append_right _ (List.mem_append_left _ (List.mem_flatMap.mpr ⟨f, hf, ?_⟩))
  simp only [List.mem_cons, List.not_mem_nil, or_false] at hoffset
  rcases hoffset with rfl | rfl
  · exact List.mem_cons_self
  · exact List.mem_cons_of_mem _ List.mem_cons_self

theorem ordered_of_finding {tokens : List Script.Token} (hlex : Script.lex (preprocess r uri.toPath text).code = .ok tokens)
    {f : Finding} (hf : f ∈ (preprocess r uri.toPath text).errors ++
      (Script.bracketFindings (Script.significant tokens) ++ Script.undefinedLocals (Script.significant tokens)))
    (h : ¬Torn r uri.toPath text f.place) : Ordered r uri.toPath text f.place := by
  rcases List.mem_append.mp hf with hf | hf
  · exact Preprocess.ordered_of_error hf h
  · obtain ⟨t, ht, hplace, hkind⟩ := Script.token_of_finding hlex hf
    rw [hplace] at h ⊢
    exact Preprocess.ordered_of_token hlex ht hkind h

end

/-- Every diagnostic of a script is the failure of its tokenizer, which has no extent, or it shows a finding. Its ends are
in order unless the span of the finding is torn. -/
theorem ranges_ordered_unless_torn (settings : Settings) (read : Reader) (uri : Uri) (text : List Char) :
    let r := Include.resolver settings.includePrefixes read
    let pre := preprocess r uri.toPath text
    let out := analyze Frontend.script settings read uri text
    (∀ e, Script.lex pre.code = .error e → ∃ p, out.errors = [p] ∧ out.warnings = [] ∧ p.diagnostic.message = e.message ∧
      p.diagnostic.place.start = p.diagnostic.place.stop) ∧
    ∀ tokens, Script.lex pre.code = .ok tokens →
      let found := Script.bracketFindings (Script.significant tokens) ++ Script.undefinedLocals (Script.significant tokens)
      ∃ asked, ∀ p ∈ out.errors ++ out.warnings, ∃ f ∈ pre.errors ++ found,
        (View.through pre.map uri (seenText read uri.toPath text asked)).Shows f p ∧
        (Torn r uri.toPath text f.place ∨ p.diagnostic.place.start.le p.diagnostic.place.stop = true) := by
  intro r pre out
  have hout : out = report ⟨uri, uri.toPath⟩ read (Mapper.preload {} uri.toPath text) pre (Frontend.script.examine pre.code) :=
    rfl
  constructor
  · intro e he
    have hstops : Stops Frontend.script pre.code e := .tokenize he
    obtain ⟨asked, p, herrors, hshows, hwarnings, -⟩ := @report_stopped read uri text pre e
    rw [← hstops.examine, ← hout] at herrors hwarnings
    refine ⟨p, herrors, hwarnings, hshows.message, ?_⟩
    cases hoffset : e.offset with
    | none => rw [(hshows.unplaced hoffset).1]
    | some offset => rw [(hshows.placed offset hoffset).1]
  · intro tokens htokens found
    let vars := Script.variablesOf (Script.significant tokens) tokens
    have hexamine : Frontend.script.examine pre.code = .ok (found, vars) := examine_of_steps htokens rfl rfl
    obtain ⟨herrors, hwarnings, -⟩ := @report_completed read uri text pre found vars
    rw [← hexamine, ← hout] at herrors hwarnings
    refine ⟨askedFor uri pre found vars, ?_⟩
    intro p hp
    obtain ⟨f, hf, hshows⟩ : ∃ f ∈ pre.errors ++ found, View.Shows _ f p := by
      rcases List.mem_append.mp hp with hp | hp
      · obtain ⟨f, hf, hshows⟩ := exists_of_forall₂ herrors hp
        exact ⟨f, (List.mem_filter.mp hf).1, hshows⟩
      · obtain ⟨f, hf, hshows⟩ := exists_of_forall₂ hwarnings hp
        exact ⟨f, (List.mem_filter.mp hf).1, hshows⟩
    refine ⟨f, hf, hshows, ?_⟩
    by_cases htorn : Torn r uri.toPath text f.place
    · exact Or.inl htorn
    · rw [hshows.place]
      exact Or.inr (range_le (ordered_of_finding htokens hf htorn) (leads_mem_askedFor hf _))

/-- A file that defines a macro and ends with a directive that fails. -/
def tearingInclude : Reader := MemoryFiles.read [(.ofText "/b.hpp", "\n\n#define M (\n#include \"gone\"\n".toList)]

/-- What an invocation turned into holds a bracket and comes after one, and an included file ends with a directive. -/
def tornText : List Char := "#define N 1\n#include \"b.hpp\"\n;M [N".toList

/-- The error of the include at the end of the other file ends in this one, the bracket of the macro ends where the
invocation does, and the other bracket ends in the body of a macro. -/
theorem torn_spans_are_out_of_order :
    let errors := (analyze Frontend.script {} tearingInclude "file:///a.sqf" tornText).errors
    errors.map (fun p => (p.uri, p.diagnostic.place)) =
        [("file:///b.hpp", ⟨⟨3, 0⟩, ⟨2, 0⟩⟩), ("file:///b.hpp", ⟨⟨2, 10⟩, ⟨2, 2⟩⟩), ("file:///a.sqf", ⟨⟨2, 3⟩, ⟨0, 10⟩⟩)] ∧
      ∀ p ∈ errors, p.diagnostic.place.start.le p.diagnostic.place.stop = false := by
  decide +kernel

end Analysis

end SqfIndex
