import Mathlib.Data.List.Count
import Mathlib.Data.List.Infix
import Mathlib.Data.List.Nodup
import Mathlib.Data.Prod.Basic
import SqfIndex.Proofs.Script.Lossless
import SqfIndex.Proofs.Script.Mentions

/-!
# Every mention, once

The variables of a script have the places of its names and of the strings that are declared, each as often as it is
mentioned: `mentions_exact`. Tokens that are mentions have places of their own (`place_inj`), so that places of
variables can be counted as tokens; how often a string is declared is told by the tokens before it
(`count_mentionedFrom_string`).
-/

namespace SqfIndex.Script

open Text (width StandsAt)

/-! ## Quotes around strings -/

theorem closeQuote_eq_some {q : Char} {cs a b : List Char} (h : closeQuote q cs = some (a, b)) :
    ∃ inner, a = inner ++ [q] := by
  fun_induction closeQuote q cs generalizing a with
  | case1 => cases h
  | case2 => cases h; exact ⟨[], rfl⟩
  | case3 more ih =>
      obtain ⟨⟨a', b'⟩, hmore, hparts⟩ := Option.map_eq_some_iff.mp h
      cases hparts
      obtain ⟨inner, rfl⟩ := ih hmore
      exact ⟨q :: q :: inner, rfl⟩
  | case4 => cases h; exact ⟨[], rfl⟩
  | case5 c rest hc ih =>
      obtain ⟨⟨a', b'⟩, hrest, hparts⟩ := Option.map_eq_some_iff.mp h
      cases hparts
      obtain ⟨inner, rfl⟩ := ih hrest
      exact ⟨c :: inner, rfl⟩

theorem lexeme_text {c : Char} {rest text after : List Char} (h : lexeme c rest = some (.text, text, after)) :
    isQuote c = true ∧ ∃ inner, text = c :: (inner ++ [c]) := by
  cases hquote : isQuote c with
  | true =>
      rw [lexeme_of_isQuote hquote] at h
      obtain ⟨⟨a, b⟩, hclose, hparts⟩ := Option.map_eq_some_iff.mp h
      cases hparts
      obtain ⟨inner, rfl⟩ := closeQuote_eq_some hclose
      exact ⟨rfl, inner, rfl⟩
  | false =>
      unfold lexeme at h
      simp only [hquote, Bool.false_eq_true, ↓reduceIte] at h
      repeat' split at h
      all_goals cases h

section

variable {code : List Char} {tokens : List Token} (hlex : lex code = .ok tokens) {t t' : Token}
include hlex

theorem text_of_quoted (ht : t ∈ tokens) (hkind : t.kind = .text) :
    ∃ q, isQuote q = true ∧ t.text = [q] ++ t.content ++ [q] := by
  obtain ⟨q, rest, after, hlexeme⟩ := lexeme_of_mem_lexFrom (lex_eq_ok_iff.mp hlex) ht
  rw [hkind] at hlexeme
  obtain ⟨hquote, inner, htext⟩ := lexeme_text hlexeme
  have hcontent : t.content = inner := by simp [Token.content, htext]
  exact ⟨q, hquote, by rw [hcontent, htext]; rfl⟩

/-- The word that is mentioned with a token stands at its place. -/
theorem standsAt_place (ht : t ∈ tokens) :
    StandsAt code t.place.start t.word ∧ t.place.stop = t.place.start + width t.word ∧ t.Covers t.place.start := by
  obtain ⟨before, after, hsplit, hstart, -⟩ := inText_of_mem_lex hlex ht
  have hstands : StandsAt code t.start t.text := ⟨before, after, hsplit, by rw [hstart, Nat.zero_add]⟩
  by_cases hkind : t.kind = .text
  · obtain ⟨q, hquote, htext⟩ := text_of_quoted hlex ht hkind
    have hwidth : width [q] = 1 := by
      simp only [isQuote, Bool.or_eq_true, beq_iff_eq] at hquote
      rcases hquote with rfl | rfl <;> decide
    have hinner : StandsAt t.text 1 t.content := ⟨[q], [q], htext, hwidth.symm⟩
    have hstop : t.stop = t.start + (1 + width t.content + 1) := by
      rw [Token.stop, htext, Text.width_append, Text.width_append, hwidth]
    rw [Token.place, Token.word, if_pos hkind, if_pos hkind]
    refine ⟨hstands.trans hinner, ?_, ?_⟩
    · simp only [hstop]
      omega
    · simp only [Token.Covers, hstop]
      omega
  · rw [Token.place, Token.word, if_neg hkind, if_neg hkind]
    refine ⟨hstands, rfl, Nat.le_refl _, ?_⟩
    exact ((laid_of_lex hlex).token ht).2

/-- No two tokens have one place. -/
theorem place_inj (ht : t ∈ tokens) (ht' : t' ∈ tokens) (h : t.place = t'.place) : t = t' := by
  obtain ⟨-, -, hcovers⟩ := standsAt_place hlex ht
  obtain ⟨-, -, hcovers'⟩ := standsAt_place hlex ht'
  rw [h] at hcovers
  exact (laid_of_lex hlex).unique ht ht' hcovers hcovers'

/-! ## Places of variables -/

/-- A place is counted in the variables of a script as its token is in the mentions. -/
theorem count_placesOf (m : Mention) (ht : t ∈ tokens) :
    (placesOf m (variablesOf (significant tokens) tokens)).count t.place =
      (mentionedFrom (significant tokens)).count (m, t) := by
  rw [(placesOf_variablesOf m _ tokens).count_eq, List.count, List.countP_map, List.countP_filter, List.count]
  refine List.countP_congr ?_
  rintro ⟨m', t'⟩ hp
  have ht' : t' ∈ tokens := (List.mem_filter.mp (mem_of_mem_mentionedFrom hp).1).1
  simp only [Function.comp_apply, Bool.and_eq_true, beq_iff_eq, decide_eq_true_eq, Prod.mk.injEq]
  constructor
  · rintro ⟨hplace, rfl⟩
    exact ⟨rfl, place_inj hlex ht' ht hplace⟩
  · rintro ⟨rfl, rfl⟩
    exact ⟨rfl, rfl⟩

end

/-! ## Lists of strings -/

def openings (ts : List Token) : Nat := ts.countP (·.kind == .mark '[')

def closings (ts : List Token) : Nat := ts.countP (·.kind == .mark ']')

/-- With so many lists open before some tokens, one is open at every point of them. -/
def staysOpen (depth : Nat) (ts : List Token) : Bool :=
  ts.inits.all fun front => closings front < depth + openings front

/-- The strings of a bracketed list, where it is an error to close more lists than are open. -/
def listedStrings? : Nat → List Token → Option (List Token)
  | _, [] => some []
  | depth, t :: ts =>
    match t.kind with
    | .mark '[' => listedStrings? (depth + 1) ts
    | .mark ']' =>
      match depth with
      | 0 => none
      | depth + 1 => if depth = 0 then some [] else listedStrings? depth ts
    | .text => (listedStrings? depth ts).map (t :: ·)
    | _ => listedStrings? depth ts

section

variable {u : Token} {depth : Nat} {ts : List Token}

theorem staysOpen_iff :
    staysOpen depth ts = true ↔ ∀ front, front <+: ts → closings front < depth + openings front := by
  simp only [staysOpen, List.all_eq_true, decide_eq_true_eq, List.mem_inits]

theorem staysOpen_nil (hdepth : 0 < depth) : staysOpen depth [] = true := by
  simpa [staysOpen_iff, openings, closings] using hdepth

theorem staysOpen_zero : staysOpen 0 ts = false := by
  rw [Bool.eq_false_iff, ne_eq, staysOpen_iff]
  intro h
  exact absurd (h [] List.nil_prefix) (by decide)

/-- One token more in front makes another depth. -/
theorem staysOpen_cons {depth' : Nat} (hdepth : 0 < depth)
    (h : ∀ front, closings (u :: front) < depth + openings (u :: front) ↔ closings front < depth' + openings front) :
    staysOpen depth (u :: ts) = staysOpen depth' ts := by
  rw [Bool.eq_iff_iff, staysOpen_iff, staysOpen_iff]
  constructor
  · intro hopen front hfront
    exact (h front).mp (hopen (u :: front) ((List.prefix_cons_inj u).mpr hfront))
  · intro hopen front hfront
    rcases List.prefix_cons_iff.mp hfront with rfl | ⟨front, rfl, hinner⟩
    · exact hdepth
    · exact (h front).mpr (hopen front hinner)

theorem staysOpen_cons_opening (hdepth : 0 < depth) (hu : u.kind = .mark '[') :
    staysOpen depth (u :: ts) = staysOpen (depth + 1) ts := by
  refine staysOpen_cons hdepth ?_
  intro front
  have hopenings : openings (u :: front) = openings front + 1 := by simp [openings, hu]
  have hclosings : closings (u :: front) = closings front := by simp [closings, hu]
  omega

theorem staysOpen_cons_closing (hu : u.kind = .mark ']') : staysOpen (depth + 1) (u :: ts) = staysOpen depth ts := by
  refine staysOpen_cons (Nat.succ_pos depth) ?_
  intro front
  have hopenings : openings (u :: front) = openings front := by simp [openings, hu]
  have hclosings : closings (u :: front) = closings front + 1 := by simp [closings, hu]
  omega

theorem staysOpen_cons_other (hdepth : 0 < depth) (hopening : u.kind ≠ .mark '[') (hclosing : u.kind ≠ .mark ']') :
    staysOpen depth (u :: ts) = staysOpen depth ts := by
  refine staysOpen_cons hdepth ?_
  intro front
  have hopenings : openings (u :: front) = openings front := by simp [openings, hopening]
  have hclosings : closings (u :: front) = closings front := by simp [closings, hclosing]
  rw [hopenings, hclosings]

theorem listedStrings_cons_opening (hu : u.kind = .mark '[') :
    listedStrings depth (u :: ts) = listedStrings (depth + 1) ts := by
  simp [listedStrings, hu]

theorem listedStrings_cons_closing (hu : u.kind = .mark ']') :
    listedStrings depth (u :: ts) = if depth ≤ 1 then [] else listedStrings (depth - 1) ts := by
  simp [listedStrings, hu]

theorem listedStrings_cons_text (hu : u.kind = .text) :
    listedStrings depth (u :: ts) = u :: listedStrings depth ts := by
  simp [listedStrings, hu]

theorem listedStrings_cons_other (hopening : u.kind ≠ .mark '[') (hclosing : u.kind ≠ .mark ']')
    (htext : u.kind ≠ .text) : listedStrings depth (u :: ts) = listedStrings depth ts := by
  rw [listedStrings]
  split
  · exact absurd ‹_› hopening
  · exact absurd ‹_› hclosing
  · exact absurd ‹_› htext
  · rfl

theorem listedStrings?_eq_some (hdepth : 0 < depth) : listedStrings? depth ts = some (listedStrings depth ts) := by
  fun_induction listedStrings? depth ts with
  | case1 => rfl
  | case2 depth u ts hu ih => rw [listedStrings_cons_opening hu, ih (Nat.succ_pos _)]
  | case3 => cases hdepth
  | case4 u ts hu => rw [listedStrings_cons_closing hu, if_pos (Nat.le_refl 1)]
  | case5 u ts hu depth hlast ih =>
      rw [listedStrings_cons_closing hu, if_neg (by omega), Nat.succ_sub_one, ih (by omega)]
  | case6 depth u ts hu ih => rw [listedStrings_cons_text hu, ih hdepth, Option.map_some]
  | case7 depth u ts hopening hclosing htext ih => rw [listedStrings_cons_other hopening hclosing htext, ih hdepth]

/-- A string stands in a list exactly if the list is still open there. -/
theorem count_listedStrings {t : Token} {before after : List Token} (ht : t.kind = .text) (hbefore : t ∉ before)
    (hafter : t ∉ after) (hdepth : 0 < depth) :
    (listedStrings depth (before ++ t :: after)).count t = if staysOpen depth before then 1 else 0 := by
  induction before generalizing depth with
  | nil =>
      have hmore : (listedStrings depth after).count t = 0 :=
        List.count_eq_zero.mpr fun h => hafter (mem_of_mem_listedStrings h).1
      rw [List.nil_append, listedStrings_cons_text ht, List.count_cons_self, hmore, if_pos (staysOpen_nil hdepth)]
  | cons u before ih =>
      obtain ⟨hne, hbefore⟩ := List.ne_and_not_mem_of_not_mem_cons hbefore
      rw [List.cons_append]
      by_cases hopening : u.kind = .mark '['
      · rw [listedStrings_cons_opening hopening, staysOpen_cons_opening hdepth hopening, ih hbefore (Nat.succ_pos _)]
      by_cases hclosing : u.kind = .mark ']'
      · obtain ⟨depth, rfl⟩ := Nat.exists_eq_add_of_le' hdepth
        rw [listedStrings_cons_closing hclosing, staysOpen_cons_closing hclosing, Nat.add_sub_cancel]
        cases depth with
        | zero =>
            -- the last list that is open ends here
            rw [if_pos (Nat.le_refl 1), staysOpen_zero]
            rfl
        | succ depth => rw [if_neg (by omega), ih hbefore (Nat.succ_pos depth)]
      rw [staysOpen_cons_other hdepth hopening hclosing, ← ih hbefore hdepth]
      by_cases htext : u.kind = .text
      · rw [listedStrings_cons_text htext, List.count_cons_of_ne (Ne.symm hne)]
      · rw [listedStrings_cons_other hopening hclosing htext]

end

/-! ## Counting mentions -/

namespace Token

/-- Whether a string right after the token is declared. -/
def declares (t : Token) : Bool := t.kind == .identifier && (declarator? t).isSome

/-- Whether the strings of a list right after the token are declared. -/
def declaresLists (t : Token) : Bool := t.kind == .identifier && (declarator? t).any (· ≠ .forWord)

end Token

/-- Whether the first of some tokens declares a string that comes right after all of them: it stands before the
string, or before a list that is still open there. -/
def declaresNext : List Token → Bool
  | [] => false
  | [k] => k.declares
  | k :: u :: inside => k.declaresLists && u.kind == .mark '[' && staysOpen 1 inside

section

variable {t k u : Token} {before inside after : List Token}

theorem kind_of_namesLocal (h : t.namesLocal = true) : t.kind = .text := by
  simp only [Token.namesLocal, Bool.and_eq_true, beq_iff_eq] at h
  exact h.1.1

theorem count_mentionedFrom_of_not_mem (h : t ∉ after) (m : Mention) : (mentionedFrom after).count (m, t) = 0 :=
  List.count_eq_zero.mpr fun hmem => h (mem_of_mem_mentionedFrom hmem).1

theorem count_declared (hnames : t.namesLocal = true) (after : List Token) (d : Declarator) :
    (declared d (t :: after)).count t = 1 := by
  simp [declared, kind_of_namesLocal hnames, hnames]

theorem count_declared_cons (hnames : t.namesLocal = true) (hbefore : t ∉ u :: inside) (hafter : t ∉ after)
    (d : Declarator) :
    (declared d (u :: inside ++ t :: after)).count t =
      if (d ≠ .forWord ∧ u.kind = .mark '[') ∧ staysOpen 1 inside = true then 1 else 0 := by
  obtain ⟨hne, hinside⟩ := List.ne_and_not_mem_of_not_mem_cons hbefore
  have hzero {ts : List Token} (h : t ∉ ts) (hnot : ¬(d ≠ .forWord ∧ u.kind = .mark '[')) :
      ts.count t = if (d ≠ .forWord ∧ u.kind = .mark '[') ∧ staysOpen 1 inside = true then 1 else 0 := by
    rw [if_neg fun hall => hnot hall.1, List.count_eq_zero.mpr h]
  simp only [declared, List.cons_append]
  by_cases htext : u.kind = .text
  · rw [if_pos htext]
    exact hzero (fun h => hne (List.mem_singleton.mp (List.mem_filter.mp h).1)) (by simp [htext])
  rw [if_neg htext]
  by_cases hlist : u.kind = .mark '[' ∧ d ≠ .forWord
  · rw [if_pos hlist, List.count_filter hnames, listedStrings_cons_opening hlist.1,
      count_listedStrings (kind_of_namesLocal hnames) hinside hafter (Nat.succ_pos 0)]
    simp only [hlist, ne_eq, not_false_eq_true, and_self, true_and]
  · rw [if_neg hlist]
    exact hzero List.not_mem_nil fun h => hlist h.symm

/-- One token declares a string once if it reaches it. -/
theorem count_mentionedAt_string (hnames : t.namesLocal = true) (hbefore : t ∉ before) (hafter : t ∉ after) :
    (mentionedAt k (before ++ t :: after)).count (.definition, t) = if declaresNext (k :: before) then 1 else 0 := by
  unfold mentionedAt
  by_cases hkind : k.kind = .identifier
  · rw [if_neg (by simpa using hkind)]
    cases hdecl : declarator? k with
    | none =>
        have hne : k ≠ t := by
          rintro rfl
          rw [kind_of_namesLocal hnames] at hkind
          cases hkind
        have hnot : declaresNext (k :: before) = false := by
          cases before <;> simp [declaresNext, Token.declares, Token.declaresLists, hdecl]
        simp [hnot, hne]
    | some d =>
        have hinj : Function.Injective (fun u : Token => (Mention.definition, u)) := Prod.mk_right_injective _
        simp only
        rw [List.count_map_of_injective _ _ hinj]
        cases before with
        | nil =>
            rw [List.nil_append, count_declared hnames]
            simp [declaresNext, Token.declares, hkind, hdecl]
        | cons u inside =>
            rw [count_declared_cons hnames hbefore hafter]
            simp [declaresNext, Token.declaresLists, hkind, hdecl]
  · have hnot : declaresNext (k :: before) = false := by
      cases before <;> simp [declaresNext, Token.declares, Token.declaresLists, hkind]
    simp [hkind, hnot]

/-- A string is declared by every token before it that reaches it. -/
theorem count_mentionedFrom_string (hnames : t.namesLocal = true) (hbefore : t ∉ before) (hafter : t ∉ after) :
    (mentionedFrom (before ++ t :: after)).count (.definition, t) = before.tails.countP declaresNext := by
  induction before with
  | nil =>
      have hown : mentionedAt t after = [] := if_pos (by simp [kind_of_namesLocal hnames])
      rw [List.nil_append, mentionedFrom, hown, List.nil_append, count_mentionedFrom_of_not_mem hafter]
      rfl
  | cons k before ih =>
      obtain ⟨-, hbefore⟩ := List.ne_and_not_mem_of_not_mem_cons hbefore
      rw [List.cons_append, mentionedFrom, List.count_append, count_mentionedAt_string hnames hbefore hafter,
        ih hbefore, List.tails_cons, List.countP_cons, Nat.add_comm]

/-- A name is mentioned with its own token, and with no other. -/
theorem count_mentionedFrom_name (hkind : t.kind = .identifier) (hname : declarator? t = none) (hbefore : t ∉ before)
    (hafter : t ∉ after) (m : Mention) :
    (mentionedFrom (before ++ t :: after)).count (m, t) =
      [if after.head?.any isAssignment then Mention.definition else .usage].count m := by
  induction before with
  | nil =>
      have hown : mentionedAt t after = [(if after.head?.any isAssignment then .definition else .usage, t)] := by
        simp [mentionedAt, hkind, hname]
      rw [List.nil_append, mentionedFrom, hown, List.count_append, count_mentionedFrom_of_not_mem hafter]
      simp [List.count_singleton]
  | cons k before ih =>
      obtain ⟨hne, hbefore⟩ := List.ne_and_not_mem_of_not_mem_cons hbefore
      have hother : (mentionedAt k (before ++ t :: after)).count (m, t) = 0 := by
        refine List.count_eq_zero.mpr ?_
        intro hmem
        rcases mem_of_mem_mentionedAt hmem with ⟨rfl, -⟩ | ⟨-, -, hnames⟩
        · exact hne rfl
        · rw [kind_of_namesLocal hnames] at hkind
          cases hkind
      rw [List.cons_append, mentionedFrom, List.count_append, hother, Nat.zero_add, ih hbefore]

end

/-! ## Names of variables -/

theorem keys_gather (key : String) (s : Sighting) (found : Gathered) :
    (gather key s found).map (·.1) =
      if key ∈ found.map (·.1) then found.map (·.1) else found.map (·.1) ++ [key] := by
  induction found with
  | nil => simp [gather]
  | cons e found ih =>
      unfold gather
      by_cases hkey : e.1 = key
      · simp [hkey]
      · simp only [if_neg hkey, List.map_cons, ih, List.mem_cons, Ne.symm hkey, false_or]
        split <;> rfl

theorem nodup_keys (ss : List Sighting) : ((gatheredFrom ss).map (·.1)).Nodup := by
  induction ss using List.reverseRecOn with
  | nil => exact List.nodup_nil
  | append_singleton ss s ih =>
      rw [gatheredFrom_append_singleton, keys_gather]
      split
      · exact ih
      · next hnew =>
        refine List.nodup_append.mpr ⟨ih, List.nodup_singleton _, ?_⟩
        rintro key hkey key' hkey' rfl
        exact hnew (List.mem_singleton.mp hkey' ▸ hkey)

theorem nodup_lowered_names (ss : List Sighting) : ((gatherAll ss).map fun v => Text.lowered v.name).Nodup := by
  have hkeys : ((gatherAll ss).map fun v => Text.lowered v.name) = (gatheredFrom ss).map (·.1) := by
    rw [gatherAll_eq, List.map_map]
    exact List.map_congr_left fun e he => (made_gatheredFrom ss e he).1.symm
  rw [hkeys]
  exact nodup_keys ss

/-- A place of a variable is that of a token with which the variable is mentioned. -/
theorem exists_token_of_place {tokens all : List Token} {v : Variable Span} (hv : v ∈ variablesOf tokens all)
    {m : Mention} {span : Span} (h : span ∈ v.places m) :
    ∃ t ∈ tokens, (t.kind = .identifier ∧ declarator? t = none ∨ t.namesLocal = true) ∧ span = t.place ∧
      Text.lowered (String.ofList t.word) = Text.lowered v.name := by
  obtain ⟨s, hs, rfl, hlowered⟩ := (made_of_mem_gatherAll hv).places m span h
  obtain ⟨p, hp, -, hname, hplace⟩ := exists_mentioned hs
  obtain ⟨ht, hmention⟩ := mem_of_mem_mentionedFrom hp
  exact ⟨p.2, ht, hmention.imp_right And.right, hplace, by rw [← hname, hlowered]⟩

/-- In the variables of a script every word but a declaring one has its place once, as a definition before `=` and as
a usage elsewhere, under a variable with its name; every string that names a local has its own once for each token
that declares it, as a definition. Each place of a variable is one of these, and the word there agrees with the name
of the variable in lower case, in which no two variables agree. Reading a list from its opening bracket on never
closes more than is open. -/
theorem mentions_exact {code : List Char} {tokens : List Token} (hlex : lex code = .ok tokens) :
    (∀ before t after, significant tokens = before ++ t :: after →
      (t.kind = .identifier → declarator? t = none →
        (placesOf .definition (variablesOf (significant tokens) tokens)).count t.span =
          (if after.head?.any isAssignment then 1 else 0) ∧
        (placesOf .usage (variablesOf (significant tokens) tokens)).count t.span =
          (if after.head?.any isAssignment then 0 else 1) ∧
        ∀ v ∈ variablesOf (significant tokens) tokens, ∀ m, t.span ∈ v.places m →
          Text.lowered v.name = Text.lowered (String.ofList t.text)) ∧
      (t.namesLocal = true →
        (placesOf .definition (variablesOf (significant tokens) tokens)).count ⟨t.start + 1, t.stop - 1⟩ =
          before.tails.countP declaresNext ∧
        (placesOf .usage (variablesOf (significant tokens) tokens)).count ⟨t.start + 1, t.stop - 1⟩ = 0) ∧
      (t.kind = .mark '[' → listedStrings? 0 (t :: after) = some (listedStrings 0 (t :: after)))) ∧
    (∀ v ∈ variablesOf (significant tokens) tokens, ∀ m, ∀ span ∈ v.places m, ∃ t ∈ significant tokens,
      (t.kind = .identifier ∧ declarator? t = none ∨ t.namesLocal = true) ∧ span = t.place ∧
      StandsAt code span.start t.word ∧ span.stop = span.start + width t.word ∧
      Text.lowered (String.ofList t.word) = Text.lowered v.name) ∧
    ((variablesOf (significant tokens) tokens).map fun v => Text.lowered v.name).Nodup := by
  have hsignificant {t : Token} (ht : t ∈ significant tokens) : t ∈ tokens := (List.mem_filter.mp ht).1
  refine ⟨?_, ?_, nodup_lowered_names _⟩
  · intro before t after hsplit
    have ht : t ∈ tokens := hsignificant (hsplit ▸ List.mem_append_right before List.mem_cons_self)
    obtain ⟨hbefore, hafter⟩ : t ∉ before ∧ t ∉ after := by
      have hnodup : (significant tokens).Nodup := (laid_of_lex hlex).nodup.filter _
      rw [hsplit, List.nodup_middle, List.nodup_cons, List.mem_append] at hnodup
      exact not_or.mp hnodup.1
    refine ⟨?_, ?_, ?_⟩
    · intro hkind hname
      have hword : t.word = t.text := if_neg (by simp [hkind])
      have hplace : t.place = t.span := if_neg (by simp [hkind])
      have hcount (m : Mention) := (count_placesOf hlex m ht).trans
        (hsplit ▸ count_mentionedFrom_name hkind hname hbefore hafter m)
      rw [← hplace, hcount, hcount]
      refine ⟨?_, ?_, ?_⟩
      · cases after.head?.any isAssignment <;> decide
      · cases after.head?.any isAssignment <;> decide
      · intro v hv m hspan
        obtain ⟨t', ht', -, hsame, hlowered⟩ := exists_token_of_place hv hspan
        rw [← hlowered, ← place_inj hlex ht (hsignificant ht') hsame, hword]
    · intro hnames
      have hplace : t.place = ⟨t.start + 1, t.stop - 1⟩ := if_pos (kind_of_namesLocal hnames)
      rw [← hplace, count_placesOf hlex _ ht, count_placesOf hlex _ ht, hsplit]
      refine ⟨count_mentionedFrom_string hnames hbefore hafter, List.count_eq_zero.mpr ?_⟩
      intro hmem
      obtain ⟨-, ⟨hkind, -⟩ | ⟨hdefinition, -⟩⟩ := mem_of_mem_mentionedFrom hmem
      · rw [kind_of_namesLocal hnames] at hkind
        cases hkind
      · cases hdefinition
    · intro hopening
      rw [listedStrings_cons_opening hopening, ← listedStrings?_eq_some (Nat.succ_pos 0)]
      simp [listedStrings?, hopening]
  · intro v hv m span hspan
    obtain ⟨t, ht, hmention, rfl, hlowered⟩ := exists_token_of_place hv hspan
    obtain ⟨hstands, hstop, -⟩ := standsAt_place hlex (hsignificant ht)
    exact ⟨t, ht, hmention, rfl, hstands, hstop, hlowered⟩

/-- `params ["_a"]; x = _A` -/
def listedCode : List Char := "params [\"_a\"]; x = _A".toList

def listedTokens : List Token :=
  [⟨.identifier, [], 0, "params".toList⟩, ⟨.mark '[', [' '], 7, ['[']⟩, ⟨.text, [], 8, "\"_a\"".toList⟩,
    ⟨.mark ']', [], 12, [']']⟩, ⟨.mark ';', [], 13, [';']⟩, ⟨.identifier, [' '], 15, ['x']⟩,
    ⟨.operator, [' '], 17, ['=']⟩, ⟨.identifier, [' '], 19, ['_', 'A']⟩]

/-- The string in the list and the word after `=` are a definition and a usage of one variable. -/
theorem listedCode_mentions :
    lex listedCode = .ok listedTokens ∧
    (placesOf .definition (variablesOf (significant listedTokens) listedTokens)).count ⟨9, 11⟩ = 1 ∧
    (placesOf .usage (variablesOf (significant listedTokens) listedTokens)).count ⟨19, 21⟩ = 1 := by
  have hlex : lex listedCode = .ok listedTokens := by decide +kernel
  obtain ⟨hcounts, -⟩ := mentions_exact hlex
  obtain ⟨-, hstring, -⟩ :=
    hcounts (listedTokens.take 2) ⟨.text, [], 8, "\"_a\"".toList⟩ (listedTokens.drop 3) (by decide)
  obtain ⟨hname, -⟩ := hcounts (listedTokens.take 7) ⟨.identifier, [' '], 19, ['_', 'A']⟩ [] (by decide)
  exact ⟨hlex, (hstring (by decide)).1, (hname rfl (by decide)).2.1⟩

end SqfIndex.Script
