import Mathlib.Data.List.Infix
import SqfIndex.Proofs.Symbol.Renewal

/-!
# What stays while a global lives

A global comes up with a call that mentions it and stays until a call leaves it without places. All that time it
goes by the name with which it came up, and the first comment that is not blank stays with it, whatever becomes of
the document that gave it: `identity_kept_while_alive`.
-/

namespace SqfIndex

open Std (ExtTreeMap)

/-! ## Comments -/

/-- Whether a variable has a comment that is not blank. -/
def Variable.isCommented (v : Variable Range) : Bool := v.comment.any fun text => Text.trimmed text ≠ ""

/-- The trimmed comment of the first variable that has one. -/
def firstComment? (vs : List (Variable Range)) : Option String :=
  (vs.find? Variable.isCommented).bind fun v => v.comment.map Text.trimmed

theorem nonBlank_comment (v : Variable Range) :
    Tables.nonBlank v.comment = if v.isCommented then v.comment.map Text.trimmed else none := by
  cases hc : v.comment with
  | none => simp [Tables.nonBlank]
  | some text => by_cases htext : Text.trimmed text = "" <;> simp [Tables.nonBlank, Variable.isCommented, hc, htext]

theorem findSome?_nonBlank (vs : List (Variable Range)) :
    (vs.findSome? fun v => Tables.nonBlank v.comment) = firstComment? vs := by
  induction vs with
  | nil => rfl
  | cons v vs ih =>
      rw [List.findSome?_cons, nonBlank_comment, firstComment?, List.find?_cons]
      cases hv : v.isCommented with
      | false => exact ih
      | true =>
          cases hc : v.comment with
          | none => simp [Variable.isCommented, hc] at hv
          | some text => simp [hc]

theorem firstComment?_append (vs ws : List (Variable Range)) :
    firstComment? (vs ++ ws) = (firstComment? vs).or (firstComment? ws) := by
  rw [← findSome?_nonBlank, List.findSome?_append, findSome?_nonBlank, findSome?_nonBlank]

/-! ## One call -/

namespace Tables

variable {c : Call} {s : Store} {key : String} {g g' : Global}

/-- A global that comes up has the name and the comment that the call gives. -/
theorem identity_of_born (hold : s.tables.globals[key]? = none) (hnew : (c.apply s).tables.globals[key]? = some g) :
    ∃ v, (c.variablesAt key).head? = some v ∧ g.name = v.name ∧ g.comment = firstComment? (c.variablesAt key) := by
  rw [getElem?_globals_apply, hold, Option.none_or, Option.filter_eq_some_iff, Option.map_eq_some_iff] at hnew
  obtain ⟨⟨fresh, hfresh, rfl⟩, -⟩ := hnew
  obtain ⟨v, hv, rfl⟩ := Option.map_eq_some_iff.mp hfresh
  exact ⟨v, hv, rfl, by rw [Global.comment_renew, Option.none_or, findSome?_nonBlank]⟩

/-- A global that stays keeps its name, and takes a comment only if it has none. -/
theorem identity_of_kept (hold : s.tables.globals[key]? = some g) (hnew : (c.apply s).tables.globals[key]? = some g') :
    g'.name = g.name ∧ g'.comment = g.comment.or (firstComment? (c.variablesAt key)) := by
  rw [getElem?_globals_apply, hold, Option.some_or, Option.filter_eq_some_iff, Option.map_some, Option.some.injEq] at hnew
  obtain ⟨rfl, -⟩ := hnew
  exact ⟨rfl, by rw [Global.comment_renew, findSome?_nonBlank]⟩

end Tables

/-! ## Lives -/

/-- A global is not there before the call `birth`, and it is there after this call and after each one of `during`. -/
structure Lifetime (key : String) (before : List Call) (birth : Call) (during : List Call) : Prop where
  unborn : key ∉ (Store.after before).tables.globals
  alive : ∀ sofar, sofar <+: during → key ∈ (Store.after (before ++ birth :: sofar)).tables.globals

/-- All that some calls say about a global, in order. -/
def said (key : String) (calls : List Call) : List (Variable Range) := calls.flatMap fun c => c.variablesAt key

namespace Lifetime

variable {key : String} {before during sofar later : List Call} {birth : Call}

theorem exists_global (h : Lifetime key before birth during) (hsofar : sofar <+: during) :
    ∃ g, (Store.after (before ++ birth :: sofar)).tables.globals[key]? = some g :=
  Option.isSome_iff_exists.mp (ExtTreeMap.mem_iff_isSome_getElem?.mp (h.alive sofar hsofar))

/-- Throughout a life the name is that of the first mention, and the comment the first that was given. -/
theorem identity (h : Lifetime key before birth during) :
    ∃ v, (birth.variablesAt key).head? = some v ∧ ∀ sofar, sofar <+: during →
      ∃ g, (Store.after (before ++ birth :: sofar)).tables.globals[key]? = some g ∧ g.name = v.name ∧
        g.comment = firstComment? (said key (birth :: sofar)) := by
  obtain ⟨born, hborn⟩ := h.exists_global List.nil_prefix
  have hunborn : (Store.after before).tables.globals[key]? = none := ExtTreeMap.getElem?_eq_none h.unborn
  have hbirth := hborn
  rw [Store.after_append] at hbirth
  obtain ⟨v, hv, hname, hcomment⟩ := Tables.identity_of_born hunborn hbirth
  refine ⟨v, hv, ?_⟩
  intro sofar
  -- one more call of the life at a time
  induction sofar using List.reverseRecOn with
  | nil => exact fun _ => ⟨born, hborn, hname, by simpa [said] using hcomment⟩
  | append_singleton sofar c ih =>
      intro hsofar
      obtain ⟨g, hg, hname, hcomment⟩ := ih ((List.prefix_append sofar [c]).trans hsofar)
      obtain ⟨g', hg'⟩ := h.exists_global hsofar
      have hstep := hg'
      rw [← List.cons_append, ← List.append_assoc, Store.after_append] at hstep
      obtain ⟨hname', hcomment'⟩ := Tables.identity_of_kept hg hstep
      refine ⟨g', hg', hname'.trans hname, ?_⟩
      rw [hcomment', hcomment, ← firstComment?_append]
      simp [said]

/-- A comment that was taken stays. -/
theorem firstComment?_of_prefix {text : String} (hle : sofar <+: later)
    (h : firstComment? (said key (birth :: sofar)) = some text) : firstComment? (said key (birth :: later)) = some text := by
  obtain ⟨rest, rfl⟩ := hle
  have hsaid : said key (birth :: (sofar ++ rest)) = said key (birth :: sofar) ++ said key rest := by simp [said]
  rw [hsaid, firstComment?_append, h, Option.some_or]

theorem start (hunborn : key ∉ (Store.after before).tables.globals)
    (hborn : key ∈ (Store.after (before ++ [birth])).tables.globals) : Lifetime key before birth [] where
  unborn := hunborn
  alive := by
    intro sofar hsofar
    rw [List.prefix_nil.mp hsofar]
    exact hborn

theorem extend {c : Call} (h : Lifetime key before birth during)
    (halive : key ∈ (Store.after (before ++ birth :: (during ++ [c]))).tables.globals) :
    Lifetime key before birth (during ++ [c]) where
  unborn := h.unborn
  alive := by
    intro sofar hsofar
    rcases List.prefix_concat_iff.mp hsofar with rfl | hsofar
    · exact halive
    · exact h.alive sofar hsofar

end Lifetime

/-- Whatever is in the table is in the midst of its life. -/
theorem exists_lifetime {key : String} {calls : List Call} (h : key ∈ (Store.after calls).tables.globals) :
    ∃ before birth during, calls = before ++ birth :: during ∧ Lifetime key before birth during := by
  induction calls using List.reverseRecOn with
  | nil => simp [Store.after] at h
  | append_singleton calls c ih =>
      by_cases hcalls : key ∈ (Store.after calls).tables.globals
      · obtain ⟨before, birth, during, rfl, hlife⟩ := ih hcalls
        refine ⟨before, birth, during ++ [c], by simp, hlife.extend ?_⟩
        simpa using h
      · exact ⟨calls, c, [], rfl, .start hcalls h⟩

/-- A global that is in the table after some calls came up with one of them and was there after each call since. In
the course of such a life its name is always the one with which the first tracked variable of its key came, which goes
with the key, and its comment is the trimmed comment of the first tracked variable of its key since then whose comment
is not blank; so once there is a comment, it stays until the end of the life, whichever documents are reconciled or
removed meanwhile. -/
theorem identity_kept_while_alive (key : String) :
    (∀ calls, key ∈ (Store.after calls).tables.globals →
      ∃ before birth during, calls = before ++ birth :: during ∧ Lifetime key before birth during) ∧
    ∀ before birth during, Lifetime key before birth during →
      ∃ v, (said key [birth]).head? = some v ∧ Text.lowered v.name = key ∧
        ∀ sofar, sofar <+: during →
          ∃ g, (Store.after (before ++ birth :: sofar)).tables.globals[key]? = some g ∧ g.name = v.name ∧
            g.comment = firstComment? (said key (birth :: sofar)) ∧
            ∀ text, g.comment = some text → ∀ later, sofar <+: later → later <+: during →
              ∃ g', (Store.after (before ++ birth :: later)).tables.globals[key]? = some g' ∧ g'.comment = some text := by
  refine ⟨fun calls => exists_lifetime, ?_⟩
  intro before birth during h
  obtain ⟨v, hv, hidentity⟩ := h.identity
  have hkey : Text.lowered v.name = key := by simpa using (List.mem_filter.mp (List.mem_of_head? hv)).2
  refine ⟨v, by simpa [said] using hv, hkey, ?_⟩
  intro sofar hsofar
  obtain ⟨g, hg, hname, hcomment⟩ := hidentity sofar hsofar
  refine ⟨g, hg, hname, hcomment, ?_⟩
  intro text htext later hle hlater
  obtain ⟨g', hg', -, hcomment'⟩ := hidentity later hlater
  exact ⟨g', hg', hcomment'.trans (Lifetime.firstComment?_of_prefix hle (hcomment ▸ htext))⟩

/-- A document brings a global up and comments on it. -/
def commented : Call :=
  .reconcile {} (fun _ => false) "file:///a"
    { vars := [{ name := "TAG_x", comment := some " first ", definitions := [⟨⟨0, 0⟩, ⟨0, 5⟩⟩] }] }

/-- Another document comments on it too, and the first one goes. -/
def commentedAgain : List Call :=
  [.reconcile {} (fun _ => false) "file:///b"
      { vars := [{ name := "tag_X", comment := some "second", usages := [⟨⟨0, 0⟩, ⟨0, 5⟩⟩] }] },
    .remove {} "file:///a"]

theorem commented_lifetime : Lifetime "tag_x" [] commented commentedAgain where
  unborn := by decide +kernel
  alive := by
    intro sofar hsofar
    have hall : ∀ sofar ∈ commentedAgain.inits, "tag_x" ∈ (Store.after ([] ++ commented :: sofar)).tables.globals := by
      decide +kernel
    exact hall sofar ((List.mem_inits _ _).mpr hsofar)

theorem comment_outlives_document :
    Lifetime "tag_x" [] commented commentedAgain ∧
      ∃ g, (Store.after ([] ++ commented :: commentedAgain)).tables.globals["tag_x"]? = some g ∧ g.name = "TAG_x" ∧
        g.comment = some "first" := by
  refine ⟨commented_lifetime, ?_⟩
  obtain ⟨v, hv, -, hlife⟩ := (identity_kept_while_alive "tag_x").2 [] commented commentedAgain commented_lifetime
  obtain ⟨g, hg, hname, hcomment, -⟩ := hlife commentedAgain (List.prefix_refl _)
  have hfirst : ((said "tag_x" [commented]).head?).map (·.name) = some "TAG_x" := by decide +kernel
  have htext : firstComment? (said "tag_x" (commented :: commentedAgain)) = some "first" := by decide +kernel
  rw [hv, Option.map_some, Option.some.injEq] at hfirst
  exact ⟨g, hg, hname.trans hfirst, hcomment.trans htext⟩

end SqfIndex
