import Mathlib.Data.List.Perm.Basic
import Mathlib.Data.List.TakeWhile
import SqfIndex.Script.Bracket

/-!
# Brackets without a partner

`Balanced` says when brackets are nested and matched. The tokens that are not reported are balanced, and if all are
balanced none is reported: `bracket_faults_exact`. What carries the proof is `Closing`: the brackets that are open
before some tokens, as far as they are not reported, are closed by what is kept of these tokens.
-/

namespace SqfIndex.Script

/-! ## Balanced words -/

/-- Words in which brackets of one kind enclose balanced words. -/
inductive Balanced : List Char → Prop
  | nil : Balanced []
  | nest {o c : Char} {inner rest : List Char} (hc : opener? c = some o) (hinner : Balanced inner)
      (hrest : Balanced rest) : Balanced (o :: (inner ++ c :: rest))

theorem isOpener_of_opener? {c o : Char} (h : opener? c = some o) : isOpener o = true ∧ isOpener c = false := by
  unfold opener? at h
  split at h
  · cases h; decide
  · cases h; decide
  · cases h; decide
  · cases h

theorem Balanced.append {u v : List Char} (hu : Balanced u) (hv : Balanced v) : Balanced (u ++ v) := by
  induction hu with
  | nil => exact hv
  | nest hc hinner _ _ ih =>
      rw [List.cons_append, List.append_assoc, List.cons_append]
      exact .nest hc hinner ih

/-- A word closes the brackets that are open before it, innermost first, and is balanced apart from that. -/
def Closing : List Char → List Char → Prop
  | [], w => Balanced w
  | o :: os, w => ∃ inner c rest, w = inner ++ c :: rest ∧ Balanced inner ∧ opener? c = some o ∧ Closing os rest

namespace Closing

variable {o c : Char} {os u w : List Char}

theorem balanced_append (hu : Balanced u) (h : Closing os w) : Closing os (u ++ w) := by
  cases os with
  | nil => exact hu.append h
  | cons o os =>
      obtain ⟨inner, c, rest, rfl, hinner, hc, hrest⟩ := h
      exact ⟨u ++ inner, c, rest, by rw [List.append_assoc], hu.append hinner, hc, hrest⟩

theorem of_opener (h : Closing (o :: os) w) : Closing os (o :: w) := by
  obtain ⟨inner, c, rest, rfl, hinner, hc, hrest⟩ := h
  have hpair : Balanced (o :: (inner ++ [c])) := .nest hc hinner .nil
  have hword := balanced_append hpair hrest
  rwa [List.cons_append, List.append_assoc, List.singleton_append] at hword

theorem of_closer (hc : opener? c = some o) (h : Closing os w) : Closing (o :: os) (c :: w) :=
  ⟨[], c, w, rfl, .nil, hc, h⟩

/-- An opening bracket at the front is one more that is open. -/
theorem opener_inv (ho : isOpener o = true) (h : Closing os (o :: w)) : Closing (o :: os) w := by
  cases os with
  | nil =>
      cases h with
      | nest hc hinner hrest => exact ⟨_, _, _, rfl, hinner, hc, hrest⟩
  | cons o' os =>
      obtain ⟨inner, c, rest, hword, hinner, hc, hrest⟩ := h
      cases hinner with
      | nil =>
          obtain ⟨rfl, rfl⟩ := List.cons.inj hword
          rw [(isOpener_of_opener? hc).2] at ho
          cases ho
      | nest hc' hinner' hrest' =>
          rw [List.cons_append, List.append_assoc, List.cons_append] at hword
          obtain ⟨rfl, rfl⟩ := List.cons.inj hword
          exact ⟨_, _, _, rfl, hinner', hc', _, c, rest, rfl, hrest', hc, hrest⟩

/-- A closing bracket at the front closes the innermost one that is open. -/
theorem closer_inv (hc : opener? c = some o) (h : Closing os (c :: w)) : ∃ os', os = o :: os' ∧ Closing os' w := by
  have hnot := (isOpener_of_opener? hc).2
  cases os with
  | nil =>
      cases h with
      | nest hc' _ _ =>
          rw [(isOpener_of_opener? hc').1] at hnot
          cases hnot
  | cons o' os =>
      obtain ⟨inner, c', rest, hword, hinner, hc', hrest⟩ := h
      cases hinner with
      | nil =>
          obtain ⟨rfl, rfl⟩ := List.cons.inj hword
          rw [hc] at hc'
          cases hc'
          exact ⟨os, rfl, hrest⟩
      | nest hc'' _ _ =>
          obtain ⟨rfl, -⟩ := List.cons.inj hword
          rw [(isOpener_of_opener? hc'').1] at hnot
          cases hnot

theorem nil_inv (h : Closing os []) : os = [] := by
  cases os with
  | nil => rfl
  | cons o os =>
      obtain ⟨inner, c, rest, hword, -⟩ := h
      cases inner <;> cases hword

end Closing

/-! ## Brackets among tokens -/

/-- The bracket that a token is, if it is one. -/
def bracket? (t : Token) : Option Char :=
  match t.kind with
  | .mark c => if isOpener c || (opener? c).isSome then some c else none
  | _ => none

/-- The brackets of some tokens, as a word. -/
def brackets (tokens : List Token) : List Char := tokens.filterMap bracket?

/-- The token of a fault is a bracket of the kind that the fault is about. -/
def BracketFault.Fits : BracketFault → Prop
  | .unexpected t => ∃ c, t.kind = .mark c ∧ (opener? c).isSome = true
  | .unclosed t => ∃ c, t.kind = .mark c ∧ isOpener c = true

section

variable {t : Token} {c o : Char}

theorem brackets_cons_opener (hkind : t.kind = .mark c) (hc : isOpener c = true) (ts : List Token) :
    brackets (t :: ts) = c :: brackets ts := by
  simp [brackets, bracket?, hkind, hc]

theorem brackets_cons_closer (hkind : t.kind = .mark c) (hc : opener? c = some o) (ts : List Token) :
    brackets (t :: ts) = c :: brackets ts := by
  simp [brackets, bracket?, hkind, hc]

theorem brackets_cons_mark (hkind : t.kind = .mark c) (hc : ¬isOpener c = true) (hnone : opener? c = none)
    (ts : List Token) : brackets (t :: ts) = brackets ts := by
  simp [brackets, bracket?, hkind, hc, hnone]

theorem brackets_cons_other (h : ∀ c, t.kind = .mark c → False) (ts : List Token) :
    brackets (t :: ts) = brackets ts := by
  have hnone : bracket? t = none := by
    unfold bracket?
    split
    · next c hkind => exact (h c hkind).elim
    · rfl
  rw [brackets, List.filterMap_cons_none hnone, brackets]

end

/-- The brackets that are open inside the one that is closed, that one, and those around it. -/
theorem exists_innermost {pending : List Token} {o : Char} (h : pending.any (·.kind == .mark o) = true) :
    ∃ t around, t.kind = .mark o ∧ pending = pending.takeWhile (·.kind != .mark o) ++ t :: around ∧
      (pending.dropWhile (·.kind != .mark o)).drop 1 = around := by
  obtain ⟨t₀, ht₀, hkind₀⟩ := List.any_eq_true.mp h
  cases hdrop : pending.dropWhile (·.kind != .mark o) with
  | nil =>
      have hother := List.dropWhile_eq_nil_iff.mp hdrop t₀ ht₀
      simp_all
  | cons t around =>
      have hnot := List.head?_dropWhile_not (·.kind != .mark o) pending
      rw [hdrop] at hnot
      refine ⟨t, around, by simpa using hnot, ?_, rfl⟩
      rw [← hdrop, List.takeWhile_append_dropWhile]

/-! ## Faults -/

theorem tokens_unclosed (ts : List Token) : (ts.map BracketFault.unclosed).map (·.token) = ts := by
  simp [Function.comp_def, BracketFault.token]

/-- Some of the brackets that are open are closed by the tokens that are kept, and all the rest is reported. -/
theorem exists_kept (pending ts : List Token) :
    ∃ held kept, held.Sublist pending ∧ kept.Sublist ts ∧
      (held ++ kept ++ (bracketFaults pending ts).map (·.token)).Perm (pending ++ ts) ∧
      Closing (brackets held) (brackets kept) := by
  fun_induction bracketFaults pending ts with
  | case1 pending =>
      refine ⟨[], [], List.nil_sublist _, .refl _, ?_, .nil⟩
      rw [tokens_unclosed]
      simp [List.reverse_perm]
  | case2 pending t ts c hkind hc ih =>
      obtain ⟨held, kept, hheld, hkept, hperm, hclosing⟩ := ih
      -- the bracket is closed further on, or it is reported
      cases hheld with
      | cons _ hheld =>
          exact ⟨held, kept, hheld, hkept.cons t, hperm.trans List.perm_middle.symm, hclosing⟩
      | @cons_cons held _ _ hheld =>
          refine ⟨held, t :: kept, hheld, hkept.cons_cons t, ?_, ?_⟩
          · simp only [List.append_assoc, List.cons_append] at hperm ⊢
            exact List.perm_middle.trans (hperm.trans List.perm_middle.symm)
          · rw [brackets_cons_opener hkind hc] at hclosing ⊢
            exact hclosing.of_opener
  | case3 pending t ts c hkind hc hnone ih =>
      obtain ⟨held, kept, hheld, hkept, hperm, hclosing⟩ := ih
      refine ⟨held, t :: kept, hheld, hkept.cons_cons t, ?_, ?_⟩
      · simp only [List.append_assoc, List.cons_append] at hperm ⊢
        exact List.perm_middle.trans ((hperm.cons t).trans List.perm_middle.symm)
      · rwa [brackets_cons_mark hkind hc hnone]
  | case4 pending t ts c hkind hc o ho hany ih =>
      obtain ⟨held, kept, hheld, hkept, hperm, hclosing⟩ := ih
      obtain ⟨partner, around, hpartner, hsplit, hdrop⟩ := exists_innermost hany
      generalize pending.takeWhile (·.kind != .mark o) = inside at hsplit ⊢
      rw [hdrop] at hheld hperm ⊢
      subst hsplit
      refine ⟨partner :: held, t :: kept, (hheld.cons_cons partner).trans (List.sublist_append_right _ _),
        hkept.cons_cons t, ?_, ?_⟩
      · rw [List.map_append, tokens_unclosed]
        rw [List.perm_iff_count] at hperm ⊢
        intro u
        have hcount := hperm u
        simp only [List.count_append, List.count_cons] at hcount ⊢
        omega
      · rw [brackets_cons_opener hpartner (isOpener_of_opener? ho).1, brackets_cons_closer hkind ho]
        exact hclosing.of_closer ho
  | case5 pending t ts c hkind hc o ho hany ih =>
      obtain ⟨held, kept, hheld, hkept, hperm, hclosing⟩ := ih
      refine ⟨held, kept, hheld, hkept.cons t, ?_, hclosing⟩
      rw [List.map_cons]
      exact List.perm_middle.trans ((hperm.cons t).trans List.perm_middle.symm)
  | case6 pending t ts hkind ih =>
      obtain ⟨held, kept, hheld, hkept, hperm, hclosing⟩ := ih
      refine ⟨held, t :: kept, hheld, hkept.cons_cons t, ?_, ?_⟩
      · simp only [List.append_assoc, List.cons_append] at hperm ⊢
        exact List.perm_middle.trans ((hperm.cons t).trans List.perm_middle.symm)
      · rwa [brackets_cons_other hkind]

/-- The innermost of the brackets that are open. -/
theorem exists_of_brackets_eq_cons {pending : List Token}
    (hpending : ∀ t ∈ pending, ∃ c, t.kind = .mark c ∧ isOpener c = true) {o : Char} {os : List Char}
    (h : brackets pending = o :: os) : ∃ t around, pending = t :: around ∧ t.kind = .mark o ∧ brackets around = os := by
  cases pending with
  | nil => cases h
  | cons t around =>
      obtain ⟨c, hkind, hc⟩ := hpending t List.mem_cons_self
      rw [brackets_cons_opener hkind hc] at h
      obtain ⟨rfl, hos⟩ := List.cons.inj h
      exact ⟨t, around, rfl, hkind, hos⟩

/-- If the tokens close what is open before them and are balanced apart from that, nothing is reported. -/
theorem bracketFaults_of_closing {pending ts : List Token}
    (hpending : ∀ t ∈ pending, ∃ c, t.kind = .mark c ∧ isOpener c = true)
    (h : Closing (brackets pending) (brackets ts)) : bracketFaults pending ts = [] := by
  fun_induction bracketFaults pending ts with
  | case1 pending =>
      cases pending with
      | nil => rfl
      | cons t around =>
          obtain ⟨c, hkind, hc⟩ := hpending t List.mem_cons_self
          have hnil := h.nil_inv
          rw [brackets_cons_opener hkind hc] at hnil
          cases hnil
  | case2 pending t ts c hkind hc ih =>
      refine ih (List.forall_mem_cons.mpr ⟨⟨c, hkind, hc⟩, hpending⟩) ?_
      rw [brackets_cons_opener hkind hc] at h ⊢
      exact h.opener_inv hc
  | case3 pending t ts c hkind hc hnone ih =>
      rw [brackets_cons_mark hkind hc hnone] at h
      exact ih hpending h
  | case4 pending t ts c hkind hc o ho hany ih =>
      rw [brackets_cons_closer hkind ho] at h
      obtain ⟨os, hos, hrest⟩ := h.closer_inv ho
      obtain ⟨partner, around, rfl, hpartner, rfl⟩ := exists_of_brackets_eq_cons hpending hos
      have htake : (partner :: around).takeWhile (·.kind != .mark o) = [] := by simp [hpartner]
      have hdrop : ((partner :: around).dropWhile (·.kind != .mark o)).drop 1 = around := by simp [hpartner]
      rw [hdrop] at ih ⊢
      rw [htake, ih (List.forall_mem_cons.mp hpending).2 hrest]
      rfl
  | case5 pending t ts c hkind hc o ho hany ih =>
      rw [brackets_cons_closer hkind ho] at h
      obtain ⟨os, hos, -⟩ := h.closer_inv ho
      obtain ⟨partner, around, rfl, hpartner, -⟩ := exists_of_brackets_eq_cons hpending hos
      simp [hpartner] at hany
  | case6 pending t ts hkind ih =>
      rw [brackets_cons_other hkind] at h
      exact ih hpending h

/-- What holds of all that may be reported holds of every fault. -/
theorem forall_mem_bracketFaults {P : BracketFault → Prop} {pending ts : List Token}
    (hpending : ∀ t ∈ pending, P (.unclosed t))
    (hopener : ∀ t ∈ ts, ∀ c, t.kind = .mark c → isOpener c = true → P (.unclosed t))
    (hcloser : ∀ t ∈ ts, ∀ c, t.kind = .mark c → (opener? c).isSome = true → P (.unexpected t)) :
    ∀ fault ∈ bracketFaults pending ts, P fault := by
  fun_induction bracketFaults pending ts with
  | case1 pending =>
      intro fault h
      obtain ⟨t, ht, rfl⟩ := List.mem_map.mp h
      exact hpending t (List.mem_reverse.mp ht)
  | case2 pending t ts c hkind hc ih =>
      obtain ⟨ht, hopener⟩ := List.forall_mem_cons.mp hopener
      exact ih (List.forall_mem_cons.mpr ⟨ht c hkind hc, hpending⟩) hopener (List.forall_mem_cons.mp hcloser).2
  | case3 pending t ts c hkind hc hnone ih =>
      exact ih hpending (List.forall_mem_cons.mp hopener).2 (List.forall_mem_cons.mp hcloser).2
  | case4 pending t ts c hkind hc o ho hany ih =>
      refine List.forall_mem_append.mpr
        ⟨?_, ih ?_ (List.forall_mem_cons.mp hopener).2 (List.forall_mem_cons.mp hcloser).2⟩
      · intro fault h
        obtain ⟨t', ht', rfl⟩ := List.mem_map.mp h
        exact hpending t' (List.takeWhile_subset _ ht')
      · intro t' ht'
        exact hpending t' (List.dropWhile_subset _ (List.mem_of_mem_drop ht'))
  | case5 pending t ts c hkind hc o ho hany ih =>
      obtain ⟨ht, hcloser⟩ := List.forall_mem_cons.mp hcloser
      exact List.forall_mem_cons.mpr
        ⟨ht c hkind (by rw [ho]; rfl), ih hpending (List.forall_mem_cons.mp hopener).2 hcloser⟩
  | case6 pending t ts hkind ih =>
      exact ih hpending (List.forall_mem_cons.mp hopener).2 (List.forall_mem_cons.mp hcloser).2

/-- What is left of different tokens when those not among `kept` go. -/
theorem eq_filter_of_perm {kept gone tokens : List Token} (hsub : kept.Sublist tokens)
    (hperm : (kept ++ gone).Perm tokens) (hnodup : tokens.Nodup) : kept = tokens.filter (· ∉ gone) := by
  obtain ⟨-, -, hdisjoint⟩ := List.nodup_append.mp (hperm.nodup_iff.mpr hnodup)
  have hkept : kept.filter (· ∉ gone) = kept := by
    refine List.filter_eq_self.mpr ?_
    intro t ht
    simpa using fun hgone => hdisjoint t ht t hgone rfl
  have hgone : gone.filter (· ∉ gone) = [] := by simp
  refine (hkept ▸ hsub.filter (· ∉ gone)).eq_of_length ?_
  have hlength := (hperm.filter (· ∉ gone)).length_eq
  rwa [List.filter_append, hkept, hgone, List.append_nil] at hlength

/-- Every fault is about a closing bracket that is unexpected or an opening one that is never closed. Each token is
reported once or kept, and the brackets of the tokens that are kept are balanced; where no token occurs twice these
are the tokens that no fault is about. Nothing is found exactly if all brackets are balanced. -/
theorem bracket_faults_exact (tokens : List Token) :
    (∀ fault ∈ bracketFaults [] tokens, fault.Fits) ∧
    (∃ kept, kept.Sublist tokens ∧ (kept ++ (bracketFaults [] tokens).map (·.token)).Perm tokens ∧
      Balanced (brackets kept) ∧
      (tokens.Nodup → kept = tokens.filter (· ∉ (bracketFaults [] tokens).map (·.token)))) ∧
    (bracketFindings tokens = [] ↔ Balanced (brackets tokens)) := by
  obtain ⟨held, kept, hheld, hkept, hperm, hclosing⟩ := exists_kept [] tokens
  obtain rfl := List.sublist_nil.mp hheld
  have hfits : ∀ fault ∈ bracketFaults [] tokens, fault.Fits :=
    forall_mem_bracketFaults (by simp) (fun _ _ c hkind hc => ⟨c, hkind, hc⟩) (fun _ _ c hkind hc => ⟨c, hkind, hc⟩)
  refine ⟨hfits, ⟨kept, hkept, hperm, hclosing, eq_filter_of_perm hkept hperm⟩, ?_, ?_⟩
  · intro hnone
    rw [List.map_eq_nil_iff.mp hnone, List.map_nil, List.append_nil] at hperm
    rwa [← hkept.eq_of_length hperm.length_eq]
  · intro hbalanced
    have hnone : bracketFaults [] tokens = [] := bracketFaults_of_closing (by simp) hbalanced
    rw [bracketFindings, hnone, List.map_nil]

end SqfIndex.Script
