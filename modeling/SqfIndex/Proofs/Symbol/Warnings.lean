import Mathlib.Data.List.Basic
import Mathlib.Tactic.Tauto
import SqfIndex.Proofs.Symbol.History

/-!
# Warnings about undefined globals

The warnings that a reconciliation gives are read off the tables after it: `undefined_warnings_exact`.
-/

namespace SqfIndex

open Std (ExtTreeMap)

/-! ## Keys in the order of their first mention -/

/-- `ks` has the members of `keys`, each once and in the order in which they are first met. -/
structure FirstMet (keys ks : List String) : Prop where
  mem_iff : ∀ k, k ∈ ks ↔ k ∈ keys
  ordered : ks.Pairwise fun a b => keys.idxOf a < keys.idxOf b

variable {keys ks : List String} {k : String}

/-- A further key does not change the order of those met before. -/
theorem FirstMet.ordered_append (h : FirstMet keys ks) (k : String) :
    ks.Pairwise fun a b => (keys ++ [k]).idxOf a < (keys ++ [k]).idxOf b := by
  refine h.ordered.imp_of_mem ?_
  intro a b ha hb hlt
  rwa [List.idxOf_append_of_mem ((h.mem_iff a).mp ha), List.idxOf_append_of_mem ((h.mem_iff b).mp hb)]

theorem FirstMet.append_old (h : FirstMet keys ks) (hk : k ∈ keys) : FirstMet (keys ++ [k]) ks where
  mem_iff := by
    intro k'
    rw [h.mem_iff, List.mem_append, List.mem_singleton]
    exact ⟨Or.inl, fun h' => h'.elim id fun he => he ▸ hk⟩
  ordered := h.ordered_append k

theorem FirstMet.append_new (h : FirstMet keys ks) (hk : k ∉ keys) : FirstMet (keys ++ [k]) (ks ++ [k]) where
  mem_iff := by
    intro k'
    rw [List.mem_append, List.mem_append, h.mem_iff]
  ordered := by
    rw [List.pairwise_append]
    refine ⟨h.ordered_append k, List.pairwise_singleton _ k, ?_⟩
    intro a ha b hb
    have hak := (h.mem_iff a).mp ha
    have hlt := List.idxOf_lt_length_iff.mpr hak
    rw [List.mem_singleton] at hb
    subst hb
    rw [List.idxOf_append_of_mem hak, List.idxOf_append_of_notMem hk]
    omega

theorem firstMet_eraseDups (keys : List String) : FirstMet keys keys.eraseDups := by
  induction keys using List.reverseRecOn with
  | nil => exact ⟨by simp, by simp⟩
  | append_singleton keys k ih =>
      rw [List.eraseDups_append]
      by_cases hk : k ∈ keys
      · simpa [List.removeAll, hk] using ih.append_old hk
      · simpa [List.removeAll, hk, List.eraseDups_cons] using ih.append_new hk

/-! ## The warnings about one key -/

namespace Tables

/-- The name of the global of a key. -/
def nameOf (t : Tables) (key : String) : String := ((t.globals[key]?).map (·.name)).getD key

/-- No document defines the global of a key, no macro has the key, and its name is not ignored. -/
def Unexplained (settings : Settings) (t : Tables) (key : String) : Prop :=
  (∀ u, placesIn t.globals .definition key u = []) ∧ key ∉ t.macros ∧
    Text.lowered (t.nameOf key) ∉ settings.ignoredVariables

theorem isDefined_iff {t : Tables} {key : String} {g : Global} (h : t.globals[key]? = some g) :
    g.isDefined = true ↔ ¬ ∀ u, placesIn t.globals .definition key u = [] := by
  rw [Global.isDefined, any_toList_iff]
  simp [placesIn_of_getElem? h, Global.places]

open Classical in
theorem undefinedAt_eq (settings : Settings) (uri : Uri) (t : Tables) (key : String) :
    t.undefinedAt settings uri key =
      if Unexplained settings t key then
        (placesIn t.globals .usage key uri).map fun range =>
          ⟨.warning, "Possibly undefined variable " ++ t.nameOf key, range⟩
      else [] := by
  unfold undefinedAt
  cases hg : t.globals[key]? with
  | none => simp [placesIn_of_absent hg]
  | some g =>
      have hname : t.nameOf key = g.name := by simp [nameOf, hg]
      have hcond : (g.isDefined || t.macros.contains key || settings.ignores g.name) = true ↔
          ¬ Unexplained settings t key := by
        rw [Unexplained, hname, Bool.or_eq_true, Bool.or_eq_true, isDefined_iff hg]
        simp only [ExtTreeMap.contains_iff_mem, Settings.ignores, List.contains_iff_mem]
        tauto
      rw [hname, placesIn_of_getElem? hg]
      by_cases hu : Unexplained settings t key
      · simp [hu, Bool.eq_false_iff.mpr (mt hcond.mp (not_not_intro hu)), entry, Global.places]
      · simp [hu, hcond.mpr hu]

end Tables

open Classical in
/-- A reconciliation warns about the keys of the tracked variables of its report, in the order of
their first mention. About a key it warns exactly if the resulting tables leave it unexplained, and
then once for every place at which the document uses it, in order. The places in the resulting tables
are those of the last call about each document, this one included. -/
theorem undefined_warnings_exact (calls : List Call) (settings : Settings) (owns : String → Bool) (uri : Uri)
    (r : Report) :
    let outcome := (Store.after calls).reconcile settings owns uri r
    let t := outcome.1.tables
    (∃ ks, FirstMet ((r.vars.filter (Tables.isTracked owns)).map fun v => Text.lowered v.name) ks ∧
      outcome.2 = ks.flatMap fun key =>
        if Tables.Unexplained settings t key then
          (Tables.placesIn t.globals .usage key uri).map fun range =>
            ⟨.warning, "Possibly undefined variable " ++ t.nameOf key, range⟩
        else []) ∧
    ∀ m key u, Tables.placesIn t.globals m key u =
      Tables.contributed m key (latest (calls ++ [.reconcile settings owns uri r]) u) := by
  intro outcome t
  refine ⟨⟨_, firstMet_eraseDups _, ?_⟩, ?_⟩
  · simp only [← Tables.undefinedAt_eq]
    rfl
  · intro m key u
    have h := Tables.reflects_after (calls ++ [.reconcile settings owns uri r])
    rw [Store.after_append] at h
    exact h.places m key u

end SqfIndex
