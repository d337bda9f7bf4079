import Mathlib.Data.List.Dedup
import SqfIndex.Proofs.Symbol.Search

/-!
# What an index answers

Values are added to an index under names, and now and then all are dropped. Its answers are those of a look through the
values that were added since (`sinceCleared`), whichever table they are taken from: `answers_exact`.
-/

namespace SqfIndex.PrefixIndex

open Std (ExtTreeMap)

variable {α : Type}

/-- A change of an index. -/
inductive Change (α : Type)
  | add (name : String) (value : α)
  | clear

namespace Change

def apply (ix : PrefixIndex α) : Change α → PrefixIndex α
  | add name value => ix.add name value
  | clear => ix.clear

def added? : Change α → Option (String × α)
  | add name value => some (name, value)
  | clear => none

end Change

/-- The index after some changes, from the empty one. -/
def after (changes : List (Change α)) : PrefixIndex α := changes.foldl Change.apply {}

/-- The values that were added after all were dropped for the last time, with their names and in order. -/
def sinceCleared (changes : List (Change α)) : List (String × α) :=
  ((changes.reverse.takeWhile (·.added?.isSome)).filterMap Change.added?).reverse

theorem sinceCleared_add (changes : List (Change α)) (name : String) (value : α) :
    sinceCleared (changes ++ [.add name value]) = sinceCleared changes ++ [(name, value)] := by
  simp [sinceCleared, Change.added?]

theorem sinceCleared_clear (changes : List (Change α)) : sinceCleared (changes ++ [.clear]) = [] := by
  simp [sinceCleared, Change.added?]

/-- Nothing is left of what was there before. -/
theorem after_eq_ofEntries (changes : List (Change α)) : after changes = ofEntries (sinceCleared changes) := by
  induction changes using List.reverseRecOn with
  | nil => rfl
  | append_singleton changes change ih =>
      rw [after, List.foldl_append, ← after, ih]
      cases change with
      | add name value =>
          rw [sinceCleared_add, ofEntries_append]
          rfl
      | clear =>
          rw [sinceCleared_clear]
          rfl

/-- Every name has one entry, however often it was added. -/
theorem keys_ofEntries_perm (entries : List (String × α)) :
    (ofEntries entries).exact.keys.Perm (entries.map fun e => Text.lowered e.1).dedup := by
  refine (List.perm_ext_iff_of_nodup ExtTreeMap.nodup_keys (List.nodup_dedup _)).mpr ?_
  intro key
  rw [ExtTreeMap.mem_keys, mem_exact, List.mem_dedup, List.mem_map]

/-- After any additions and clearings, an index finds for a query the values that were added since the last clearing
under names that start with it in lower case, each as often as it was added; it gives for a name those that were added
under the same name in lower case, in the order in which they came; and its size is the number of names that differ in
lower case. -/
theorem answers_exact (changes : List (Change α)) :
    let ix := after changes
    let entries := sinceCleared changes
    (∀ query, (ix.find query).Perm
      ((entries.filter fun e => Text.lower query.toList <+: Text.lower e.1.toList).map (·.2))) ∧
    (∀ name, ix.get name = (entries.filter fun e => Text.lowered e.1 = Text.lowered name).map (·.2)) ∧
    ix.size = (entries.map fun e => Text.lowered e.1).dedup.length := by
  intro ix entries
  have hix : ix = ofEntries entries := after_eq_ofEntries changes
  rw [hix]
  refine ⟨find_ofEntries_perm entries, fun name => filed_exact entries (Text.lowered name), ?_⟩
  rw [size, ← ExtTreeMap.length_keys]
  exact (keys_ofEntries_perm entries).length_eq

end SqfIndex.PrefixIndex
