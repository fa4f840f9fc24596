import Mathlib.Algebra.BigOperators.Group.List.Lemmas
import Mathlib.Algebra.GroupWithZero.Nat

/-!
# Census — counts of kinds

A list whose members are of one kind each, or of none, and the number of members of each
kind. The counts of some of the kinds add up to the length of the list exactly when every
member is of one of them.
-/

namespace UnixSys

variable {α κ : Type} [DecidableEq κ] (kind : α → Option κ)

/-- The number of members of kind `k`. -/
def census (l : List α) (k : κ) : Nat := l.countP (kind · = some k)

@[simp] theorem census_nil : census kind [] = fun _ => 0 := by
  ext k
  rfl

theorem census_append (l l' : List α) :
    census kind (l ++ l') = fun k => census kind l k + census kind l' k := by
  ext k
  exact List.countP_append

theorem census_singleton (a : α) (k : κ) :
    census kind [a] k = if kind a = some k then 1 else 0 := by
  simp [census, List.countP_singleton]

theorem census_concat (l : List α) (a : α) (k : κ) :
    census kind (l ++ [a]) k = census kind l k + if kind a = some k then 1 else 0 := by
  rw [census_append, ← census_singleton]

theorem census_cons (l : List α) (a : α) (k : κ) :
    census kind (a :: l) k = (if kind a = some k then 1 else 0) + census kind l k := by
  rw [← List.singleton_append, census_append, ← census_singleton]

theorem census_le_length (l : List α) (k : κ) : census kind l k ≤ l.length :=
  List.countP_le_length

/-- Among distinct kinds a member is counted once, or not at all. -/
theorem sum_census_singleton (a : α) {ks : List κ} (hks : ks.Nodup) :
    (ks.map (census kind [a])).sum = if ∃ k ∈ ks, kind a = some k then 1 else 0 := by
  induction ks with
  | nil => simp
  | cons k ks ih =>
      obtain ⟨hk, hrest⟩ := List.nodup_cons.mp hks
      rw [List.map_cons, List.sum_cons, census_singleton, ih hrest]
      by_cases ha : kind a = some k
      · have hnot : ¬ ∃ j ∈ ks, kind a = some j := by
          rintro ⟨j, hj, haj⟩
          obtain rfl : k = j := Option.some.inj (ha.symm.trans haj)
          exact hk hj
        rw [if_pos ha, if_neg hnot, if_pos ⟨k, List.mem_cons_self, ha⟩]
      · rw [if_neg ha, Nat.zero_add]
        simp [ha]

theorem sum_census_append (l l' : List α) (ks : List κ) :
    (ks.map (census kind (l ++ l'))).sum =
      (ks.map (census kind l)).sum + (ks.map (census kind l')).sum := by
  rw [census_append]
  exact List.sum_map_add

theorem sum_census_le_length (l : List α) {ks : List κ} (hks : ks.Nodup) :
    (ks.map (census kind l)).sum ≤ l.length := by
  induction l with
  | nil => simp
  | cons a l ih =>
      rw [← List.singleton_append, sum_census_append, sum_census_singleton kind a hks,
        List.length_append, List.length_singleton]
      split <;> omega

/-- The counts of distinct kinds add up to the length, exactly when every member is of
one of them. -/
theorem sum_census_eq_length_iff (l : List α) {ks : List κ} (hks : ks.Nodup) :
    (ks.map (census kind l)).sum = l.length ↔ ∀ a ∈ l, ∃ k ∈ ks, kind a = some k := by
  induction l with
  | nil => simp
  | cons a l ih =>
      have hle := sum_census_le_length kind l hks
      rw [List.forall_mem_cons, ← ih, ← List.singleton_append, sum_census_append,
        sum_census_singleton kind a hks, List.length_append, List.length_singleton]
      split
      · rename_i ha
        rw [and_iff_right ha]
        omega
      · rename_i ha
        refine iff_of_false ?_ fun h => ha h.1
        omega

end UnixSys
