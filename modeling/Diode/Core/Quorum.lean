import Mathlib.Algebra.BigOperators.Group.Finset.Piecewise
import Mathlib.Algebra.Order.BigOperators.Group.Finset

/-!
# Weighted quorums

Members of `α` have weights that add up to `N` at most; a quorum weighs more
than `T`. Two quorums that meet outside a common part `C` only in members of no
weight use the weight of `C` twice.
-/
namespace Diode.Core.Quorum

variable {α : Type*} {w : α → ℕ} {N T : ℕ}

/-- **Quorum intersection** with a common part. -/
theorem common_weight [DecidableEq α] (hN : ∀ s : Finset α, ∑ x ∈ s, w x ≤ N)
    {S S' C U U' : Finset α} (hS : T < ∑ x ∈ S, w x)
    (hS' : T < ∑ x ∈ S', w x) (hc : S ⊆ C ∪ U) (hc' : S' ⊆ C ∪ U') (hd : ∀ x ∈ U, x ∈ U' → w x = 0) :
    2 * (T + 1) ≤ N + ∑ x ∈ C, w x := by
  have h1 : ∑ x ∈ S, w x ≤ ∑ x ∈ C ∪ U, w x := Finset.sum_le_sum_of_subset hc
  have h2 : ∑ x ∈ S', w x ≤ ∑ x ∈ C ∪ U', w x := Finset.sum_le_sum_of_subset hc'
  have h3 := @Finset.sum_union_inter _ _ (C ∪ U) (C ∪ U') _ w _
  have h4 : ∑ x ∈ (C ∪ U) ∩ (C ∪ U'), w x ≤ ∑ x ∈ C, w x := by
    rw [← Finset.union_inter_distrib_left]
    have h5 := @Finset.sum_union_inter _ _ C (U ∩ U') _ w _
    have h6 : ∑ x ∈ U ∩ U', w x = 0 :=
      Finset.sum_eq_zero fun x hx => hd x (Finset.mem_inter.1 hx).1 (Finset.mem_inter.1 hx).2
    omega
  have h7 := hN ((C ∪ U) ∪ (C ∪ U'))
  omega

/-- Counting the members of a list is a weight of total `l.length`. -/
theorem sum_count_le [BEq α] [LawfulBEq α] (l : List α) (s : Finset α) :
    ∑ x ∈ s, l.count x ≤ l.length := by
  induction l with
  | nil => simp
  | cons a l ih =>
    classical
    have h : ∑ x ∈ s, (if a = x then 1 else 0) ≤ 1 := by
      rw [Finset.sum_ite_eq]
      split <;> omega
    calc ∑ x ∈ s, (a :: l).count x = ∑ x ∈ s, (l.count x + if a = x then 1 else 0) :=
          Finset.sum_congr rfl fun x _ => by simp [List.count_cons]
      _ = ∑ x ∈ s, l.count x + ∑ x ∈ s, (if a = x then 1 else 0) := Finset.sum_add_distrib
      _ ≤ (a :: l).length := by rw [List.length_cons]; omega

end Diode.Core.Quorum
