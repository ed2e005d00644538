import Mathlib.Data.List.Basic

/-!
# Lists that are their own shift

A list that is left when others are put behind it and as many dropped from its
front is made of repeats of these.
-/
namespace Diode.Core.Shift

variable {α : Type*} {v w : List α}

theorem suffix_of_drop (hw : w ≠ []) : ∀ {n : Nat} {v : List α}, v.length ≤ n →
    (v ++ w).drop w.length = v →
    v <:+ (List.replicate n w).flatten
  | 0, v, hn, _ => by
    rw [List.length_eq_zero_iff.1 (Nat.le_zero.1 hn)]
    exact List.nil_suffix
  | n + 1, v, hn, h => by
    have hpos := List.length_pos_iff.2 hw
    rw [List.replicate_succ', List.flatten_append, List.flatten_singleton]
    rcases Nat.lt_or_ge w.length v.length with hlt | hge
    · rw [List.drop_append_of_le_length (Nat.le_of_lt hlt)] at h
      have hshift : (v.drop w.length ++ w).drop w.length = v.drop w.length :=
        congrArg (List.drop w.length) h
      have hlen : (v.drop w.length).length ≤ n := by
        rw [List.length_drop]
        omega
      rw [← h]
      exact List.suffix_append_self_iff.2 (suffix_of_drop hw hlen hshift)
    · rw [List.drop_append, List.drop_of_length_le hge, List.nil_append] at h
      rw [← h]
      exact (List.drop_suffix _ w).trans (List.suffix_append _ w)

/-- A list whose shift brings in one element only is made of it. -/
theorem drop_replicate {k : Nat} (hk : 0 < k) (v : List α) (a : α) :
    (v ++ List.replicate k a).drop k = v ↔ v = List.replicate v.length a := by
  refine ⟨?_, ?_⟩
  · intro h
    have hw : List.replicate k a ≠ [] := fun h0 => Nat.ne_of_gt hk ((List.replicate_eq_nil_iff a).1 h0)
    have hs := suffix_of_drop hw (Nat.le_refl _) (by rw [List.length_replicate]; exact h)
    rw [List.flatten_replicate_replicate, List.suffix_replicate_iff] at hs
    exact hs.2
  · intro h
    rw [h, List.replicate_append_replicate, List.drop_replicate, Nat.add_sub_cancel]

theorem take_replicate {k n : Nat} (hk : 0 < k) (hn : v.length = n) (a : α) :
    (List.replicate k a ++ v).take n = v ↔ v = List.replicate n a := by
  have hrev : (List.replicate k a ++ v).take n = v ↔
    (v.reverse ++ List.replicate k a).drop k = v.reverse := by
    rw [← List.reverse_inj, List.reverse_take, List.reverse_append, List.reverse_replicate,
      List.length_append,
      List.length_replicate, hn, Nat.add_sub_cancel]
  rw [hrev, drop_replicate hk, List.length_reverse, hn, List.reverse_eq_iff, List.reverse_replicate]

/-- A list of whole periods is made of the one its shift brings in. -/
theorem drop_repeats {m : Nat} (hw : w ≠ []) (hm : v.length = m * w.length) :
    (v ++ w).drop w.length = v ↔ v = (List.replicate m w).flatten := by
  refine ⟨?_, ?_⟩
  · intro h
    have hle : m ≤ v.length := by
      rw [hm]
      exact Nat.le_mul_of_pos_right m (List.length_pos_iff.2 hw)
    have hs := suffix_of_drop hw (Nat.le_refl _) h
    have hm' : (List.replicate m w).flatten <:+ (List.replicate v.length w).flatten := by
      rw [← Nat.sub_add_cancel hle, ← List.replicate_append_replicate, List.flatten_append]
      exact List.suffix_append _ _
    have hlen : v.length = (List.replicate m w).flatten.length := by
      rw [hm, List.length_flatten, List.map_replicate, List.sum_replicate_nat]
    exact (List.suffix_of_suffix_length_le hs hm' (Nat.le_of_eq hlen)).eq_of_length hlen
  · intro h
    have hcomm : v ++ w = w ++ v := by
      rw [h]
      have h1 := congrArg List.flatten (List.replicate_succ (n := m) (a := w))
      have h2 := congrArg List.flatten (List.replicate_succ' (n := m) (a := w))
      rw [List.flatten_cons] at h1
      rw [List.flatten_append, List.flatten_singleton] at h2
      exact h2.symm.trans h1
    rw [hcomm, List.drop_left]

end Diode.Core.Shift
