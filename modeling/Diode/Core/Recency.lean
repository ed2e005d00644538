import Mathlib.Data.List.Dedup
import Mathlib.Data.List.DropRight

/-!
# The last used

A list of uses, oldest first. `List.dedup` keeps the last occurrence of each
member, so it lists the members in the order of their last use. `recent n` is
the last `n` of them, and one more use changes it as a cache of `n` places
changes (`recent_snoc`): the member moves to the end, and the one whose last use
is oldest leaves if there are too many.
-/
namespace Diode.Core

variable {α : Type}

theorem rtake_append {l m : List α} {n : Nat} (h : n ≤ m.length) : (l ++ m).rtake n = m.rtake n := by
  unfold List.rtake
  rw [List.length_append, show l.length + m.length - n = l.length + (m.length - n) by omega]
  simp

theorem rtake_of_le {l : List α} {n : Nat} (h : l.length ≤ n) : l.rtake n = l := by
  unfold List.rtake
  simp [show l.length - n = 0 by omega]

variable [DecidableEq α]

/-- The `n` members used last, the oldest first. -/
def recent (n : Nat) (l : List α) : List α := l.dedup.rtake n

theorem dedup_snoc (l : List α) (a : α) : (l ++ [a]).dedup = l.dedup.filter (· ≠ a) ++ [a] := by
  induction l with
  | nil => simp
  | cons b l ih =>
    rw [List.cons_append]
    by_cases hb : b ∈ l
    · rw [List.dedup_cons_of_mem (by simp [hb]), List.dedup_cons_of_mem hb, ih]
    · by_cases e : b = a
      · subst e
        rw [List.dedup_cons_of_mem (by simp), List.dedup_cons_of_notMem hb, ih]
        simp
      · rw [List.dedup_cons_of_notMem (by simp [hb, e]), List.dedup_cons_of_notMem hb, ih]
        simp [e]

theorem recent_nodup (n : Nat) (l : List α) : (recent n l).Nodup :=
  (List.drop_sublist _ _).nodup (List.nodup_dedup l)

theorem recent_length (n : Nat) (l : List α) : (recent n l).length = min n l.dedup.length := by
  simp [recent, List.rtake]; omega

theorem mem_of_mem_recent {n : Nat} {l : List α} {a : α} (h : a ∈ recent n l) : a ∈ l :=
  List.mem_dedup.1 (List.mem_of_mem_drop h)

/-- At most one member is the given one. -/
theorem length_filter_ne {l : List α} (h : l.Nodup) (a : α) :
    l.length ≤ (l.filter (· ≠ a)).length + if a ∈ l then 1 else 0 := by
  induction l with
  | nil => simp
  | cons b l ih =>
    obtain ⟨hb, hl⟩ := List.nodup_cons.1 h
    have := ih hl
    by_cases e : b = a
    · subst e
      simp [hb] at this ⊢; omega
    · by_cases ha : a ∈ l <;> simp [e, ha, Ne.symm e] at this ⊢ <;> omega

/-- **One more use.** -/
theorem recent_snoc (n : Nat) (l : List α) (a : α) :
    recent n (l ++ [a]) = ((recent n l).filter (· ≠ a) ++ [a]).rtake n := by
  obtain ⟨k, hk⟩ : ∃ k, l.dedup = l.dedup.take k ++ recent n l ∧
      (l.dedup.take k = [] ∨ n ≤ (recent n l).length) := by
    refine ⟨l.dedup.length - n, (List.take_append_drop ..).symm, ?_⟩
    rw [recent_length]
    by_cases h : l.dedup.length ≤ n
    · left; simp [show l.dedup.length - n = 0 by omega]
    · right; omega
  have hsnoc := dedup_snoc l a
  rw [hk.1, List.filter_append, List.append_assoc] at hsnoc
  unfold recent at hsnoc ⊢
  rw [hsnoc]
  rcases hk.2 with h | h
  · rw [h]; rfl
  · have hlen := length_filter_ne (recent_nodup n l) a
    refine rtake_append ?_
    rw [List.length_append, List.length_singleton]
    unfold recent at h hlen
    split at hlen <;> omega

end Diode.Core
