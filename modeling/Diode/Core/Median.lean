import Mathlib.Order.Interval.Finset.Nat

/-!
# Walking by medians

Every position `i` has a value `a i`, no smaller than `i`. From `b` the walk
goes to the value that just more than `T` of the `W` positions up to `b` reach.
It may go up or down, but never down and then up again, so it comes to rest
(`exists_rest`) and has no cycles (`rest_of_cycle`).
-/
namespace Diode.Core.Median

variable {a : ℕ → ℕ} {W T b p s t v : ℕ}

/-- The positions up to `b` in a window of `W`. -/
def window (W b : ℕ) : Finset ℕ := Finset.Ioc (b - W) b

/-- More than `T` positions of the window of `b` have a value of at least `v`,
at most `T` a greater one. -/
structure Reached (a : ℕ → ℕ) (W T b v : ℕ) : Prop where
  enough : T < ((window W b).filter fun i => v ≤ a i).card
  above : ((window W b).filter fun i => v < a i).card ≤ T

/-- **No ascent after a descent.** -/
theorem no_ascent (ha : ∀ i, i ≤ p → i ≤ a i) (hs : Reached a W T p s) (hlt : s < p)
    (ht : Reached a W T s t) : t ≤ s := by
  by_contra hst
  rw [Nat.not_le] at hst
  -- the positions of both windows with a value above `s`
  set both := (Finset.Ioc (p - W) s).filter fun i => s < a i
  have hp : Finset.Ioc (max s (p - W)) p ∪ both ⊆ (window W p).filter fun i => s < a i := by
    intro i hi
    rw [Finset.mem_union, Finset.mem_Ioc, Finset.mem_filter, Finset.mem_Ioc] at hi
    rw [Finset.mem_filter, window, Finset.mem_Ioc]
    rcases hi with ⟨h1, h2⟩ | ⟨⟨h1, h2⟩, h3⟩
    · have := ha i h2
      omega
    · omega
  have hdisj : Disjoint (Finset.Ioc (max s (p - W)) p) both := by
    rw [Finset.disjoint_left]
    intro i hi hb
    rw [Finset.mem_Ioc] at hi
    have := (Finset.mem_Ioc.1 (Finset.mem_filter.1 hb).1).2
    omega
  have h1 := (Finset.card_le_card hp).trans hs.above
  rw [Finset.card_union_of_disjoint hdisj, Nat.card_Ioc] at h1
  have hsub : ((window W s).filter fun i => t ≤ a i) ⊆ Finset.Ioc (s - W) (min s (p - W)) ∪ both := by
    intro i hi
    rw [Finset.mem_filter, window, Finset.mem_Ioc] at hi
    rw [Finset.mem_union, Finset.mem_Ioc, Finset.mem_filter, Finset.mem_Ioc]
    omega
  have h2 := ht.enough.trans_le ((Finset.card_le_card hsub).trans (Finset.card_union_le _ _))
  rw [Nat.card_Ioc] at h2
  omega

section
variable {x : ℕ → ℕ} {M : ℕ}

/-- A bounded walk that never ascends after a descent comes to rest. -/
theorem exists_rest (hM : ∀ n, x (n + 1) ≤ M) (h : ∀ n, x (n + 2) < x (n + 1) → x (n + 3) ≤ x (n + 2)) :
    ∃ n, x (n + 1) = x n := by
  by_contra hne
  simp only [not_exists] at hne
  by_cases hd : ∃ n, x (n + 2) < x (n + 1)
  · obtain ⟨n, hn⟩ := hd
    have hdown : ∀ k, x (n + k + 2) < x (n + k + 1) := by
      intro k
      induction k with
      | zero => exact hn
      | succ k ih => exact lt_of_le_of_ne (h _ ih) (hne _)
    have hle : ∀ k, x (n + k + 1) + k ≤ x (n + 1) := by
      intro k
      induction k with
      | zero => exact le_refl _
      | succ k ih =>
        have := hdown k
        rw [show n + (k + 1) + 1 = n + k + 2 by omega]
        omega
    have := hle (x (n + 1) + 1)
    omega
  · simp only [not_exists, not_lt] at hd
    have hge : ∀ k, x 1 + k ≤ x (k + 1) := by
      intro k
      induction k with
      | zero => exact le_refl _
      | succ k ih =>
        have h1 : x (k + 1) < x (k + 2) := lt_of_le_of_ne (hd k) (Ne.symm (hne (k + 1)))
        show x 1 + (k + 1) ≤ x (k + 2)
        omega
    have h1 := hge (M + 1)
    have h2 := hM (M + 1)
    omega

/-- At rest the walk stays. -/
theorem stays {f : ℕ → ℕ} (hx : ∀ n, x (n + 1) = f (x n)) {n : ℕ} (h : x (n + 1) = x n) :
    ∀ k, x (n + k) = x n
  | 0 => rfl
  | k + 1 => by rw [← Nat.add_assoc, hx, stays hx h k, ← hx, h]

/-- A walk that comes back to its start was at rest there. -/
theorem rest_of_cycle {f : ℕ → ℕ} (hx : ∀ n, x (n + 1) = f (x n)) {n k : ℕ}
    (h : x (n + 1) = x n) (hk : 0 < k)
    (hc : x k = x 0) : x 1 = x 0 := by
  have hper : ∀ j i, x (i + k * j) = x i := by
    intro j
    induction j with
    | zero => exact fun _ => rfl
    | succ j ih =>
      intro i
      have hshift : ∀ i, x (i + k) = x i := by
        intro i
        induction i with
        | zero => rw [Nat.zero_add, hc]
        | succ i ih' => rw [show i + 1 + k = i + k + 1 by omega, hx, ih', hx]
      rw [Nat.mul_succ, ← Nat.add_assoc, hshift, ih]
  obtain ⟨d, hd⟩ := Nat.exists_eq_add_of_le (Nat.le_mul_of_pos_left n hk)
  have h0 : x 0 = x n := by
    rw [← hper n 0, Nat.zero_add, hd]
    exact stays hx h d
  rw [← Nat.zero_add 1, hx, h0, ← hx, h]

end
end Diode.Core.Median
