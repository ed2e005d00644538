import Mathlib.Algebra.BigOperators.Group.Finset.Basic
import Mathlib.Algebra.BigOperators.Ring.Finset
import Mathlib.Algebra.Order.BigOperators.Group.Finset
import Mathlib.Data.Nat.ModEq
import Mathlib.Tactic.LinearCombination
import Mathlib.Tactic.Linarith
import Mathlib.Tactic.Ring
import Mathlib.Tactic.Zify

/-!
# Long division

Numbers as rows of digits to a base `b`, lowest digit first, and division one
quotient digit at a time.

* `valueOf_carry`: a row that is changed digit by digit with a carry.
* `long_div`: one digit of a quotient; what it is found by is left open.
* `trial_eq`, `trial_full`: the digit that is guessed from the first three digits of
  the dividend and the first two of the divisor is the right one or one too large.
* `IsReciprocal.two_by_one`, `IsReciprocal.three_by_two`, `corrected`: a quotient that is
  read off the product with a reciprocal is right after two corrections.
-/
namespace Diode.Core
open Finset

/-! ## Digits -/

/-- The number with the digits `f 0`, …, `f (n - 1)`. -/
def valueOf (b : ℕ) (f : ℕ → ℕ) (n : ℕ) : ℕ := ∑ i ∈ range n, f i * b ^ i

section digits
variable {b n m : ℕ} {f g : ℕ → ℕ}

@[simp] theorem valueOf_zero : valueOf b f 0 = 0 := rfl

theorem valueOf_succ : valueOf b f (n + 1) = valueOf b f n + f n * b ^ n := sum_range_succ ..

/-- A row cut at its digit `m`. -/
theorem valueOf_add : valueOf b f (m + n) = valueOf b f m + b ^ m * valueOf b (fun i => f (m + i)) n := by
  induction n with
  | zero => simp
  | succ n ih =>
    rw [← Nat.add_assoc, valueOf_succ, ih, valueOf_succ, pow_add]
    ring

theorem valueOf_congr (h : ∀ i < n, f i = g i) : valueOf b f n = valueOf b g n :=
  sum_congr rfl fun i hi => by rw [h i (mem_range.1 hi)]

theorem valueOf_lt (h : ∀ i < n, f i < b) : valueOf b f n < b ^ n := by
  induction n with
  | zero => simp
  | succ n ih =>
    have hlow := ih fun i hi => h i (by omega)
    have hle := Nat.mul_le_mul_right (b ^ n) (h n (by omega))
    rw [valueOf_succ, pow_succ, Nat.mul_comm (b ^ n)]
    rw [Nat.succ_mul] at hle
    omega

/-- Zeros in front. -/
theorem valueOf_zeros (hm : m ≤ n) (h : ∀ i < n, m ≤ i → f i = 0) : valueOf b f n = valueOf b f m := by
  obtain ⟨k, rfl⟩ := Nat.exists_eq_add_of_le hm
  have hzero : valueOf b (fun i => f (m + i)) k = 0 :=
    sum_eq_zero fun i hi => by
      have hi := mem_range.1 hi
      simp [h (m + i) (by omega) (by omega)]
  rw [valueOf_add, hzero, Nat.mul_zero, Nat.add_zero]

theorem valueOf_mul (q : ℕ) : valueOf b (fun i => f i * q) n = valueOf b f n * q := by
  rw [valueOf, valueOf, sum_mul]
  exact sum_congr rfl fun i _ => Nat.mul_right_comm ..

/-- The digits of `g` are those of `f` with the carry `c` handed on. -/
theorem valueOf_carry {c : ℕ → ℕ} (h : ∀ i < n, f i + c i = g i + b * c (i + 1)) :
    valueOf b f n + c 0 = valueOf b g n + b ^ n * c n := by
  induction n with
  | zero => simp
  | succ n ih =>
    have hlow := ih fun i hi => h i (by omega)
    have htop := h n (by omega)
    rw [valueOf_succ, valueOf_succ, pow_succ]
    calc valueOf b f n + f n * b ^ n + c 0 = valueOf b g n + b ^ n * (f n + c n) := by
          rw [Nat.add_right_comm, hlow]; ring
      _ = _ := by rw [htop]; ring

end digits

/-- The digits of a number. -/
theorem valueOf_digits (b x n : ℕ) : valueOf b (fun i => x / b ^ i % b) n = x % b ^ n := by
  induction n with
  | zero => simp [Nat.mod_one]
  | succ n ih => rw [valueOf_succ, ih, Nat.mod_pow_succ, Nat.mul_comm]

/-! ## One digit at a time -/

/-- The division of the first digits `w` leaves the first digits of what is left. -/
theorem long_div (l c w v : ℕ) (hv : 0 < v) :
    (l + c * w) / v = c * (w / v) + (l + c * (w % v)) / v ∧ (l + c * w) % v = (l + c * (w % v)) % v := by
  have h : l + c * w = l + c * (w % v) + v * (c * (w / v)) := by
    conv_lhs => rw [← Nat.mod_add_div w v]
    ring
  rw [h, Nat.add_mul_div_left _ _ hv, Nat.add_mul_mod_self_left, Nat.add_comm]
  exact ⟨rfl, rfl⟩

theorem long_div_lt {l c r v : ℕ} (hl : l < c) (hr : r < v) : l + c * r < v * c := calc
  l + c * r < c + c * r := by omega
  _ = (r + 1) * c := by ring
  _ ≤ v * c := Nat.mul_le_mul_right _ hr

/-! ## Guessing a digit -/

section trial
variable {b u2 u1 u0 v1 v0 q r : ℕ}

/-- Whether `q` is too large is seen from the remainder of the first two digits. -/
theorem trial_test {x : ℕ} (h : q * v1 + r = x) :
    r * b + u0 < q * v0 ↔ x * b + u0 < q * (v1 * b + v0) := by
  subst h
  have : q * (v1 * b + v0) = q * v1 * b + q * v0 := by ring
  rw [this, Nat.add_mul]
  omega

/-- The quotient of two digits by one is at most two more than that of three by two. -/
theorem trial_bounds (hv : b ≤ 2 * v1) (hv0 : v0 < b) (hu : q < b) (hq : q * v1 + r = u2 * b + u1)
    (hr : r < v1) (hu0 : u0 < b) :
    (q - 2) * (v1 * b + v0) ≤ (u2 * b + u1) * b + u0 ∧
      (u2 * b + u1) * b + u0 < (q + 1) * (v1 * b + v0) := by
  rw [← hq]
  constructor
  · rcases Nat.lt_or_ge q 2 with h2 | h2
    · rw [show q - 2 = 0 by omega, Nat.zero_mul]
      exact Nat.zero_le _
    · obtain ⟨k, rfl⟩ := Nat.exists_eq_add_of_le h2
      rw [Nat.add_sub_cancel_left]
      have hk : k * v0 ≤ k * b := Nat.mul_le_mul_left _ hv0.le
      have hkb : k * b ≤ 2 * v1 * b := Nat.mul_le_mul_right _ (by omega)
      calc k * (v1 * b + v0) = k * v1 * b + k * v0 := by ring
        _ ≤ k * v1 * b + 2 * v1 * b := by omega
        _ = (2 + k) * v1 * b := by ring
        _ ≤ ((2 + k) * v1 + r) * b := Nat.mul_le_mul_right _ (by omega)
        _ ≤ _ := Nat.le_add_right ..
  · calc (q * v1 + r) * b + u0 < (q * v1 + r) * b + b := by omega
      _ = (q * v1 + (r + 1)) * b := by ring
      _ ≤ (q * v1 + v1) * b := Nat.mul_le_mul_right _ (by omega)
      _ = (q + 1) * (v1 * b) := by ring
      _ ≤ _ := Nat.mul_le_mul_left _ (Nat.le_add_right ..)

/-- At most two corrections lead to the quotient of three digits by two. -/
theorem trial_eq {u v : ℕ} (hlo : (q - 2) * v ≤ u) (hhi : u < (q + 1) * v) :
    u / v = if u < q * v then if u < (q - 1) * v then q - 2 else q - 1 else q := by
  split
  · next h1 =>
    have hq : q ≠ 0 := by rintro rfl; omega
    split
    · next h2 =>
      have hq1 : q - 1 ≠ 0 := by intro h0; rw [h0] at h2; omega
      exact Nat.div_eq_of_lt_le hlo (by rwa [show q - 2 + 1 = q - 1 by omega])
    · next h2 => exact Nat.div_eq_of_lt_le (Nat.le_of_not_lt h2) (by rwa [show q - 1 + 1 = q by omega])
  · next h1 => exact Nat.div_eq_of_lt_le (Nat.le_of_not_lt h1) hhi

variable {u v u3 v2 c : ℕ}

/-- The quotient of the first digits is never too small. -/
theorem div_le_of_top (hu : u < (u3 + 1) * c) (hv : v2 * c ≤ v) (hpos : 0 < v2) : u / v ≤ u3 / v2 := by
  rw [Nat.le_div_iff_mul_le hpos]
  refine Nat.lt_succ_iff.1 (Nat.lt_of_mul_lt_mul_right (a := c) ?_)
  calc u / v * v2 * c = u / v * (v2 * c) := by ring
    _ ≤ u / v * v := Nat.mul_le_mul_left _ hv
    _ ≤ u := Nat.div_mul_le_self ..
    _ < _ := hu

/-- Nor is it more than one too large, where it is no larger than the divisor's digits. -/
theorem top_div_le (hu : u3 * c ≤ u) (hv : v < (v2 + 1) * c) (hpos : 0 < v) (hq : u3 / v2 ≤ v2 + 1) :
    u3 / v2 ≤ u / v + 1 := by
  cases hk : u3 / v2 with
  | zero => exact Nat.zero_le _
  | succ k =>
    have hmul := Nat.div_mul_le_self u3 v2
    rw [hk] at hmul hq
    refine Nat.succ_le_succ ((Nat.le_div_iff_mul_le hpos).2 ?_)
    calc k * v ≤ k * ((v2 + 1) * c) := Nat.mul_le_mul_left _ hv.le
      _ = (k * v2 + k) * c := by ring
      _ ≤ u3 * c := Nat.mul_le_mul_right _ (by rw [Nat.succ_mul] at hmul; omega)
      _ ≤ u := hu

/-- Where the first two digits do not leave a digit for the quotient, the largest digit
is guessed and corrected at most once. -/
theorem trial_full (hv : b ≤ 2 * v1) (hv1 : v1 < b) (hv0 : v0 < b) (hu : u < v * b)
    (htop : (v1 * b + u1) * b + u0 = u3) (hu3 : u3 * c ≤ u) (hu3' : u < (u3 + 1) * c)
    (hlo : (v1 * b + v0) * c ≤ v) (hhi : v < (v1 * b + v0 + 1) * c) :
    u / v ≤ (if u3 < (b - 1) * (v1 * b + v0) then b - 2 else b - 1) ∧
      (if u3 < (b - 1) * (v1 * b + v0) then b - 2 else b - 1) ≤ u / v + 1 := by
  have hv1pos : 0 < v1 := by omega
  have hc : 0 < c := Nat.pos_of_ne_zero (by rintro rfl; omega)
  have hV2 : 0 < v1 * b + v0 := Nat.add_pos_left (Nat.mul_pos hv1pos (by omega)) _
  have hvpos : 0 < v := Nat.lt_of_lt_of_le (Nat.mul_pos hV2 hc) hlo
  have hdig : u / v < b := (Nat.div_lt_iff_lt_mul hvpos).2 (by rwa [Nat.mul_comm])
  have htwo : v1 * b + v0 ≤ b * b - 1 := by
    have := Nat.mul_le_mul_right b (show v1 + 1 ≤ b by omega)
    rw [Nat.succ_mul] at this
    omega
  split
  · next h =>
    have hlt : u3 / (v1 * b + v0) < b - 1 := (Nat.div_lt_iff_lt_mul hV2).2 h
    have hle := div_le_of_top hu3' hlo hV2
    refine ⟨by omega, ?_⟩
    -- three below the base is not too large
    suffices hthree : b - 3 ≤ u / v by omega
    refine (Nat.le_div_iff_mul_le hvpos).2 ?_
    calc (b - 3) * v ≤ (b - 3) * ((v1 * b + v0 + 1) * c) := Nat.mul_le_mul_left _ hhi.le
      _ ≤ (b - 3) * ((v1 + 1) * b * c) :=
        Nat.mul_le_mul_left _ (Nat.mul_le_mul_right _ (by rw [Nat.succ_mul]; omega))
      _ = ((b - 3) * v1 + (b - 3)) * b * c := by ring
      _ ≤ v1 * b * b * c := by
        refine Nat.mul_le_mul_right _ (Nat.mul_le_mul_right _ ?_)
        obtain h3 | ⟨k, rfl⟩ : b < 3 ∨ ∃ k, b = 3 + k := by
          rcases Nat.lt_or_ge b 3 with h3 | h3
          · exact .inl h3
          · exact .inr (Nat.exists_eq_add_of_le h3)
        · rw [show b - 3 = 0 by omega]
          simp
        · rw [Nat.add_sub_cancel_left, Nat.mul_comm k]
          rw [Nat.mul_add]
          omega
      _ ≤ u3 * c := Nat.mul_le_mul_right _ (by rw [← htop, Nat.add_mul (v1 * b)]; omega)
      _ ≤ u := hu3
  · next h =>
    refine ⟨by omega, ?_⟩
    have hge : b - 1 ≤ u3 / (v1 * b + v0) := (Nat.le_div_iff_mul_le hV2).2 (Nat.le_of_not_lt h)
    refine Nat.le_succ_of_pred_le ((Nat.le_div_iff_mul_le hvpos).2 ?_)
    calc (b - 1 - 1) * v ≤ (b - 1 - 1) * ((v1 * b + v0 + 1) * c) := Nat.mul_le_mul_left _ hhi.le
      _ = ((b - 1 - 1) * (v1 * b + v0) + (b - 1 - 1)) * c := by ring
      _ ≤ ((b - 1) * (v1 * b + v0)) * c := by
        refine Nat.mul_le_mul_right _ ?_
        have hb : b ≤ v1 * b := Nat.le_mul_of_pos_left _ hv1pos
        rw [show b - 1 = b - 1 - 1 + 1 by omega, Nat.add_sub_cancel, Nat.succ_mul]
        omega
      _ ≤ u3 * c := Nat.mul_le_mul_right _ (Nat.le_of_not_lt h)
      _ ≤ u := hu3

end trial

/-! ## Division by a reciprocal -/

/-- A reciprocal `v` of `d`, up to the `b` that is left out of it: `b + v` is the largest
number whose product with `d` is below `n`. -/
structure IsReciprocal (b n d v : ℕ) : Prop where
  lt : (b + v) * d < n
  ge : n ≤ (b + v) * d + d

section reciprocal
variable {b d v u2 u1 u0 q1 q0 : ℕ}

/-- The quotient of two digits by one that is read off the product with the reciprocal:
how far the remainder for the next one can be off. -/
theorem IsReciprocal.two_by_one (h : IsReciprocal b (b ^ 2) d v) (hd : d < b) (hu1 : u1 < d) (hu0 : u0 < b)
    (hq0 : q0 < b) (hq : q1 * b + q0 = v * u1 + (u1 * b + u0)) :
    (q1 + 1) * d ≤ u1 * b + u0 + d ∧ (q1 + 1) * d + q0 < u1 * b + u0 + b ∧
      (u1 * b + u0 + d < (q1 + 1) * d + b ∨ u1 * b + u0 < (q1 + 1) * d + q0) := by
  obtain ⟨hlt, hge⟩ := h
  zify at *
  obtain ⟨k, hk⟩ : ∃ k : ℤ, k = b ^ 2 - (b + v) * d := ⟨_, rfl⟩
  obtain ⟨x, hx⟩ : ∃ x : ℤ, x = u1 * b + u0 - (q1 + 1) * d := ⟨_, rfl⟩
  have key : b * x = u1 * k + u0 * (b - d) + q0 * d - b * d := by
    rw [hx, hk]
    linear_combination (-(d : ℤ)) * hq
  have hb : (0 : ℤ) < b := by omega
  have hu1k : 0 ≤ u1 * k := mul_nonneg (by positivity) (by linarith)
  have hu0g : 0 ≤ u0 * (b - d : ℤ) := mul_nonneg (by positivity) (by linarith)
  have hqd : (0 : ℤ) ≤ q0 * d := by positivity
  refine ⟨?_, ?_, ?_⟩
  · have : 0 ≤ x + d := by
      by_contra hc
      nlinarith
    linarith
  · have : 0 < x + b - q0 := by
      by_contra hc
      nlinarith [mul_pos (show (0 : ℤ) < b - d by linarith) (show (0 : ℤ) < b - q0 by linarith)]
    linarith
  · by_contra hc
    rw [not_or, not_lt, not_lt] at hc
    have h1 : (b : ℤ) - d ≤ x := by linarith [hc.1]
    have h2 : (q0 : ℤ) ≤ x := by linarith [hc.2]
    have hu1d : u1 * k ≤ (d - 1) * d := mul_le_mul (by linarith) (by linarith) (by linarith) (by linarith)
    have hu0b : u0 * (b - d : ℤ) ≤ (b - 1) * (b - d) := mul_le_mul_of_nonneg_right (by linarith) (by linarith)
    have hg : (b - d : ℤ) * (b - d) ≤ (b - d) * x := mul_le_mul_of_nonneg_left h1 (by linarith)
    have hq0x : (d : ℤ) * q0 ≤ d * x := mul_le_mul_of_nonneg_left h2 (by positivity)
    nlinarith

/-- The same for three digits by two. -/
theorem IsReciprocal.three_by_two (h : IsReciprocal b (b ^ 3) d v) (hd : d < b ^ 2) (hu : u2 * b + u1 < d)
    (hu2 : u2 < b) (hu1 : u1 < b) (hu0 : u0 < b) (hq0 : q0 < b) (hq : q1 * b + q0 = v * u2 + (u2 * b + u1)) :
    (q1 + 1) * d ≤ (u2 * b + u1) * b + u0 + d ∧ (q1 + 1) * d + q0 * b ≤ (u2 * b + u1) * b + u0 + b ^ 2 ∧
      ((u2 * b + u1) * b + u0 + d < (q1 + 1) * d + b ^ 2 ∨ (u2 * b + u1) * b + u0 < (q1 + 1) * d + q0 * b) := by
  obtain ⟨hlt, hge⟩ := h
  zify at *
  obtain ⟨k, hk⟩ : ∃ k : ℤ, k = b ^ 3 - (b + v) * d := ⟨_, rfl⟩
  obtain ⟨g, hg⟩ : ∃ g : ℤ, g = b ^ 2 - d := ⟨_, rfl⟩
  obtain ⟨x, hx⟩ : ∃ x : ℤ, x = (u2 * b + u1) * b + u0 - (q1 + 1) * d := ⟨_, rfl⟩
  have key : b * x = u2 * k + u1 * g + u0 * b + q0 * d - b * d := by
    rw [hx, hk, hg]
    linear_combination (-(d : ℤ)) * hq
  have hb : (0 : ℤ) < b := by omega
  have hgpos : 0 < g := by linarith
  have hu2k : 0 ≤ u2 * k := mul_nonneg (by positivity) (by linarith)
  have hu1g : 0 ≤ u1 * g := mul_nonneg (by positivity) hgpos.le
  have hu0b : (0 : ℤ) ≤ u0 * b := by positivity
  have hqd : (0 : ℤ) ≤ q0 * d := by positivity
  refine ⟨?_, ?_, ?_⟩
  · have : 0 ≤ x + d := by
      by_contra hc
      nlinarith
    linarith
  · have : 0 ≤ x + b ^ 2 - q0 * b := by
      by_contra hc
      have hneg : b * (x + b ^ 2 - q0 * b) < 0 := mul_neg_of_pos_of_neg hb (by linarith)
      have := mul_nonneg hgpos.le (show (0 : ℤ) ≤ b - q0 by linarith)
      nlinarith
    linarith
  · by_contra hc
    rw [not_or, not_lt, not_lt] at hc
    have h1 : g ≤ x := by linarith [hc.1]
    have h2 : (q0 : ℤ) * b ≤ x := by linarith [hc.2]
    rcases le_or_gt (b : ℤ) g with hgb | hgb
    · -- the product with the reciprocal leaves room
      have e1 : g * g ≤ g * x := mul_le_mul_of_nonneg_left h1 hgpos.le
      have e2 : (d : ℤ) * (q0 * b) ≤ d * x := mul_le_mul_of_nonneg_left h2 (by positivity)
      have e3 : b * (u2 * k) ≤ d * (d - 1 - u1) := by
        have hub : (0 : ℤ) ≤ u2 * b := by positivity
        have : (u2 * b : ℤ) * k ≤ (d - 1 - u1) * d :=
          mul_le_mul (by linarith) (by linarith) (by linarith) (by linarith)
        linarith
      have e4 : (u0 : ℤ) * b ^ 2 ≤ (b - 1) * b ^ 2 := mul_le_mul_of_nonneg_right (by linarith) (by positivity)
      have hbb : (0 : ℤ) < b ^ 2 := by positivity
      have hsum : b * u1 * g + u0 * b ^ 2 < b ^ 2 * g + d + d * u1 := by
        rcases le_or_gt (d : ℤ) (b * g) with hdg | hdg
        · have e5 : (u1 : ℤ) * (b * g - d) ≤ (b - 1) * (b * g - d) :=
            mul_le_mul_of_nonneg_right (by linarith) (by linarith)
          have e6 : b * g = b ^ 3 - b * d := by rw [hg]; ring
          linarith
        · have e5 : (0 : ℤ) ≤ u1 * (d - b * g) := mul_nonneg (by positivity) (by linarith)
          have e6 : (b : ℤ) ^ 2 * b ≤ b ^ 2 * g := mul_le_mul_of_nonneg_left hgb hbb.le
          linarith
      have hxx : b ^ 2 * x = g * x + d * x := by rw [hg]; ring
      have hbx : b ^ 2 * x = b * (u2 * k) + b * u1 * g + u0 * b ^ 2 + d * (q0 * b) - b ^ 2 * d := by
        linear_combination (b : ℤ) * key
      have hgg : g * g = b ^ 2 * g - b ^ 2 * d + d * d := by rw [hg]; ring
      linarith
    · -- the reciprocal is zero
      have hv : v = 0 := by
        by_contra hv
        have hv1 : (1 : ℤ) ≤ v := by omega
        have hd1 : (b : ℤ) ^ 2 - b + 1 ≤ d := by linarith
        have : ((b : ℤ) + 1) * (b ^ 2 - b + 1) ≤ (b + v) * d := mul_le_mul (by linarith) hd1 (by nlinarith) (by positivity)
        nlinarith
      subst hv
      have hq' : q1 = u2 ∧ q0 = u1 := by
        rw [Nat.cast_zero, zero_mul, zero_add] at hq
        have hsum : q1 * b + q0 = u2 * b + u1 := by exact_mod_cast hq
        have hdiv := (Nat.div_mod_unique (show 0 < b by omega)).2
          ⟨show q0 + b * q1 = u2 * b + u1 by rw [← hsum, Nat.mul_comm, Nat.add_comm], by omega⟩
        have hdiv' := (Nat.div_mod_unique (show 0 < b by omega)).2
          ⟨show u1 + b * u2 = u2 * b + u1 by rw [Nat.mul_comm, Nat.add_comm], by omega⟩
        omega
      obtain ⟨rfl, rfl⟩ := hq'
      have hx' : x = q1 * g + q0 * b + u0 - d := by rw [hx, hg]; ring
      have : (q1 : ℤ) * g ≤ (b - 1) * (b - 1) := mul_le_mul (by linarith) (by linarith) hgpos.le (by linarith)
      linarith

/-- The two corrections. `q` is the guess; `high` is the test that finds it too large. -/
theorem corrected {w u d q r : ℕ} {high : Prop} [Decidable high] (hd : d < w) (hdw : w ≤ 2 * d) (hq : 0 < q)
    (hr : r < w) (hmod : (r + q * d) % w = u % w) (hneg : u < q * d → high ∧ q * d ≤ u + d)
    (hpos : q * d ≤ u → u < q * d + w ∧ (high → u + d < q * d + w)) :
    (if d ≤ (if high then (r + d) % w else r) then
        ((if high then q - 1 else q) + 1, (if high then (r + d) % w else r) - d)
      else (if high then q - 1 else q, if high then (r + d) % w else r)) = (u / d, u % d) := by
  have hdpos : 0 < d := by omega
  rcases Nat.lt_or_ge u (q * d) with hlt | hge
  · -- one less
    obtain ⟨hh, hle⟩ := hneg hlt
    obtain ⟨k, rfl⟩ : ∃ k, q = k + 1 := ⟨q - 1, by omega⟩
    rw [Nat.succ_mul] at hlt hle hmod
    have hrd : (r + d) % w = u - k * d := by
      have h1 : (r + d + k * d) % w = u % w := by rw [← hmod]; congr 1; omega
      have h2 : (u - k * d + k * d) % w = u % w := by rw [Nat.sub_add_cancel (by omega)]
      have h3 : (r + d) % w = (u - k * d) % w := Nat.ModEq.add_right_cancel' (k * d) (h1.trans h2.symm)
      rw [h3, Nat.mod_eq_of_lt (by omega)]
    rw [if_pos hh, if_pos hh, hrd, if_neg (by omega), Nat.add_sub_cancel]
    have := (Nat.div_mod_unique hdpos).2 ⟨show u - k * d + d * k = u by rw [Nat.mul_comm d]; omega, by omega⟩
    rw [this.1, this.2]
  · obtain ⟨hlt, hhigh⟩ := hpos hge
    have hrx : r = u - q * d := by
      have h2 : (u - q * d + q * d) % w = u % w := by rw [Nat.sub_add_cancel hge]
      have h3 : r % w = (u - q * d) % w := Nat.ModEq.add_right_cancel' (q * d) (hmod.trans h2.symm)
      rwa [Nat.mod_eq_of_lt hr, Nat.mod_eq_of_lt (by omega)] at h3
    by_cases hh : high
    · -- found too large, and put back
      have := hhigh hh
      rw [if_pos hh, if_pos hh, Nat.mod_eq_of_lt (by omega), if_pos (by omega), Nat.sub_add_cancel hq,
        Nat.add_sub_cancel]
      have := (Nat.div_mod_unique hdpos).2 ⟨show r + d * q = u by rw [Nat.mul_comm d]; omega, by omega⟩
      rw [this.1, this.2]
    · rw [if_neg hh, if_neg hh]
      split
      · have := (Nat.div_mod_unique hdpos).2
          ⟨show r - d + d * (q + 1) = u by rw [Nat.mul_succ, Nat.mul_comm d]; omega, by omega⟩
        rw [this.1, this.2]
      · have := (Nat.div_mod_unique hdpos).2 ⟨show r + d * q = u by rw [Nat.mul_comm d]; omega, by omega⟩
        rw [this.1, this.2]

end reciprocal
end Diode.Core
