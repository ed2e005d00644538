import Mathlib.Algebra.Ring.Nat
import Mathlib.Data.Nat.Dist

/-!
# Distance on a ring

`n` points on a circle: the distance of two is the shorter of the two ways
around. Points `0` and `n` are the same place.
-/
namespace Diode.Core

def ringDist (n a b : Nat) : Nat := min (Nat.dist a b) (n - Nat.dist a b)

variable {n a b c : Nat}

theorem dist_le (ha : a ≤ n) (hb : b ≤ n) : Nat.dist a b ≤ n := by
  unfold Nat.dist
  omega

theorem ringDist_comm (n a b : Nat) : ringDist n a b = ringDist n b a := by
  unfold ringDist
  rw [Nat.dist_comm]

/-- Three places are no further apart than there and back. -/
theorem dist_round (ha : a ≤ n) (hb : b ≤ n) (hc : c ≤ n) :
    Nat.dist a b + Nat.dist b c + Nat.dist a c ≤ 2 * n := by
  unfold Nat.dist
  omega

theorem ringDist_triangle (ha : a ≤ n) (hb : b ≤ n) (hc : c ≤ n) :
    ringDist n a c ≤ ringDist n a b + ringDist n b c := by
  have hround := dist_round ha hb hc
  have hac := Nat.dist.triangle_inequality a b c
  have hab := Nat.dist.triangle_inequality a c b
  have hbc := Nat.dist.triangle_inequality b a c
  rw [Nat.dist_comm c b] at hab
  rw [Nat.dist_comm b a] at hbc
  unfold ringDist
  generalize Nat.dist a b = ab at *
  generalize Nat.dist b c = bc at *
  generalize Nat.dist a c = ac at *
  omega

/-- Nothing else is at the same place, but the two ends of the scale. -/
theorem ringDist_eq_zero (ha : a ≤ n) (hb : b ≤ n) :
    ringDist n a b = 0 ↔ a = b ∨ (a = 0 ∧ b = n) ∨ (a = n ∧ b = 0) := by
  unfold ringDist Nat.dist
  omega

theorem ringDist_eq_zero_of_lt (ha : a < n) (hb : b < n) : ringDist n a b = 0 ↔ a = b := by
  unfold ringDist Nat.dist
  omega

/-! ## Going clockwise -/

/-- The steps from one place up to another, past the end of the scale if need be. -/
def clockwise (n a b : Nat) : Nat := if a ≤ b then b - a else n - a + b

/-- The place half the steps on, rounded down. -/
def midway (n a b : Nat) : Nat :=
  let m := a + clockwise n a b / 2
  if m < n then m else m - n

/-- A place on the way from one to another, the two ends included. -/
def OnWay (n a b c : Nat) : Prop := clockwise n a c ≤ clockwise n a b

instance : Decidable (OnWay n a b c) := inferInstanceAs (Decidable (_ ≤ _))

theorem clockwise_of_le (h : a ≤ b) : clockwise n a b = b - a := if_pos h

theorem clockwise_of_lt (h : b < a) : clockwise n a b = n - a + b := if_neg (Nat.not_le.2 h)

/-- There and back is once around. -/
theorem clockwise_add (ha : a < n) (hb : b < n) (hne : a ≠ b) :
    clockwise n a b + clockwise n b a = n := by
  unfold clockwise
  split <;> split <;> omega

theorem clockwise_inj_right (ha : a < n) (hb : b < n) (hc : c < n)
    (h : clockwise n a b = clockwise n a c) : b = c := by
  unfold clockwise at h
  split at h <;> split at h <;> omega

theorem clockwise_inj_left (ha : a < n) (hb : b < n) (h : clockwise n a c = clockwise n b c) : a = b := by
  unfold clockwise at h
  split at h <;> split at h <;> omega

theorem onWay_of_le (h : a ≤ b) (hb : b < n) : OnWay n a b c ↔ a ≤ c ∧ c ≤ b := by
  unfold OnWay
  rw [clockwise_of_le h]
  rcases Nat.lt_or_ge c a with hc | hc
  · rw [clockwise_of_lt hc]
    omega
  · rw [clockwise_of_le hc]
    omega

/-- The way passes the end of the scale. -/
theorem onWay_of_lt (h : b < a) (ha : a < n) (hc : c < n) : OnWay n a b c ↔ a ≤ c ∨ c ≤ b := by
  unfold OnWay
  rw [clockwise_of_lt h]
  rcases Nat.lt_or_ge c a with hca | hca
  · rw [clockwise_of_lt hca]
    omega
  · rw [clockwise_of_le hca]
    omega

theorem midway_of_le (h : a ≤ b) (hb : b < n) : midway n a b = (a + b) / 2 := by
  unfold midway
  rw [clockwise_of_le h]
  dsimp only
  rw [if_pos (by omega)]
  omega

/-- The middle is opposite to the half of the sum. -/
theorem midway_of_lt {m : Nat} (h : b < a) (ha : a < n) (hm : n = 2 * m) :
    midway n a b = if a + b < n then (a + b) / 2 + m else (a + b) / 2 - m := by
  unfold midway
  rw [clockwise_of_lt h]
  dsimp only
  split <;> split <;> omega

end Diode.Core
