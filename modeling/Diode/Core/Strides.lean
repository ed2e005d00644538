import Mathlib.Order.Basic
import Mathlib.Tactic.Linarith

/-!
# Positions reached by strides

A text of `n` places is cut into pieces from its start; `next p` is where the
piece that starts at `p` ends. The last piece may stick out. No piece starts
inside another (`Reached.next_le`).
-/
namespace Diode.Core

inductive Reached (next : Nat → Nat) (n : Nat) : Nat → Prop where
  | zero : Reached next n 0
  | step {p : Nat} : Reached next n p → p < n → Reached next n (next p)

namespace Reached

variable {next : Nat → Nat} {n p q : Nat}

/-- A position after another one is behind its piece. -/
theorem next_le (hnext : ∀ p, p < next p) (hq : Reached next n q) (hp : Reached next n p) (h : p < q) :
    next p ≤ q := by
  induction q using Nat.strong_induction_on generalizing p with
  | _ q ih =>
    cases hq with
    | zero => omega
    | @step q' hq' hn =>
      rcases Nat.lt_trichotomy p q' with hlt | rfl | hgt
      · have := ih q' (hnext q') hq' hp hlt
        have := hnext q'
        omega
      · exact Nat.le_refl _
      · -- a start inside the last piece would have that piece before it
        have := ih p h hp hq' hgt
        omega

/-- The start of the piece a position lies in is not behind it. -/
theorem le_of_lt_next (hnext : ∀ p, p < next p) (hq : Reached next n q) (hp : Reached next n p)
    (h : q < next p) : q ≤ p := by
  by_contra hc
  have := next_le hnext hq hp (by omega)
  omega

theorem lt_add {w : Nat} (hw : ∀ p, next p ≤ p + w) (h0 : 0 < w) (hq : Reached next n q) : q < n + w := by
  cases hq with
  | zero => omega
  | @step p _ hn =>
    have := hw p
    omega

end Reached
end Diode.Core
