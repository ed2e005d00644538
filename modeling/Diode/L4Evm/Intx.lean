import Diode.Core.Bytes
import Mathlib.Algebra.Ring.Nat
import Mathlib.Data.Nat.Log

/-!
# 256-bit arithmetic

What the interpreter takes from its integer library beyond the operators:
exponentiation by squaring, division with signs, sums and products modulo a
number computed in 512 bits, and the number of bytes that matter. The division
without signs is the one of `BitVec`.
-/
namespace Diode.L4.Intx
open Diode.Core

/-- The rounds of `exp`, 256 of them at most.
mirrors evm/intx/intx.hpp:677-689 -/
def exp_loop : Nat → Word → Word → Word → Word
  | 0, result, _, _ => result
  | n + 1, result, base, exponent =>
    if exponent = 0#256 then result
    else exp_loop n (if exponent &&& 1#256 ≠ 0#256 then result * base else result) (base * base) (exponent >>> 1)

/-- mirrors evm/intx/intx.hpp:677-689 -/
def exp (base exponent : Word) : Word := exp_loop 256 1#256 base exponent

/-- mirrors evm/intx/intx.hpp:747-763 -/
def sdivrem (u v : Word) : Word × Word :=
  let sign_mask := 1#256 <<< 255
  let u_is_neg := u &&& sign_mask ≠ 0#256
  let v_is_neg := v &&& sign_mask ≠ 0#256
  let u_abs := if u_is_neg then -u else u
  let v_abs := if v_is_neg then -v else v
  let quot := u_abs / v_abs
  let rem := u_abs % v_abs
  (if u_is_neg ≠ v_is_neg then -quot else quot, if u_is_neg then -rem else rem)

/-- mirrors evm/intx/intx.hpp:947-951 -/
def addmod (x y mod : Word) : Word :=
  ((x.setWidth 512 + y.setWidth 512) % mod.setWidth 512).setWidth 256

/-- mirrors evm/intx/intx.hpp:953-956 -/
def mulmod (x y mod : Word) : Word :=
  ((x.setWidth 512 * y.setWidth 512) % mod.setWidth 512).setWidth 256

/-- `count_significant_words<uint8_t>` of a number of `2 ^ k` bytes.
mirrors evm/intx/intx.hpp:727-742 -/
def count_significant_words : Nat → Nat → Nat
  | 0, x => if x ≠ 0 then 1 else 0
  | k + 1, x =>
    let h := count_significant_words k (x / 256 ^ 2 ^ k)
    let l := count_significant_words k (x % 256 ^ 2 ^ k)
    if h ≠ 0 then h + 2 ^ k else l

/-! ## What they compute -/

theorem exp_loop_toNat (n : Nat) (r b e : Word) (h : e.toNat < 2 ^ n) :
    (exp_loop n r b e).toNat = r.toNat * b.toNat ^ e.toNat % 2 ^ 256 := by
  induction n generalizing r b e with
  | zero =>
    obtain h0 : e.toNat = 0 := by simpa using h
    rw [exp_loop, h0, Nat.pow_zero, Nat.mul_one, Nat.mod_eq_of_lt r.isLt]
  | succ n ih =>
    rw [exp_loop]
    split
    · next h0 => rw [h0, BitVec.toNat_zero, Nat.pow_zero, Nat.mul_one, Nat.mod_eq_of_lt r.isLt]
    · next h0 =>
      have hshift : (e >>> 1).toNat = e.toNat / 2 := by rw [BitVec.toNat_ushiftRight, Nat.shiftRight_one]
      have hbit : (e &&& 1#256).toNat = e.toNat % 2 := by
        rw [BitVec.toNat_and]
        exact Nat.and_one_is_mod e.toNat
      have hodd : e &&& 1#256 ≠ 0#256 ↔ e.toNat % 2 = 1 := by
        rw [ne_eq, ← BitVec.toNat_inj, hbit, BitVec.toNat_zero]
        omega
      rw [ih _ _ _ (by rw [hshift]; rw [Nat.pow_succ] at h; omega), hshift, BitVec.toNat_mul]
      have hsq : ∀ m : Nat, (b.toNat * b.toNat % 2 ^ 256) ^ m % 2 ^ 256 = b.toNat ^ (2 * m) % 2 ^ 256 := by
        intro m
        rw [← Nat.pow_mod, ← Nat.pow_two, ← Nat.pow_mul]
      rw [Nat.mul_mod, hsq, ← Nat.mul_mod]
      split
      · next ho =>
        have he : e.toNat = 2 * (e.toNat / 2) + 1 := by have := hodd.1 ho; omega
        rw [BitVec.toNat_mul, Nat.mod_mul_mod]
        conv_rhs => rw [he, Nat.pow_succ]
        congr 1
        rw [Nat.mul_assoc, Nat.mul_comm b.toNat]
      · next ho =>
        have he : e.toNat = 2 * (e.toNat / 2) := by
          have : e.toNat % 2 ≠ 1 := fun h1 => ho (hodd.2 h1)
          omega
        conv_rhs => rw [he]

theorem exp_toNat (b e : Word) : (exp b e).toNat = b.toNat ^ e.toNat % 2 ^ 256 := by
  have h := exp_loop_toNat 256 1#256 b e e.isLt
  rwa [show (1#256).toNat = 1 from rfl, Nat.one_mul] at h

theorem and_sign_mask (u : Word) : u &&& (1#256 <<< 255) ≠ 0#256 ↔ u.msb = true := by
  rw [show 1#256 <<< 255 = BitVec.twoPow 256 255 from rfl, BitVec.and_twoPow, BitVec.msb_eq_getLsbD_last]
  cases u.getLsbD 255 <;> decide

theorem sdivrem_eq (u v : Word) : sdivrem u v = (BitVec.sdiv u v, BitVec.srem u v) := by
  unfold sdivrem
  simp only [and_sign_mask]
  cases hu : u.msb <;> cases hv : v.msb <;> simp [BitVec.sdiv, BitVec.srem, hu, hv]

section
variable {w : Nat} (x y m : BitVec w)

theorem toNat_wide : (x.setWidth (w + w)).toNat = x.toNat := by
  have := Nat.pow_le_pow_right (show 0 < 2 by decide) (Nat.le_add_left w w)
  rw [BitVec.toNat_setWidth, Nat.mod_eq_of_lt (Nat.lt_of_lt_of_le x.isLt this)]

theorem toNat_wide_mul : (x.setWidth (w + w) * y.setWidth (w + w)).toNat = x.toNat * y.toNat := by
  have hlt : x.toNat * y.toNat < 2 ^ (w + w) := by
    rw [Nat.pow_add]
    exact Nat.mul_lt_mul'' x.isLt y.isLt
  rw [BitVec.toNat_mul, toNat_wide, toNat_wide, Nat.mod_eq_of_lt hlt]

theorem toNat_wide_add (hw : 0 < w) : (x.setWidth (w + w) + y.setWidth (w + w)).toNat = x.toNat + y.toNat := by
  have hlt : x.toNat + y.toNat < 2 ^ (w + w) := by
    have := Nat.pow_le_pow_right (show 0 < 2 by decide) (Nat.add_le_add_left hw w)
    have hx := x.isLt
    have hy := y.isLt
    rw [Nat.pow_succ] at this
    omega
  rw [BitVec.toNat_add, toNat_wide, toNat_wide, Nat.mod_eq_of_lt hlt]

end

theorem addmod_toNat (x y m : Word) : (addmod x y m).toNat = (x.toNat + y.toNat) % m.toNat % 2 ^ 256 := by
  rw [addmod, BitVec.toNat_setWidth, BitVec.toNat_umod, toNat_wide_add x y (by decide), toNat_wide]

theorem mulmod_toNat (x y m : Word) : (mulmod x y m).toNat = x.toNat * y.toNat % m.toNat % 2 ^ 256 := by
  rw [mulmod, BitVec.toNat_setWidth, BitVec.toNat_umod, toNat_wide_mul x y, toNat_wide]

end Diode.L4.Intx
