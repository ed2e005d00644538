import Diode.Core.LongDivision
import Mathlib.Algebra.Order.Ring.Abs

/-!
# Division by a word

Division in the interpreter's integer library multiplies by a reciprocal of the
divisor: a table gives its first eleven bits, three rounds of Newton's method the
others, and a quotient digit costs two products and at most two corrections.
Divisors are normalized: their highest bit is set.

* `reciprocal_2by1_spec`, `reciprocal_3by2_spec`: the reciprocals of one word and
  of two are the ones that are meant, to the last bit.
* `udivrem_2by1_spec`, `udivrem_3by2_spec`: so are the quotient and the remainder.
-/
namespace Diode.L4.Intx
open Diode.Core

/-! ## Pairs of words -/

/-- `uint<128>`, evm/intx/int128.hpp:29-40. -/
structure uint128 where
  hi : BitVec 64
  lo : BitVec 64
  deriving DecidableEq

namespace uint128

/-- mirrors evm/intx/int128.hpp:75-81 -/
def add (x y : uint128) : uint128 :=
  let lo := x.lo + y.lo
  let carry := if x.lo > lo then 1#64 else 0#64
  ⟨x.hi + y.hi + carry, lo⟩

/-- mirrors evm/intx/int128.hpp:88-94 -/
def sub (x y : uint128) : uint128 :=
  let lo := x.lo - y.lo
  let borrow := if x.lo < lo then 1#64 else 0#64
  ⟨x.hi - y.hi - borrow, lo⟩

instance : Add uint128 := ⟨add⟩
instance : Sub uint128 := ⟨sub⟩

/-- mirrors evm/intx/int128.hpp:167-173 -/
instance : LT uint128 := ⟨fun x y => x.hi < y.hi ∨ x.hi = y.hi ∧ x.lo < y.lo⟩

/-- mirrors evm/intx/int128.hpp:175-181 -/
instance : LE uint128 := ⟨fun x y => x.hi < y.hi ∨ x.hi = y.hi ∧ x.lo ≤ y.lo⟩

instance (x y : uint128) : Decidable (x < y) :=
  inferInstanceAs (Decidable (x.hi < y.hi ∨ x.hi = y.hi ∧ x.lo < y.lo))

instance (x y : uint128) : Decidable (x ≤ y) :=
  inferInstanceAs (Decidable (x.hi < y.hi ∨ x.hi = y.hi ∧ x.lo ≤ y.lo))

def toNat (x : uint128) : ℕ := x.hi.toNat * 2 ^ 64 + x.lo.toNat

variable (x y : uint128)

theorem toNat_lt : x.toNat < 2 ^ 128 := by
  have := x.hi.isLt
  have := x.lo.isLt
  unfold toNat
  omega

theorem toNat_mk (h l : BitVec 64) : (uint128.mk h l).toNat = h.toNat * 2 ^ 64 + l.toNat := rfl

theorem hi_toNat : x.hi.toNat = x.toNat / 2 ^ 64 := by
  have := x.lo.isLt
  unfold toNat
  omega

theorem lo_toNat : x.lo.toNat = x.toNat % 2 ^ 64 := by
  have := x.lo.isLt
  unfold toNat
  omega

theorem toNat_add : (x + y).toNat = (x.toNat + y.toNat) % 2 ^ 128 := by
  have := x.hi.isLt
  have := x.lo.isLt
  have := y.hi.isLt
  have := y.lo.isLt
  change (x.hi + y.hi + (if x.lo > x.lo + y.lo then 1#64 else 0#64)).toNat * 2 ^ 64 + (x.lo + y.lo).toNat =
    (x.hi.toNat * 2 ^ 64 + x.lo.toNat + (y.hi.toNat * 2 ^ 64 + y.lo.toNat)) % 2 ^ 128
  split <;> rename_i h <;> simp only [gt_iff_lt, BitVec.lt_def, BitVec.toNat_add] at h ⊢ <;>
    simp only [BitVec.toNat_ofNat] <;> omega

theorem toNat_sub : (x - y).toNat = (x.toNat + (2 ^ 128 - y.toNat)) % 2 ^ 128 := by
  have := x.hi.isLt
  have := x.lo.isLt
  have := y.hi.isLt
  have := y.lo.isLt
  change (x.hi - y.hi - (if x.lo < x.lo - y.lo then 1#64 else 0#64)).toNat * 2 ^ 64 + (x.lo - y.lo).toNat =
    (x.hi.toNat * 2 ^ 64 + x.lo.toNat + (2 ^ 128 - (y.hi.toNat * 2 ^ 64 + y.lo.toNat))) % 2 ^ 128
  split <;> rename_i h <;> simp only [BitVec.lt_def, BitVec.toNat_sub] at h ⊢ <;>
    simp only [BitVec.toNat_ofNat] <;> omega

theorem lt_iff : x < y ↔ x.toNat < y.toNat := by
  have := x.lo.isLt
  have := y.lo.isLt
  change x.hi < y.hi ∨ x.hi = y.hi ∧ x.lo < y.lo ↔ _
  rw [BitVec.lt_def, BitVec.lt_def, ← BitVec.toNat_inj, toNat, toNat]
  omega

theorem le_iff : x ≤ y ↔ x.toNat ≤ y.toNat := by
  have := x.lo.isLt
  have := y.lo.isLt
  change x.hi < y.hi ∨ x.hi = y.hi ∧ x.lo ≤ y.lo ↔ _
  rw [BitVec.lt_def, BitVec.le_def, ← BitVec.toNat_inj, toNat, toNat]
  omega

end uint128

/-- mirrors evm/intx/int128.hpp:288-302 -/
def umul (x y : BitVec 64) : uint128 :=
  let p := x.setWidth 128 * y.setWidth 128
  ⟨(p >>> 64).setWidth 64, p.setWidth 64⟩

theorem umul_toNat (x y : BitVec 64) : (umul x y).toNat = x.toNat * y.toNat := by
  have hx := x.isLt
  have hy := y.isLt
  have hlt : x.toNat * y.toNat < 2 ^ 128 := by
    have := Nat.mul_lt_mul'' hx hy
    omega
  have hwide : ∀ z : BitVec 64, (z.setWidth 128).toNat = z.toNat := fun z => by
    have := z.isLt
    rw [BitVec.toNat_setWidth]
    omega
  rw [umul, uint128.toNat_mk]
  simp only [BitVec.toNat_setWidth, BitVec.toNat_ushiftRight, BitVec.toNat_mul, Nat.shiftRight_eq_div_pow]
  rw [Nat.mod_eq_of_lt (show x.toNat < 2 ^ 128 by omega), Nat.mod_eq_of_lt (show y.toNat < 2 ^ 128 by omega),
    Nat.mod_eq_of_lt hlt]
  omega

/-! ## The reciprocal of a word -/

/-- mirrors evm/intx/int128.hpp:452-455; the table holds the items from 0 to 255. -/
def reciprocal_table_item (d9 : BitVec 8) : BitVec 16 := .ofNat 16 (0x7fd00 / (0x100 ||| d9.toNat))

/-- mirrors evm/intx/int128.hpp:480-506 -/
def reciprocal_2by1 (d : BitVec 64) : BitVec 64 :=
  let d9 := (d >>> 55).setWidth 8
  let v0 := (reciprocal_table_item d9).setWidth 64
  let d40 := (d >>> 24) + 1#64
  let v1 := (v0 <<< 11) - ((v0 * v0 * d40) >>> 40) - 1#64
  let v2 := (v1 <<< 13) + ((v1 * (0x1000000000000000#64 - v1 * d40)) >>> 47)
  let d0 := d % 2#64
  let d63 := d / 2#64 + d0
  let nd0 := -d0
  let e := ((v2 / 2#64) &&& nd0) - v2 * d63
  let mh := (umul v2 e).hi
  let v3 := (v2 <<< 31) + (mh >>> 1)
  let m := umul v3 d + ⟨0#64, d⟩
  let v3a := m.hi + d
  v3 - v3a

/-! ### Newton's method -/

section newton
variable {d v0 d40 v1 v2 v3 : ℕ}

/-- The table's reciprocal of the first nine bits, times the first forty. -/
theorem newton_table (hlo : 2 ^ 63 ≤ d) (hhi : d < 2 ^ 64) (h0 : v0 = 0x7fd00 / (d / 2 ^ 55))
    (h40 : d40 = d / 2 ^ 24 + 1) :
    v0 ≤ 2045 ∧ 523009 * 2 ^ 31 ≤ v0 * d40 ∧ v0 * d40 ≤ 525565 * 2 ^ 31 := by
  obtain ⟨d9, hd9⟩ : ∃ d9, d9 = d / 2 ^ 55 := ⟨_, rfl⟩
  rw [← hd9] at h0
  have hmul := Nat.div_mul_le_self 0x7fd00 d9
  have hlt := Nat.lt_div_mul_add (a := 0x7fd00) (show 0 < d9 by omega)
  rw [← h0] at hmul hlt
  have hv0 : v0 ≤ 2045 := by
    rw [h0]
    exact (Nat.div_le_div_left (show 256 ≤ d9 by omega) (by decide)).trans (by decide)
  have h40lo : d9 * 2 ^ 31 ≤ d40 := by omega
  have h40hi : d40 ≤ (d9 + 1) * 2 ^ 31 := by omega
  refine ⟨hv0, ?_, ?_⟩
  · calc 523009 * 2 ^ 31 ≤ v0 * d9 * 2 ^ 31 := Nat.mul_le_mul_right _ (by omega)
      _ = v0 * (d9 * 2 ^ 31) := Nat.mul_assoc ..
      _ ≤ v0 * d40 := Nat.mul_le_mul_left _ h40lo
  · calc v0 * d40 ≤ v0 * ((d9 + 1) * 2 ^ 31) := Nat.mul_le_mul_left _ h40hi
      _ = (v0 * d9 + v0) * 2 ^ 31 := by ring
      _ ≤ 525565 * 2 ^ 31 := Nat.mul_le_mul_right _ (by omega)

/-- The first round: `2 ^ 60 - v1 * d40` is positive and has 43 bits. -/
theorem newton_first (h40 : 2 ^ 39 < d40) (h40' : d40 ≤ 2 ^ 40) (hv0 : v0 ≤ 2045) (hlo : 523009 * 2 ^ 31 ≤ v0 * d40)
    (hhi : v0 * d40 ≤ 525565 * 2 ^ 31) (h1 : v1 = 2 ^ 11 * v0 - v0 * v0 * d40 / 2 ^ 40 - 1) :
    v0 * v0 * d40 < 2 ^ 64 ∧ v0 * v0 * d40 / 2 ^ 40 + 1 ≤ 2 ^ 11 * v0 ∧ v1 * d40 < 2 ^ 60 ∧
      2 ^ 60 ≤ v1 * d40 + 1897985 * 2 ^ 22 := by
  have hprod : v0 * v0 * d40 ≤ v0 * (525565 * 2 ^ 31) := by
    rw [Nat.mul_assoc]
    exact Nat.mul_le_mul_left _ hhi
  have hv0pos : 0 < v0 := Nat.pos_of_ne_zero (by rintro rfl; omega)
  have hle : v0 * v0 * d40 / 2 ^ 40 + 1 ≤ 2 ^ 11 * v0 := by omega
  have hdm := Nat.div_add_mod (v0 * v0 * d40) (2 ^ 40)
  have hr := Nat.mod_lt (v0 * v0 * d40) (show 0 < 2 ^ 40 by decide)
  refine ⟨by omega, hle, ?_⟩
  obtain ⟨q, hq⟩ : ∃ q, q = v0 * v0 * d40 / 2 ^ 40 := ⟨_, rfl⟩
  obtain ⟨r, hr'⟩ : ∃ r, r = v0 * v0 * d40 % 2 ^ 40 := ⟨_, rfl⟩
  rw [← hq, ← hr'] at hdm
  rw [← hr'] at hr
  rw [← hq] at hle h1
  have h1' : v1 + 1 + q = 2 ^ 11 * v0 := by omega
  -- the new error is the square of the old one, and what the division drops
  have key : (2 : ℤ) ^ 40 * (2 ^ 60 - v1 * d40) = (2 ^ 50 - v0 * d40) ^ 2 + (2 ^ 40 - r) * d40 := by
    zify at h1' hdm
    linear_combination (-(2 : ℤ) ^ 40 * d40) * h1' + (d40 : ℤ) * hdm
  zify at hlo hhi h40 h40' hr
  have hr0 : (0 : ℤ) ≤ r := Int.natCast_nonneg r
  have hpos : 0 < ((2 : ℤ) ^ 40 - r) * d40 := by nlinarith
  have hmax : ((2 : ℤ) ^ 40 - r) * d40 ≤ 2 ^ 40 * 2 ^ 40 := by nlinarith
  have hsq0 : 0 ≤ ((2 : ℤ) ^ 50 - v0 * d40) ^ 2 := sq_nonneg _
  have hsq : ((2 : ℤ) ^ 50 - v0 * d40) ^ 2 ≤ (1279 * 2 ^ 31) ^ 2 := by
    exact sq_le_sq' (by linarith) (by linarith)
  constructor
  · zify
    linarith
  · zify
    linarith

/-- The second round, with all of the divisor. -/
theorem newton_second (hd : 2 ^ 63 ≤ d) (hd' : d < 2 ^ 64) (h40 : d40 = d / 2 ^ 24 + 1) (hlt : v1 * d40 < 2 ^ 60)
    (hge : 2 ^ 60 ≤ v1 * d40 + 1897985 * 2 ^ 22)
    (h2 : v2 = 2 ^ 13 * v1 + v1 * (2 ^ 60 - v1 * d40) / 2 ^ 47) :
    v1 < 2 ^ 21 ∧ v1 * (2 ^ 60 - v1 * d40) < 2 ^ 64 ∧ v2 * d < 2 ^ 97 ∧
      2 ^ 97 ≤ v2 * d + d + 440 * 2 ^ 54 := by
  have hv1 : v1 < 2 ^ 21 := by
    by_contra hc
    have := Nat.mul_le_mul (Nat.le_of_not_lt hc) (show 2 ^ 39 ≤ d40 by omega)
    omega
  obtain ⟨f, hf⟩ := Nat.exists_eq_add_of_le hlt.le
  rw [hf, Nat.add_sub_cancel_left] at h2 ⊢
  have hfmax : f ≤ 1897985 * 2 ^ 22 := by omega
  have hprod : v1 * f ≤ 2 ^ 21 * (1897985 * 2 ^ 22) := Nat.mul_le_mul hv1.le hfmax
  have hdm := Nat.div_add_mod (v1 * f) (2 ^ 47)
  have hr := Nat.mod_lt (v1 * f) (show 0 < 2 ^ 47 by decide)
  obtain ⟨q, hq⟩ : ∃ q, q = v1 * f / 2 ^ 47 := ⟨_, rfl⟩
  obtain ⟨r, hr'⟩ : ∃ r, r = v1 * f % 2 ^ 47 := ⟨_, rfl⟩
  rw [← hq, ← hr'] at hdm
  rw [← hr'] at hr
  rw [← hq] at h2
  obtain ⟨s, hs⟩ : ∃ s, d + s = 2 ^ 24 * d40 := ⟨2 ^ 24 * d40 - d, by omega⟩
  have hs1 : 1 ≤ s ∧ s ≤ 2 ^ 24 := by omega
  have hv2 : v2 ≤ 2 ^ 34 + 2 ^ 17 := by omega
  have hvs : v2 * s ≤ (2 ^ 34 + 2 ^ 17) * 2 ^ 24 := Nat.mul_le_mul hv2 hs1.2
  have hrd : r * d40 ≤ 2 ^ 47 * d40 := Nat.mul_le_mul_right _ hr.le
  have hff : f ^ 2 ≤ (1897985 * 2 ^ 22) ^ 2 := Nat.pow_le_pow_left hfmax 2
  have hfpos : 0 < f ^ 2 := Nat.pow_pos (by omega)
  have key : (2 : ℤ) ^ 23 * (2 ^ 97 - v2 * d) = f ^ 2 + r * d40 + 2 ^ 23 * (v2 * s) := by
    zify at h2 hdm hs hf
    linear_combination (-(2 : ℤ) ^ 23 * v2) * hs + (-(2 : ℤ) ^ 47 * d40) * h2 + (-(d40 : ℤ)) * hdm +
      (2 ^ 60 + f : ℤ) * hf
  refine ⟨hv1, by omega, ?_, ?_⟩
  · zify at hfpos ⊢
    have hrd0 : (0 : ℤ) ≤ r * d40 := by positivity
    have hvs0 : (0 : ℤ) ≤ v2 * s := by positivity
    linarith
  · zify at hff hrd hvs hs hs1 ⊢
    linarith [hs1.2]

/-- The third round, and what the last correction starts from. -/
theorem newton_third (hd : 2 ^ 63 ≤ d) (hd' : d < 2 ^ 64) (hlt : v2 * d < 2 ^ 97)
    (hge : 2 ^ 97 ≤ v2 * d + d + 440 * 2 ^ 54)
    (h3 : v3 = 2 ^ 31 * v2 + v2 * ((2 ^ 97 - v2 * d) / 2) / 2 ^ 65) :
    v2 < 2 ^ 34 ∧ (2 ^ 97 - v2 * d) / 2 < 2 ^ 64 ∧ v3 * d < 2 ^ 128 ∧ 2 ^ 128 ≤ v3 * d + 2 * d := by
  have hv2 : v2 < 2 ^ 34 := by
    by_contra hc
    have := Nat.mul_le_mul (Nat.le_of_not_lt hc) hd
    omega
  obtain ⟨f, hf⟩ := Nat.exists_eq_add_of_le hlt.le
  rw [hf, Nat.add_sub_cancel_left] at h3 ⊢
  refine ⟨hv2, by omega, ?_⟩
  have hhalf := Nat.div_add_mod f 2
  have hp := Nat.mod_lt f (show 0 < 2 by decide)
  obtain ⟨e, he⟩ : ∃ e, e = f / 2 := ⟨_, rfl⟩
  obtain ⟨p, hp'⟩ : ∃ p, p = f % 2 := ⟨_, rfl⟩
  rw [← he, ← hp'] at hhalf
  rw [← hp'] at hp
  rw [← he] at h3
  have hdm := Nat.div_add_mod (v2 * e) (2 ^ 65)
  have hr := Nat.mod_lt (v2 * e) (show 0 < 2 ^ 65 by decide)
  obtain ⟨q, hq⟩ : ∃ q, q = v2 * e / 2 ^ 65 := ⟨_, rfl⟩
  obtain ⟨r, hr'⟩ : ∃ r, r = v2 * e % 2 ^ 65 := ⟨_, rfl⟩
  rw [← hq, ← hr'] at hdm
  rw [← hr'] at hr
  rw [← hq] at h3
  have key : (2 : ℤ) ^ 66 * (2 ^ 128 - v3 * d) = f ^ 2 + p * (v2 * d) + 2 * (r * d) := by
    zify at h3 hhalf hdm hf
    linear_combination (-(2 : ℤ) ^ 66 * d) * h3 + (2 ^ 97 + f : ℤ) * hf + (-2 * d : ℤ) * hdm +
      (-(v2 : ℤ) * d) * hhalf
  have hff : f * f ≤ (d + 440 * 2 ^ 54) * (d + 440 * 2 ^ 54) := Nat.mul_le_mul (by omega) (by omega)
  have hpd : p * (v2 * d) ≤ 1 * (v2 * d) := Nat.mul_le_mul_right _ (by omega)
  have hvd : v2 * d ≤ 2 ^ 34 * d := Nat.mul_le_mul_right _ hv2.le
  have hrd : (r + 1) * d ≤ 2 ^ 65 * d := Nat.mul_le_mul_right _ (by omega)
  have hfpos : 0 < f * f := Nat.mul_pos (by omega) (by omega)
  -- (d + 440 * 2 ^ 54) is less than 1.86 * d
  have hdd : (d + 440 * 2 ^ 54) * (d + 440 * 2 ^ 54) + 2 ^ 34 * d ≤ 2 ^ 66 * d := by
    have h1 : 440 * 2 ^ 54 * 100 ≤ 86 * d := by omega
    nlinarith
  constructor
  · zify at hfpos ⊢
    have h1 : (0 : ℤ) ≤ p * (v2 * d) := by positivity
    have h2 : (0 : ℤ) ≤ r * d := by positivity
    linarith
  · zify at hff hpd hvd hrd hdd ⊢
    linarith

end newton

/-! ### The words -/

theorem reciprocal_table_toNat {d : BitVec 64} (hd : 2 ^ 63 ≤ d.toNat) :
    (((reciprocal_table_item ((d >>> 55).setWidth 8)).setWidth 64 : BitVec 64)).toNat = 0x7fd00 / (d.toNat / 2 ^ 55) := by
  have hlt := d.isLt
  have hd9 : 0x100 ||| ((d >>> 55).setWidth 8).toNat = d.toNat / 2 ^ 55 := by
    rw [BitVec.toNat_setWidth, BitVec.toNat_ushiftRight, Nat.shiftRight_eq_div_pow,
      show (0x100 : ℕ) = 2 ^ 8 * 1 from rfl, ← Nat.two_pow_add_eq_or_of_lt (by omega)]
    omega
  have hle : 0x7fd00 / (d.toNat / 2 ^ 55) ≤ 2045 :=
    (Nat.div_le_div_left (show 256 ≤ d.toNat / 2 ^ 55 by omega) (by decide)).trans (by decide)
  rw [reciprocal_table_item, hd9, BitVec.toNat_setWidth, BitVec.toNat_ofNat, Nat.mod_eq_of_lt (by omega),
    Nat.mod_eq_of_lt (by omega)]

theorem toNat_shl {w : ℕ} {x : BitVec w} {k : ℕ} (h : x.toNat * 2 ^ k < 2 ^ w) : (x <<< k).toNat = x.toNat * 2 ^ k := by
  rw [BitVec.toNat_shiftLeft, Nat.shiftLeft_eq, Nat.mod_eq_of_lt h]

theorem toNat_shr {w : ℕ} (x : BitVec w) (k : ℕ) : (x >>> k).toNat = x.toNat / 2 ^ k := by
  rw [BitVec.toNat_ushiftRight, Nat.shiftRight_eq_div_pow]

theorem toNat_mul_lt {w : ℕ} {x y : BitVec w} (h : x.toNat * y.toNat < 2 ^ w) : (x * y).toNat = x.toNat * y.toNat := by
  rw [BitVec.toNat_mul, Nat.mod_eq_of_lt h]

/-- A difference is known by what it is added to. -/
theorem toNat_sub_of {w a b r : ℕ} {x y : BitVec w} (hx : x.toNat % 2 ^ w = a % 2 ^ w) (hy : y.toNat % 2 ^ w = b % 2 ^ w)
    (h : (r + b) % 2 ^ w = a % 2 ^ w) (hr : r < 2 ^ w) : (x - y).toNat = r := by
  have hsum : (x - y + y).toNat = x.toNat := by rw [BitVec.sub_add_cancel]
  have h1 : ((x - y).toNat + b) % 2 ^ w = (r + b) % 2 ^ w := by
    rw [h, ← hx, ← hsum, BitVec.toNat_add, Nat.mod_mod, Nat.add_mod, ← hy, Nat.add_mod _ y.toNat]
  have h2 : (x - y).toNat % 2 ^ w = r % 2 ^ w := Nat.ModEq.add_right_cancel' b h1
  rwa [Nat.mod_eq_of_lt (x - y).isLt, Nat.mod_eq_of_lt hr] at h2

/-- Half of the error of the second round, in one word: the `2 ^ 96` it is taken from is
not seen there. -/
theorem newton_half {v2 d : BitVec 64} {f : ℕ} (hf : v2.toNat * d.toNat + f = 2 ^ 97) (hlt : f / 2 < 2 ^ 64) :
    (((v2 / 2#64) &&& -(d % 2#64)) - v2 * (d / 2#64 + d % 2#64)).toNat = f / 2 := by
  have hd := d.isLt
  have hv := v2.isLt
  have hmod : (d % 2#64).toNat = d.toNat % 2 := BitVec.toNat_umod ..
  have hdiv : (d / 2#64).toNat = d.toNat / 2 := BitVec.toNat_udiv ..
  have hvdiv : (v2 / 2#64).toNat = v2.toNat / 2 := BitVec.toNat_udiv ..
  have hsum : (d / 2#64 + d % 2#64).toNat = d.toNat / 2 + d.toNat % 2 := by
    rw [BitVec.toNat_add, hmod, hdiv, Nat.mod_eq_of_lt (by omega)]
  have hand : ((v2 / 2#64) &&& -(d % 2#64)).toNat = v2.toNat / 2 * (d.toNat % 2) := by
    rcases Nat.mod_two_eq_zero_or_one d.toNat with h | h
    · have h0 : d % 2#64 = 0#64 := BitVec.eq_of_toNat_eq (by rw [hmod, h]; rfl)
      rw [h0, h, BitVec.neg_zero, BitVec.and_zero]
      rfl
    · have h1 : d % 2#64 = 1#64 := BitVec.eq_of_toNat_eq (by rw [hmod, h]; rfl)
      rw [h1, h, show -1#64 = BitVec.allOnes 64 by decide, BitVec.and_allOnes, hvdiv, Nat.mul_one]
  refine toNat_sub_of (a := 2 ^ 96 + v2.toNat / 2 * (d.toNat % 2))
    (b := v2.toNat * (d.toNat / 2 + d.toNat % 2)) ?_ ?_ ?_ hlt
  · rw [hand]
    omega
  · rw [BitVec.toNat_mul, hsum, Nat.mod_mod]
  · -- twice the equation is the one for `f`
    congr 1
    have hdd := Nat.div_add_mod d.toNat 2
    obtain ⟨a, ha⟩ : ∃ a, a = d.toNat / 2 := ⟨_, rfl⟩
    rw [← ha] at hdd ⊢
    rcases Nat.mod_two_eq_zero_or_one d.toNat with h | h
    · rw [h] at hdd ⊢
      rw [← hdd] at hf
      have : v2.toNat * (2 * a + 0) = 2 * (v2.toNat * a) := by ring
      rw [this] at hf
      rw [Nat.add_zero, Nat.mul_zero]
      omega
    · rw [h] at hdd ⊢
      rw [← hdd] at hf
      have : v2.toNat * (2 * a + 1) = 2 * (v2.toNat * a) + v2.toNat := by ring
      rw [this] at hf
      rw [Nat.mul_add]
      omega

/-- The largest reciprocal is one or the next. -/
theorem newton_last {v3 d : BitVec 64} {v : ℕ} (hd : 2 ^ 63 ≤ d.toNat) (hlt : v * d.toNat < 2 ^ 128)
    (hge : 2 ^ 128 ≤ v * d.toNat + 2 * d.toNat) (hv : v3.toNat = v % 2 ^ 64) :
    IsReciprocal (2 ^ 64) ((2 ^ 64) ^ 2) d.toNat (v3 - ((umul v3 d + ⟨0#64, d⟩).hi + d)).toNat := by
  have hd' := d.isLt
  have hv64 : 2 ^ 64 ≤ v := by
    by_contra hc
    have := Nat.mul_le_mul_right d.toNat (show v + 1 ≤ 2 ^ 64 by omega)
    rw [Nat.succ_mul] at this
    omega
  have hv65 : v < 2 ^ 65 := by
    by_contra hc
    have := Nat.mul_le_mul (Nat.le_of_not_lt hc) hd
    omega
  obtain ⟨k, rfl⟩ := Nat.exists_eq_add_of_le hv64
  have hk : v3.toNat = k := by omega
  have hprod : (k + 1) * d.toNat ≤ 2 ^ 64 * (2 ^ 64 - 1) := Nat.mul_le_mul (by omega) (by omega)
  rw [Nat.add_mul] at hlt hge
  rw [Nat.succ_mul] at hprod
  have hm : (umul v3 d + ⟨0#64, d⟩).toNat = k * d.toNat + d.toNat := by
    rw [uint128.toNat_add, umul_toNat, hk, uint128.toNat_mk, BitVec.toNat_zero]
    omega
  have hhi : (umul v3 d + ⟨0#64, d⟩).hi.toNat = (k * d.toNat + d.toNat) / 2 ^ 64 := by
    rw [uint128.hi_toNat, hm]
  obtain ⟨p, hp⟩ : ∃ p, p = k * d.toNat := ⟨_, rfl⟩
  rw [← hp] at hlt hge hhi hprod
  have hsub : (v3 - ((umul v3 d + ⟨0#64, d⟩).hi + d)).toNat =
      if 2 ^ 64 * d.toNat + p + d.toNat < 2 ^ 128 then k + 1 else k := by
    rw [BitVec.toNat_sub, BitVec.toNat_add, hhi, hk]
    split
    · next hlast =>
      have h : (p + d.toNat) / 2 ^ 64 + d.toNat = 2 ^ 64 - 1 := by omega
      have hk1 : k + 1 < 2 ^ 64 := by
        by_contra hc
        have := Nat.mul_le_mul (show 2 ^ 65 ≤ 2 ^ 64 + k + 1 by omega) hd
        rw [Nat.succ_mul, Nat.add_mul, ← hp] at this
        omega
      rw [h]
      omega
    · have h : (p + d.toNat) / 2 ^ 64 + d.toNat = 2 ^ 64 := by omega
      rw [h]
      omega
  rw [hsub]
  split
  · next h => exact ⟨by rw [Nat.add_mul, Nat.succ_mul, ← hp]; omega, by rw [Nat.add_mul, Nat.succ_mul, ← hp]; omega⟩
  · next h => exact ⟨by rw [Nat.add_mul, ← hp]; omega, by rw [Nat.add_mul, ← hp]; omega⟩

theorem reciprocal_2by1_spec {d : BitVec 64} (hd : 2 ^ 63 ≤ d.toNat) :
    IsReciprocal (2 ^ 64) ((2 ^ 64) ^ 2) d.toNat (reciprocal_2by1 d).toNat := by
  have hd' := d.isLt
  obtain ⟨v0, hv0⟩ : ∃ v0, v0 = ((reciprocal_table_item ((d >>> 55).setWidth 8)).setWidth 64 : BitVec 64) := ⟨_, rfl⟩
  obtain ⟨d40, hd40⟩ : ∃ d40, d40 = (d >>> 24) + 1#64 := ⟨_, rfl⟩
  obtain ⟨v1, hv1⟩ : ∃ v1, v1 = (v0 <<< 11) - ((v0 * v0 * d40) >>> 40) - 1#64 := ⟨_, rfl⟩
  obtain ⟨v2, hv2⟩ : ∃ v2, v2 = (v1 <<< 13) + ((v1 * (0x1000000000000000#64 - v1 * d40)) >>> 47) := ⟨_, rfl⟩
  obtain ⟨e, he⟩ : ∃ e, e = ((v2 / 2#64) &&& -(d % 2#64)) - v2 * (d / 2#64 + d % 2#64) := ⟨_, rfl⟩
  obtain ⟨v3, hv3⟩ : ∃ v3, v3 = (v2 <<< 31) + ((umul v2 e).hi >>> 1) := ⟨_, rfl⟩
  have heq : reciprocal_2by1 d = v3 - ((umul v3 d + ⟨0#64, d⟩).hi + d) := by
    subst hv3 he hv2 hv1 hd40 hv0
    rfl
  -- the table
  have h0 : v0.toNat = 0x7fd00 / (d.toNat / 2 ^ 55) := by rw [hv0, reciprocal_table_toNat hd]
  have h40 : d40.toNat = d.toNat / 2 ^ 24 + 1 := by
    rw [hd40, BitVec.toNat_add, toNat_shr]
    simp only [BitVec.toNat_ofNat]
    omega
  obtain ⟨hmax, hlo, hhi⟩ := newton_table hd hd' h0 h40
  -- the first round
  obtain ⟨hp, hle, hlt1, hge1⟩ := newton_first (by omega) (by omega) hmax hlo hhi rfl
  have h1 : v1.toNat = 2 ^ 11 * v0.toNat - v0.toNat * v0.toNat * d40.toNat / 2 ^ 40 - 1 := by
    have hvv : (v0 * v0).toNat = v0.toNat * v0.toNat :=
      toNat_mul_lt (Nat.lt_of_le_of_lt (Nat.le_mul_of_pos_right _ (by omega)) hp)
    have hvvd : (v0 * v0 * d40).toNat = v0.toNat * v0.toNat * d40.toNat := by
      rw [toNat_mul_lt (by rwa [hvv]), hvv]
    rw [hv1, BitVec.toNat_sub, BitVec.toNat_sub, toNat_shr, hvvd, toNat_shl (by omega)]
    simp only [BitVec.toNat_ofNat]
    omega
  rw [← h1] at hlt1 hge1
  -- the second round
  obtain ⟨hv1lt, hp2, hlt2, hge2⟩ := newton_second hd hd' h40 hlt1 hge1 rfl
  have h2 : v2.toNat = 2 ^ 13 * v1.toNat + v1.toNat * (2 ^ 60 - v1.toNat * d40.toNat) / 2 ^ 47 := by
    have hsub : (0x1000000000000000#64 - v1 * d40).toNat = 2 ^ 60 - v1.toNat * d40.toNat := by
      rw [BitVec.toNat_sub, toNat_mul_lt (by omega)]
      simp only [BitVec.toNat_ofNat]
      omega
    rw [hv2, BitVec.toNat_add, toNat_shr, toNat_mul_lt (by rwa [hsub]), hsub, toNat_shl (by omega)]
    omega
  rw [← h2] at hlt2 hge2
  -- the third round
  obtain ⟨hv2lt, hhalf, hlt3, hge3⟩ := newton_third hd hd' hlt2 hge2 rfl
  have he' : e.toNat = (2 ^ 97 - v2.toNat * d.toNat) / 2 := by
    rw [he]
    exact newton_half (by omega) hhalf
  rw [heq]
  refine newton_last hd hlt3 hge3 ?_
  rw [hv3, BitVec.toNat_add, toNat_shr, uint128.hi_toNat, umul_toNat, he', BitVec.toNat_shiftLeft, Nat.shiftLeft_eq,
    Nat.div_div_eq_div_mul]
  omega

/-! ## The reciprocal of two words -/

/-- mirrors evm/intx/int128.hpp:512-522 -/
def reciprocal_high (d : uint128) (v p : BitVec 64) : BitVec 64 × BitVec 64 :=
  if p < d.lo then
    if p ≥ d.hi then (v - 1#64 - 1#64, p - d.hi - d.hi) else (v - 1#64, p - d.hi)
  else (v, p)

/-- mirrors evm/intx/int128.hpp:524-533 -/
def reciprocal_low (d : uint128) (v p : BitVec 64) : BitVec 64 :=
  let t := umul v d.lo
  let p := p + t.hi
  if p < t.hi then
    if ¬ (⟨p, t.lo⟩ : uint128) < d then v - 1#64 - 1#64 else v - 1#64
  else v

/-- mirrors evm/intx/int128.hpp:508-534 -/
def reciprocal_3by2 (d : uint128) : BitVec 64 :=
  let v := reciprocal_2by1 d.hi
  let p := d.hi * v + d.lo
  let vp := reciprocal_high d v p
  reciprocal_low d vp.1 vp.2

section
variable {d : uint128} {v p : BitVec 64}

theorem toNat_sub_one {k : ℕ} (h : v.toNat = k + 1) : (v - 1#64).toNat = k := by
  have := v.isLt
  rw [BitVec.toNat_sub]
  simp only [BitVec.toNat_ofNat]
  omega

/-- The low word of the divisor makes the reciprocal of the high one smaller by at most
two; `p` is kept so that it shows what is missing to `2 ^ 128`. -/
theorem reciprocal_high_spec (hd : 2 ^ 63 ≤ d.hi.toNat)
    (h : IsReciprocal (2 ^ 64) ((2 ^ 64) ^ 2) d.hi.toNat v.toNat) (hp : p = d.hi * v + d.lo) :
    ∃ v' p' : BitVec 64, reciprocal_high d v p = (v', p') ∧
      (2 ^ 64 + v'.toNat) * d.hi.toNat + d.lo.toNat + 2 ^ 64 = 2 ^ 128 + p'.toNat ∧ 2 ^ 64 ≤ p'.toNat + d.hi.toNat := by
  obtain ⟨hlt, hge⟩ := h
  have hd1 := d.hi.isLt
  have hd0 := d.lo.isLt
  have hpt : p.toNat = (v.toNat * d.hi.toNat + d.lo.toNat) % 2 ^ 64 := by
    rw [hp, BitVec.toNat_add, BitVec.toNat_mul, Nat.mod_add_mod, Nat.mul_comm]
  rw [Nat.add_mul] at hlt hge
  obtain ⟨x, hx⟩ : ∃ x, x = v.toNat * d.hi.toNat := ⟨_, rfl⟩
  rw [← hx] at hlt hge hpt
  unfold reciprocal_high
  split
  · next hlow =>
    rw [BitVec.lt_def] at hlow
    have hq : (x + d.lo.toNat) / 2 ^ 64 = 2 ^ 64 - d.hi.toNat := by omega
    have hval : 2 ^ 64 * d.hi.toNat + x + d.lo.toNat = 2 ^ 128 + p.toNat := by omega
    have hv1 : v.toNat ≠ 0 := by
      intro h0
      rw [h0, Nat.zero_mul] at hx
      omega
    obtain ⟨k, hk⟩ := Nat.exists_eq_add_one_of_ne_zero hv1
    rw [hk, Nat.succ_mul] at hx
    split
    · next hhigh =>
      rw [ge_iff_le, BitVec.le_def] at hhigh
      have hk0 : k ≠ 0 := by
        rintro rfl
        omega
      obtain ⟨l, rfl⟩ := Nat.exists_eq_add_one_of_ne_zero hk0
      rw [Nat.succ_mul] at hx
      refine ⟨_, _, rfl, ?_⟩
      have hsub : (p - d.hi - d.hi).toNat = p.toNat + 2 ^ 64 - 2 * d.hi.toNat := by
        have h1 : (p - d.hi).toNat = p.toNat - d.hi.toNat := BitVec.toNat_sub_of_le hhigh
        rw [BitVec.toNat_sub, h1]
        omega
      rw [toNat_sub_one (toNat_sub_one hk), hsub, Nat.add_mul]
      omega
    · next hhigh =>
      rw [ge_iff_le, BitVec.le_def] at hhigh
      refine ⟨_, _, rfl, ?_⟩
      have hsub : (p - d.hi).toNat = p.toNat + 2 ^ 64 - d.hi.toNat := by
        rw [BitVec.toNat_sub]
        omega
      rw [toNat_sub_one hk, hsub, Nat.add_mul]
      omega
  · next hlow =>
    rw [BitVec.lt_def] at hlow
    refine ⟨_, _, rfl, ?_⟩
    rw [Nat.add_mul, ← hx]
    omega

theorem pair_mul (b v d1 d0 : ℕ) : (b + v) * (d1 * b + d0) = b * ((b + v) * d1) + b * d0 + v * d0 := by ring

theorem succ_add_mul (b k d : ℕ) : (b + (k + 1)) * d = (b + k) * d + d := by ring

/-- The correction for the product with the low word. -/
theorem reciprocal_low_spec (hd : 2 ^ 63 ≤ d.hi.toNat)
    (hinv : (2 ^ 64 + v.toNat) * d.hi.toNat + d.lo.toNat + 2 ^ 64 = 2 ^ 128 + p.toNat)
    (hpd : 2 ^ 64 ≤ p.toNat + d.hi.toNat) :
    IsReciprocal (2 ^ 64) ((2 ^ 64) ^ 3) d.toNat (reciprocal_low d v p).toNat := by
  obtain ⟨t, ht⟩ : ∃ t, t = umul v d.lo := ⟨_, rfl⟩
  have htn : t.hi.toNat * 2 ^ 64 + t.lo.toNat = v.toNat * d.lo.toNat := by rw [← umul_toNat, ← ht]; rfl
  have hd1 := d.hi.isLt
  have hd0 := d.lo.isLt
  have hp := p.isLt
  have ht1 := t.hi.isLt
  have ht0 := t.lo.isLt
  have hdn : d.toNat = d.hi.toNat * 2 ^ 64 + d.lo.toNat := rfl
  -- the product with both words
  have hfull : (2 ^ 64 + v.toNat) * d.toNat + (2 ^ 64) ^ 2 =
      (2 ^ 64) ^ 3 + 2 ^ 64 * (p.toNat + t.hi.toNat) + t.lo.toNat := by
    have e1 : (2 ^ 64 + v.toNat) * d.toNat =
        2 ^ 64 * ((2 ^ 64 + v.toNat) * d.hi.toNat) + 2 ^ 64 * d.lo.toNat + v.toNat * d.lo.toNat := by
      rw [hdn]
      exact pair_mul ..
    rw [e1, ← htn]
    omega
  have heq : reciprocal_low d v p =
      if p + t.hi < t.hi then
        if ¬ (⟨p + t.hi, t.lo⟩ : uint128) < d then v - 1#64 - 1#64 else v - 1#64
      else v := by
    subst ht
    rfl
  rw [heq]
  split
  · next hover =>
    rw [BitVec.lt_def, BitVec.toNat_add] at hover
    have hv1 : v.toNat ≠ 0 := by
      intro h0
      rw [h0] at hfull
      omega
    obtain ⟨k, hk⟩ := Nat.exists_eq_add_one_of_ne_zero hv1
    have hsucc : (2 ^ 64 + v.toNat) * d.toNat = (2 ^ 64 + k) * d.toNat + d.toNat := by
      rw [hk]
      exact succ_add_mul ..
    have hpt : (p + t.hi).toNat = p.toNat + t.hi.toNat - 2 ^ 64 := by
      rw [BitVec.toNat_add]
      omega
    split
    · next hmore =>
      rw [uint128.lt_iff, uint128.toNat_mk, hpt] at hmore
      have hk0 : k ≠ 0 := by
        rintro rfl
        omega
      obtain ⟨l, rfl⟩ := Nat.exists_eq_add_one_of_ne_zero hk0
      have hsucc' : (2 ^ 64 + (l + 1)) * d.toNat = (2 ^ 64 + l) * d.toNat + d.toNat :=
        succ_add_mul ..
      rw [toNat_sub_one (toNat_sub_one hk)]
      constructor <;> omega
    · next hmore =>
      rw [not_not, uint128.lt_iff, uint128.toNat_mk, hpt] at hmore
      rw [toNat_sub_one hk]
      constructor <;> omega
  · next hover =>
    rw [BitVec.lt_def, BitVec.toNat_add] at hover
    constructor <;> omega

theorem reciprocal_3by2_spec (hd : 2 ^ 63 ≤ d.hi.toNat) :
    IsReciprocal (2 ^ 64) ((2 ^ 64) ^ 3) d.toNat (reciprocal_3by2 d).toNat := by
  obtain ⟨v, p, hvp, hinv, hpd⟩ := reciprocal_high_spec hd (reciprocal_2by1_spec hd) rfl
  have heq : reciprocal_3by2 d =
      reciprocal_low d (reciprocal_high d (reciprocal_2by1 d.hi) (d.hi * reciprocal_2by1 d.hi + d.lo)).1
        (reciprocal_high d (reciprocal_2by1 d.hi) (d.hi * reciprocal_2by1 d.hi + d.lo)).2 := rfl
  rw [heq, hvp]
  exact reciprocal_low_spec hd hinv hpd

end

/-! ## A digit of a quotient -/

/-- mirrors evm/intx/int128.hpp:536-558 -/
def udivrem_2by1 (u : uint128) (d v : BitVec 64) : BitVec 64 × BitVec 64 :=
  let q := umul v u.hi + u
  let q_hi := q.hi + 1#64
  let r := u.lo - q_hi * d
  let qr := if q.lo < r then (q_hi - 1#64, r + d) else (q_hi, r)
  if qr.2 ≥ d then (qr.1 + 1#64, qr.2 - d) else qr

/-- mirrors evm/intx/int128.hpp:560-588 -/
def udivrem_3by2 (u2 u1 u0 : BitVec 64) (d : uint128) (v : BitVec 64) : uint128 × uint128 :=
  let q := umul v u2 + ⟨u2, u1⟩
  let r1 := u1 - q.hi * d.hi
  let t := umul d.lo q.hi
  let r := (⟨r1, u0⟩ : uint128) - t - d
  let r1 := r.hi
  let q_hi := q.hi + 1#64
  let qr := if q.lo ≤ r1 then (q_hi - 1#64, r + d) else (q_hi, r)
  if ¬ qr.2 < d then (⟨0#64, qr.1 + 1#64⟩, qr.2 - d) else (⟨0#64, qr.1⟩, qr.2)

/-- The words of the last correction. -/
theorem quotient_words {d qb rb : BitVec 64} {u q : ℕ} (hdiv : u / d.toNat < 2 ^ 64)
    (hpair : (if d.toNat ≤ rb.toNat then (q + 1, rb.toNat - d.toNat) else (q, rb.toNat)) = (u / d.toNat, u % d.toNat))
    (hqb : qb.toNat = q % 2 ^ 64) :
    (if rb ≥ d then (qb + 1#64, rb - d) else (qb, rb)).1.toNat = u / d.toNat ∧
      (if rb ≥ d then (qb + 1#64, rb - d) else (qb, rb)).2.toNat = u % d.toNat := by
  split <;> rename_i h <;> rw [ge_iff_le, BitVec.le_def] at h
  · rw [if_pos h] at hpair
    obtain ⟨h1, h2⟩ := Prod.mk.inj hpair
    rw [BitVec.toNat_add, BitVec.toNat_sub_of_le h, hqb]
    simp only [BitVec.toNat_ofNat]
    omega
  · rw [if_neg h] at hpair
    obtain ⟨h1, h2⟩ := Prod.mk.inj hpair
    dsimp only
    omega

theorem udivrem_2by1_spec {u : uint128} {d v : BitVec 64} (hd : 2 ^ 63 ≤ d.toNat)
    (hv : IsReciprocal (2 ^ 64) ((2 ^ 64) ^ 2) d.toNat v.toNat) (hu : u.hi.toNat < d.toNat) :
    (udivrem_2by1 u d v).1.toNat = u.toNat / d.toNat ∧ (udivrem_2by1 u d v).2.toNat = u.toNat % d.toNat := by
  have hd' := d.isLt
  have hu0 := u.lo.isLt
  have hun : u.toNat = u.hi.toNat * 2 ^ 64 + u.lo.toNat := rfl
  obtain ⟨q, hq⟩ : ∃ q, q = umul v u.hi + u := ⟨_, rfl⟩
  have hq0 := q.lo.isLt
  have hqn : q.hi.toNat * 2 ^ 64 + q.lo.toNat = v.toNat * u.hi.toNat + (u.hi.toNat * 2 ^ 64 + u.lo.toNat) := by
    have hlt : v.toNat * u.hi.toNat + u.toNat < 2 ^ 128 := by
      have h1 := hv.lt
      have h2 := Nat.mul_le_mul_left (2 ^ 64 + v.toNat) (show u.hi.toNat + 1 ≤ d.toNat by omega)
      rw [Nat.mul_succ, Nat.add_mul] at h2
      omega
    change q.toNat = _
    rw [hq, uint128.toNat_add, umul_toNat, Nat.mod_eq_of_lt hlt, hun]
  obtain ⟨f1, f2, f3⟩ := hv.two_by_one hd' hu hu0 hq0 hqn
  rw [← hun] at f1 f2 f3
  obtain ⟨q_hi, hqhi⟩ : ∃ q_hi, q_hi = q.hi + 1#64 := ⟨_, rfl⟩
  obtain ⟨r, hr⟩ : ∃ r, r = u.lo - q_hi * d := ⟨_, rfl⟩
  have hqhin : q_hi.toNat = (q.hi.toNat + 1) % 2 ^ 64 := by rw [hqhi, BitVec.toNat_add]; rfl
  have hrn := r.isLt
  have hmod : (r.toNat + (q.hi.toNat + 1) * d.toNat) % 2 ^ 64 = u.toNat % 2 ^ 64 := by
    have hprod : (q_hi * d).toNat = (q.hi.toNat + 1) * d.toNat % 2 ^ 64 := by
      rw [BitVec.toNat_mul, hqhin, Nat.mod_mul_mod]
    rw [hr, BitVec.toNat_sub, hprod, hun]
    omega
  obtain ⟨x, hx⟩ : ∃ x, x = (q.hi.toNat + 1) * d.toNat := ⟨_, rfl⟩
  have hdiv : u.toNat / d.toNat < 2 ^ 64 := by
    rw [Nat.div_lt_iff_lt_mul (by omega)]
    have := Nat.mul_le_mul_left (2 ^ 64) (show u.hi.toNat + 1 ≤ d.toNat by omega)
    omega
  have hpair := @corrected (2 ^ 64) u.toNat d.toNat (q.hi.toNat + 1) r.toNat (q.lo < r) _
    hd' (by omega) (Nat.succ_pos _) hrn hmod
    (by rw [BitVec.lt_def]; rw [← hx] at f1 f2 f3 hmod ⊢; omega)
    (by rw [BitVec.lt_def]; rw [← hx] at f1 f2 f3 hmod ⊢; omega)
  have heq : udivrem_2by1 u d v =
      if (if q.lo < r then (q_hi - 1#64, r + d) else (q_hi, r)).2 ≥ d then
        ((if q.lo < r then (q_hi - 1#64, r + d) else (q_hi, r)).1 + 1#64,
          (if q.lo < r then (q_hi - 1#64, r + d) else (q_hi, r)).2 - d)
      else if q.lo < r then (q_hi - 1#64, r + d) else (q_hi, r) := by
    subst hr hqhi hq
    rfl
  rw [heq]
  obtain ⟨qb, rb, hb, hqb, hrb⟩ : ∃ qb rb, (if q.lo < r then (q_hi - 1#64, r + d) else (q_hi, r)) = (qb, rb) ∧
      qb.toNat = (if q.lo < r then q.hi.toNat + 1 - 1 else q.hi.toNat + 1) % 2 ^ 64 ∧
      rb.toNat = if q.lo < r then (r.toNat + d.toNat) % 2 ^ 64 else r.toNat := by
    split
    · refine ⟨_, _, rfl, ?_, BitVec.toNat_add ..⟩
      rw [BitVec.toNat_sub, hqhin]
      simp only [BitVec.toNat_ofNat]
      omega
    · exact ⟨_, _, rfl, hqhin, rfl⟩
  rw [← hrb] at hpair
  rw [hb]
  exact quotient_words hdiv hpair hqb

theorem three_mul (b q d1 d0 : ℕ) :
    (q + 1) * (d1 * b + d0) = q * d1 * b + d0 * q + (d1 * b + d0) := by ring

theorem quotient_pairs {d rb : uint128} {qb : BitVec 64} {u q : ℕ} (hdiv : u / d.toNat < 2 ^ 64)
    (hpair : (if d.toNat ≤ rb.toNat then (q + 1, rb.toNat - d.toNat) else (q, rb.toNat)) = (u / d.toNat, u % d.toNat))
    (hqb : qb.toNat = q % 2 ^ 64) :
    (if ¬ rb < d then ((⟨0#64, qb + 1#64⟩ : uint128), rb - d) else (⟨0#64, qb⟩, rb)).1.toNat = u / d.toNat ∧
      (if ¬ rb < d then ((⟨0#64, qb + 1#64⟩ : uint128), rb - d) else (⟨0#64, qb⟩, rb)).2.toNat = u % d.toNat := by
  have hr := rb.toNat_lt
  split <;> rename_i h <;> rw [uint128.lt_iff, Nat.not_lt] at h
  · rw [if_pos h] at hpair
    obtain ⟨h1, h2⟩ := Prod.mk.inj hpair
    rw [uint128.toNat_sub, uint128.toNat_mk, BitVec.toNat_add, hqb]
    simp only [BitVec.toNat_ofNat]
    omega
  · rw [if_neg h] at hpair
    obtain ⟨h1, h2⟩ := Prod.mk.inj hpair
    rw [uint128.toNat_mk]
    simp only [BitVec.toNat_ofNat]
    omega

/-- What a difference of pairs is a remainder of. -/
theorem pair_sub {y u2 u1 u0 r1 t d r u : ℕ} (hr1 : r1 = (2 ^ 64 - y % 2 ^ 64 + u1) % 2 ^ 64)
    (hr : r = ((r1 * 2 ^ 64 + u0 + (2 ^ 128 - t)) % 2 ^ 128 + (2 ^ 128 - d)) % 2 ^ 128) (ht : t < 2 ^ 128)
    (hd : d < 2 ^ 128) (hu : u = (u2 * 2 ^ 64 + u1) * 2 ^ 64 + u0) :
    (r + (y * 2 ^ 64 + t + d)) % 2 ^ 128 = u % 2 ^ 128 := by
  obtain ⟨k, hk⟩ : ∃ k, r1 + y = u1 + 2 ^ 64 * k ∨ r1 + y + 2 ^ 64 * k = u1 := by
    rcases Nat.le_total u1 (r1 + y) with h | h
    · exact ⟨(r1 + y - u1) / 2 ^ 64, .inl (by omega)⟩
    · exact ⟨(u1 - (r1 + y)) / 2 ^ 64, .inr (by omega)⟩
  obtain ⟨b, hb⟩ : ∃ b, b = (r1 * 2 ^ 64 + u0 + (2 ^ 128 - t)) % 2 ^ 128 := ⟨_, rfl⟩
  rw [← hb] at hr
  have h1 : (r + d) % 2 ^ 128 = b % 2 ^ 128 := by
    clear hb hk hr1 hu
    omega
  have h2 : (b + t) % 2 ^ 128 = (r1 * 2 ^ 64 + u0) % 2 ^ 128 := by
    clear hr hk hr1 hu h1
    omega
  have h3 : (r1 * 2 ^ 64 + u0 + y * 2 ^ 64) % 2 ^ 128 = u % 2 ^ 128 := by
    clear hr hb h1 h2 hr1
    rcases hk with hk | hk <;> omega
  calc (r + (y * 2 ^ 64 + t + d)) % 2 ^ 128 = (r + d + (t + y * 2 ^ 64)) % 2 ^ 128 := by congr 1; omega
    _ = (b + (t + y * 2 ^ 64)) % 2 ^ 128 := by rw [Nat.add_mod, h1, ← Nat.add_mod]
    _ = (b + t + y * 2 ^ 64) % 2 ^ 128 := by rw [Nat.add_assoc]
    _ = u % 2 ^ 128 := by rw [Nat.add_mod, h2, ← Nat.add_mod, h3]

/-- The test for a guess that is too large reads the highest word of the remainder only. -/
theorem pair_tests {u d x q0 r : ℕ} (hmod : (r + x) % 2 ^ 128 = u % 2 ^ 128) (hr : r < 2 ^ 128) (hd : d < 2 ^ 128)
    (f1 : x ≤ u + d) (f2 : x + q0 * 2 ^ 64 ≤ u + (2 ^ 64) ^ 2)
    (f3 : u + d < x + (2 ^ 64) ^ 2 ∨ u < x + q0 * 2 ^ 64) (hq0 : q0 < 2 ^ 64) :
    (u < x → q0 ≤ r / 2 ^ 64 ∧ x ≤ u + d) ∧ (x ≤ u → u < x + 2 ^ 128 ∧ (q0 ≤ r / 2 ^ 64 → u + d < x + 2 ^ 128)) := by
  constructor
  · intro hlt
    obtain ⟨e, rfl⟩ := Nat.exists_eq_add_of_le hlt.le
    have hre : r = 2 ^ 128 - e := by
      clear f2 f3
      have : (r + e) % 2 ^ 128 = 0 := by
        have h := Nat.ModEq.add_right_cancel' u (show r + e + u ≡ 0 + u [MOD 2 ^ 128] by
          rw [Nat.ModEq, Nat.zero_add, ← hmod]
          congr 1
          omega)
        rwa [Nat.ModEq, Nat.zero_mod] at h
      omega
    omega
  · intro hle
    obtain ⟨e, rfl⟩ := Nat.exists_eq_add_of_le hle
    have he : e < 2 ^ 128 := by omega
    have hre : r = e := by
      have h : r ≡ e [MOD 2 ^ 128] := Nat.ModEq.add_right_cancel' x (by rw [Nat.ModEq, hmod, Nat.add_comm])
      rwa [Nat.ModEq, Nat.mod_eq_of_lt hr, Nat.mod_eq_of_lt he] at h
    subst hre
    clear hmod f1
    omega

theorem toNat_pred_succ (q : BitVec 64) {p : BitVec 64} (hp : p.toNat = (q.toNat + 1) % 2 ^ 64) :
    (p - 1#64).toNat = (q.toNat + 1 - 1) % 2 ^ 64 := by
  have hq := q.isLt
  rw [BitVec.toNat_sub, hp]
  simp only [BitVec.toNat_ofNat]
  omega

theorem udivrem_3by2_spec {u2 u1 u0 : BitVec 64} {d : uint128} {v : BitVec 64} (hd : 2 ^ 63 ≤ d.hi.toNat)
    (hv : IsReciprocal (2 ^ 64) ((2 ^ 64) ^ 3) d.toNat v.toNat) (hu : u2.toNat * 2 ^ 64 + u1.toNat < d.toNat) :
    (udivrem_3by2 u2 u1 u0 d v).1.toNat = ((u2.toNat * 2 ^ 64 + u1.toNat) * 2 ^ 64 + u0.toNat) / d.toNat ∧
      (udivrem_3by2 u2 u1 u0 d v).2.toNat = ((u2.toNat * 2 ^ 64 + u1.toNat) * 2 ^ 64 + u0.toNat) % d.toNat := by
  have hd' := d.toNat_lt
  have hd1 := d.hi.isLt
  have hd0 := d.lo.isLt
  have hdn : d.toNat = d.hi.toNat * 2 ^ 64 + d.lo.toNat := rfl
  have hu2 := u2.isLt
  have hu1 := u1.isLt
  have hu0 := u0.isLt
  obtain ⟨q, hq⟩ : ∃ q, q = umul v u2 + ⟨u2, u1⟩ := ⟨_, rfl⟩
  have hq1 := q.hi.isLt
  have hq0 := q.lo.isLt
  have hqn : q.hi.toNat * 2 ^ 64 + q.lo.toNat = v.toNat * u2.toNat + (u2.toNat * 2 ^ 64 + u1.toNat) := by
    have hlt : v.toNat * u2.toNat + (u2.toNat * 2 ^ 64 + u1.toNat) < 2 ^ 128 := by
      have h1 := hv.lt
      rw [hdn, pair_mul] at h1
      rcases Nat.lt_or_ge u2.toNat d.hi.toNat with hlt | hge
      · have h2 := Nat.mul_le_mul_left (2 ^ 64 + v.toNat) (show u2.toNat + 1 ≤ d.hi.toNat by omega)
        rw [Nat.mul_succ, Nat.add_mul] at h2
        omega
      · have heq : u2.toNat = d.hi.toNat := by omega
        rw [← heq, Nat.add_mul] at h1
        omega
    change q.toNat = _
    rw [hq, uint128.toNat_add, umul_toNat, uint128.toNat_mk, Nat.mod_eq_of_lt hlt]
  obtain ⟨f1, f2, f3⟩ := hv.three_by_two (by omega) hu hu2 hu1 hu0 hq0 hqn
  obtain ⟨u, hun⟩ : ∃ u, u = (u2.toNat * 2 ^ 64 + u1.toNat) * 2 ^ 64 + u0.toNat := ⟨_, rfl⟩
  rw [← hun] at f1 f2 f3 ⊢
  obtain ⟨q_hi, hqhi⟩ : ∃ q_hi, q_hi = q.hi + 1#64 := ⟨_, rfl⟩
  obtain ⟨r1, hr1⟩ : ∃ r1, r1 = u1 - q.hi * d.hi := ⟨_, rfl⟩
  obtain ⟨t, ht⟩ : ∃ t, t = umul d.lo q.hi := ⟨_, rfl⟩
  obtain ⟨r, hr⟩ : ∃ r, r = (⟨r1, u0⟩ : uint128) - t - d := ⟨_, rfl⟩
  have hqhin : q_hi.toNat = (q.hi.toNat + 1) % 2 ^ 64 := by rw [hqhi, BitVec.toNat_add]; rfl
  have hrn := r.toNat_lt
  have htn : t.toNat = d.lo.toNat * q.hi.toNat := by rw [ht, umul_toNat]
  have htlt := t.toNat_lt
  have hr1n : r1.toNat = (2 ^ 64 - q.hi.toNat * d.hi.toNat % 2 ^ 64 + u1.toNat) % 2 ^ 64 := by
    rw [hr1, BitVec.toNat_sub, BitVec.toNat_mul]
  have hrt : r.toNat = ((r1.toNat * 2 ^ 64 + u0.toNat + (2 ^ 128 - t.toNat)) % 2 ^ 128 + (2 ^ 128 - d.toNat)) % 2 ^ 128 := by
    rw [hr, uint128.toNat_sub, uint128.toNat_sub, uint128.toNat_mk]
  obtain ⟨x, hx⟩ : ∃ x, x = (q.hi.toNat + 1) * d.toNat := ⟨_, rfl⟩
  have hxn : x = q.hi.toNat * d.hi.toNat * 2 ^ 64 + t.toNat + d.toNat := by
    rw [hx, htn, hdn]
    exact three_mul ..
  have hmod : (r.toNat + x) % 2 ^ 128 = u % 2 ^ 128 := by
    rw [hxn]
    exact pair_sub hr1n hrt htlt hd' hun
  have hdiv : u / d.toNat < 2 ^ 64 := by
    rw [Nat.div_lt_iff_lt_mul (by omega)]
    have := Nat.mul_le_mul_left (2 ^ 64) (show u2.toNat * 2 ^ 64 + u1.toNat + 1 ≤ d.toNat by omega)
    omega
  have hrhi : r.hi.toNat = r.toNat / 2 ^ 64 := r.hi_toNat
  have htests := pair_tests hmod hrn hd' (hx ▸ f1) (hx ▸ f2) (hx ▸ f3) hq0
  have hpair := @corrected (2 ^ 128) u d.toNat (q.hi.toNat + 1) r.toNat (q.lo ≤ r.hi) _
    hd' (by omega) (Nat.succ_pos _) hrn (by rw [← hx]; exact hmod)
    (by rw [BitVec.le_def, hrhi, ← hx]; exact htests.1) (by rw [BitVec.le_def, hrhi, ← hx]; exact htests.2)
  have heq : udivrem_3by2 u2 u1 u0 d v =
      if ¬ (if q.lo ≤ r.hi then (q_hi - 1#64, r + d) else (q_hi, r)).2 < d then
        (⟨0#64, (if q.lo ≤ r.hi then (q_hi - 1#64, r + d) else (q_hi, r)).1 + 1#64⟩,
          (if q.lo ≤ r.hi then (q_hi - 1#64, r + d) else (q_hi, r)).2 - d)
      else (⟨0#64, (if q.lo ≤ r.hi then (q_hi - 1#64, r + d) else (q_hi, r)).1⟩,
        (if q.lo ≤ r.hi then (q_hi - 1#64, r + d) else (q_hi, r)).2) := by
    subst hr hr1 ht hqhi hq
    rfl
  rw [heq]
  obtain ⟨qb, rb, hb, hqb, hrb⟩ : ∃ qb rb, (if q.lo ≤ r.hi then (q_hi - 1#64, r + d) else (q_hi, r)) = (qb, rb) ∧
      qb.toNat = (if q.lo ≤ r.hi then q.hi.toNat + 1 - 1 else q.hi.toNat + 1) % 2 ^ 64 ∧
      rb.toNat = if q.lo ≤ r.hi then (r.toNat + d.toNat) % 2 ^ 128 else r.toNat := by
    split
    · exact ⟨_, _, rfl, toNat_pred_succ q.hi hqhin, uint128.toNat_add ..⟩
    · exact ⟨_, _, rfl, hqhin, rfl⟩
  rw [← hrb] at hpair
  rw [hb]
  exact quotient_pairs hdiv hpair hqb

end Diode.L4.Intx
