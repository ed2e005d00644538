import Diode.L4Evm.VM

/-!
# What the arithmetic means

Words are numbers below `2 ^ 256`, or integers from `-2 ^ 255` on where an
instruction is signed. What an instruction makes of the words it takes is said
here in the numbers (`unop`, `binop`, `ternop`), and every instruction computes
that: the shifts that fill up by hand, the sign that is extended by a mask and
the division by absolute values are the operations on integers.
-/
namespace Diode.L4
open Diode.Core

namespace Instruction

def unop : Instruction → Option (Word → Word)
  | .ISZERO => some fun x => if x.toNat = 0 then 1 else 0
  | .NOT => some fun x => BitVec.ofNat 256 (2 ^ 256 - 1 - x.toNat)
  | _ => none

/-- Division by zero is zero. A shift to the right rounds downwards, a signed division towards
zero. The sign is extended from the byte `x`, counted from the lowest. -/
def binop : Instruction → Option (Word → Word → Word)
  | .ADD => some fun x y => BitVec.ofNat 256 (x.toNat + y.toNat)
  | .MUL => some fun x y => BitVec.ofNat 256 (x.toNat * y.toNat)
  | .SUB => some fun x y => BitVec.ofInt 256 (x.toNat - y.toNat)
  | .DIV => some fun x y => BitVec.ofNat 256 (x.toNat / y.toNat)
  | .SDIV => some fun x y => BitVec.ofInt 256 (x.toInt.tdiv y.toInt)
  | .MOD => some fun x y => if y.toNat = 0 then 0 else BitVec.ofNat 256 (x.toNat % y.toNat)
  | .SMOD => some fun x y => if y.toNat = 0 then 0 else BitVec.ofInt 256 (x.toInt.tmod y.toInt)
  | .EXP => some fun x y => BitVec.ofNat 256 (x.toNat ^ y.toNat)
  | .SIGNEXTEND => some fun x y => if x.toNat < 31 then BitVec.ofInt 256 (Int.bmod y.toNat (2 ^ (8 * x.toNat + 8))) else y
  | .LT => some fun x y => if x.toNat < y.toNat then 1 else 0
  | .GT => some fun x y => if y.toNat < x.toNat then 1 else 0
  | .SLT => some fun x y => if x.toInt < y.toInt then 1 else 0
  | .SGT => some fun x y => if y.toInt < x.toInt then 1 else 0
  | .EQ => some fun x y => if x.toNat = y.toNat then 1 else 0
  | .AND => some fun x y => BitVec.ofNat 256 (x.toNat &&& y.toNat)
  | .OR => some fun x y => BitVec.ofNat 256 (x.toNat ||| y.toNat)
  | .XOR => some fun x y => BitVec.ofNat 256 (x.toNat ^^^ y.toNat)
  | .BYTE => some fun x y => if x.toNat < 32 then BitVec.ofNat 256 (y.toNat / 256 ^ (31 - x.toNat) % 256) else 0
  | .SHL => some fun x y => BitVec.ofNat 256 (y.toNat * 2 ^ x.toNat)
  | .SHR => some fun x y => BitVec.ofNat 256 (y.toNat / 2 ^ x.toNat)
  | .SAR => some fun x y => BitVec.ofInt 256 (y.toInt / 2 ^ x.toNat)
  | _ => none

/-- The sum and the product are taken before the remainder. -/
def ternop : Instruction → Option (Word → Word → Word → Word)
  | .ADDMOD => some fun x y z => if z.toNat = 0 then 0 else BitVec.ofNat 256 ((x.toNat + y.toNat) % z.toNat)
  | .MULMOD => some fun x y z => if z.toNat = 0 then 0 else BitVec.ofNat 256 (x.toNat * y.toNat % z.toNat)
  | _ => none

end Instruction

namespace VM

variable (x y z : Word)

theorem toNat_eq_zero : x.toNat = 0 ↔ x = 0 := ⟨fun h => BitVec.eq_of_toNat_eq h, fun h => by rw [h]; rfl⟩

theorem DIV_eq : DIV x y = BitVec.ofNat 256 (x.toNat / y.toNat) := by
  unfold DIV
  split
  · apply BitVec.eq_of_toNat_eq
    rw [BitVec.toNat_udiv, BitVec.toNat_ofNat, Nat.mod_eq_of_lt (Nat.lt_of_le_of_lt (Nat.div_le_self ..) x.isLt)]
  · next h =>
    rw [not_not.1 h]
    simp

theorem MOD_eq : MOD x y = if y.toNat = 0 then 0 else BitVec.ofNat 256 (x.toNat % y.toNat) := by
  unfold MOD
  by_cases h : y = 0
  · rw [if_neg (not_not.2 h), if_pos ((toNat_eq_zero y).2 h)]
  · rw [if_pos h, if_neg (mt (toNat_eq_zero y).1 h)]
    apply BitVec.eq_of_toNat_eq
    rw [BitVec.toNat_umod, BitVec.toNat_ofNat, Nat.mod_eq_of_lt (Nat.lt_of_le_of_lt (Nat.mod_le ..) x.isLt)]

theorem SDIV_eq : SDIV x y = BitVec.ofInt 256 (x.toInt.tdiv y.toInt) := by
  unfold SDIV
  split
  · rw [Intx.sdivrem_eq]
    apply BitVec.eq_of_toInt_eq
    rw [BitVec.toInt_sdiv, BitVec.toInt_ofInt]
  · next h =>
    rw [not_not.1 h]
    simp

theorem SMOD_eq : SMOD x y = if y.toNat = 0 then 0 else BitVec.ofInt 256 (x.toInt.tmod y.toInt) := by
  unfold SMOD
  by_cases h : y = 0
  · rw [if_neg (not_not.2 h), if_pos ((toNat_eq_zero y).2 h)]
  · rw [if_pos h, if_neg (mt (toNat_eq_zero y).1 h), Intx.sdivrem_eq]
    rw [← BitVec.toInt_srem, BitVec.ofInt_toInt]

theorem sign_bit : x >>> 255 ≠ 0 ↔ x.toInt < 0 := by
  have hlt := x.isLt
  have hshift : x >>> 255 = 0 ↔ x.toNat / 2 ^ 255 = 0 := by
    rw [← toNat_eq_zero, BitVec.toNat_ushiftRight, Nat.shiftRight_eq_div_pow]
  rw [ne_eq, hshift, BitVec.toInt_eq_toNat_cond]
  split <;> omega

theorem SLT_eq : SLT x y = if x.toInt < y.toInt then 1 else 0 := by
  have hx := x.isLt
  have hy := y.isLt
  unfold SLT flag
  simp only [sign_bit, BitVec.lt_def]
  simp only [BitVec.toInt_eq_toNat_cond]
  split <;> split <;> grind

theorem SGT_eq : SGT x y = if y.toInt < x.toInt then 1 else 0 := by
  have hx := x.isLt
  have hy := y.isLt
  unfold SGT flag
  simp only [sign_bit, GT.gt, BitVec.lt_def]
  simp only [BitVec.toInt_eq_toNat_cond]
  split <;> split <;> grind

theorem BYTE_eq : BYTE x y = if x.toNat < 32 then BitVec.ofNat 256 (y.toNat / 256 ^ (31 - x.toNat) % 256) else 0 := by
  unfold BYTE
  split
  · apply BitVec.eq_of_toNat_eq
    rw [BitVec.toNat_and, BitVec.toNat_ushiftRight, Nat.shiftRight_eq_div_pow, BitVec.toNat_ofNat, Nat.pow_mul,
      show (0xFF : Word).toNat = 2 ^ 8 - 1 from rfl, Nat.and_two_pow_sub_one_eq_mod, Nat.mod_eq_of_lt (a := _ % 256)]
    exact Nat.lt_trans (Nat.mod_lt _ (by decide)) (by decide)
  · rfl

theorem SHL_eq : SHL x y = BitVec.ofNat 256 (y.toNat * 2 ^ x.toNat) := by
  unfold SHL
  apply BitVec.eq_of_toNat_eq
  split
  · next h =>
    rw [BitVec.toNat_ofNat, Nat.mod_eq_zero_of_dvd (Dvd.dvd.mul_left (Nat.pow_dvd_pow 2 h) _)]
    rfl
  · rw [BitVec.toNat_shiftLeft, Nat.shiftLeft_eq, BitVec.toNat_ofNat]

theorem SHR_eq : SHR x y = BitVec.ofNat 256 (y.toNat / 2 ^ x.toNat) := by
  unfold SHR
  apply BitVec.eq_of_toNat_eq
  rw [BitVec.toNat_ofNat, Nat.mod_eq_of_lt (Nat.lt_of_le_of_lt (Nat.div_le_self ..) y.isLt)]
  split
  · next h =>
    rw [Nat.div_eq_of_lt (Nat.lt_of_lt_of_le y.isLt (Nat.pow_le_pow_right (by decide) h))]
    rfl
  · rw [BitVec.toNat_ushiftRight, Nat.shiftRight_eq_div_pow]

theorem SAR_eq : SAR x y = BitVec.ofInt 256 (y.toInt / 2 ^ x.toNat) := by
  have hsign : (y &&& (1#256 <<< 255) ≠ 0) ↔ y.msb = true := Intx.and_sign_mask y
  have hsar : SAR x y = y.sshiftRight x.toNat := by
    have hones : ∀ i < 256, (~~~0#256).getLsbD i = true := fun i hi => by
      rw [BitVec.getLsbD_not, BitVec.getLsbD_zero, decide_eq_true hi]
      rfl
    unfold SAR
    simp only [hsign]
    generalize ~~~0#256 = ones at hones
    apply BitVec.eq_of_getLsbD_eq
    intro i hi
    rw [BitVec.getLsbD_sshiftRight, decide_eq_false (by omega : ¬256 ≤ i)]
    have hfill : ¬256 ≤ x.toNat → (ones <<< (256 - x.toNat)).getLsbD i = decide (256 ≤ x.toNat + i) := by
      intro h
      rw [BitVec.getLsbD_shiftLeft, decide_eq_true hi, hones _ (by omega)]
      by_cases hx : 256 ≤ x.toNat + i <;> simp [hx] <;> omega
    have hpast : 256 ≤ x.toNat + i → y.getLsbD (x.toNat + i) = false := BitVec.getLsbD_of_ge y _
    clear hsign
    -- each bit is a bit of the word or its sign
    cases hy : y.msb with
    | false =>
      split
      · simp
        omega
      · by_cases hin : x.toNat + i < 256
        · simp [hin]
        · simp [hin, hpast (by omega)]
    | true =>
      split
      · simp [hones i hi]
        omega
      · next h =>
        by_cases hin : x.toNat + i < 256
        · simp [hfill h, hin, Nat.not_le.2 hin]
        · simp [hfill h, hin, Nat.not_lt.1 hin]
  rw [hsar, BitVec.sshiftRight_eq, Int.shiftRight_eq_div_pow]
  rfl

theorem getLsbD_mask {t : Nat} (ht : t < 256) (i : Nat) : ((1#256 <<< t) - 1).getLsbD i = decide (i < t) := by
  have hpow : 2 ^ t < 2 ^ 256 := Nat.pow_lt_pow_right (by decide) ht
  have hnat : ((1#256 <<< t) - 1).toNat = 2 ^ t - 1 := by
    have hone : (1#256 <<< t).toNat = 2 ^ t := by
      rw [BitVec.toNat_shiftLeft, Nat.shiftLeft_eq, Nat.mod_eq_of_lt] <;> simp
      exact hpow
    rw [BitVec.toNat_sub_of_le (by rw [BitVec.le_def, hone]; exact Nat.one_le_two_pow), hone]
    rfl
  rw [← BitVec.testBit_toNat, hnat, Nat.testBit_two_pow_sub_one]

theorem signextend_eq {x y : Word} (hx : x.toNat < 31) :
    signextend x y = BitVec.ofInt 256 (Int.bmod y.toNat (2 ^ (8 * x.toNat + 8))) := by
  have hext : signextend x y = (y.setWidth (8 * x.toNat + 8)).signExtend 256 := by
    have hsign : (y &&& (1#256 <<< (x.toNat * 8 + 7)) ≠ 0) ↔ y.getLsbD (x.toNat * 8 + 7) = true := by
      have hpow : 1#256 <<< (x.toNat * 8 + 7) = BitVec.twoPow 256 (x.toNat * 8 + 7) := rfl
      have hlt : 2 ^ (x.toNat * 8 + 7) % 2 ^ 256 = 2 ^ (x.toNat * 8 + 7) :=
        Nat.mod_eq_of_lt (Nat.pow_lt_pow_right (by decide) (by omega))
      rw [hpow, BitVec.and_twoPow, ne_eq, ← toNat_eq_zero]
      split
      · next h =>
        rw [h, BitVec.toNat_twoPow, hlt]
        exact iff_of_true (Nat.two_pow_pos _).ne' rfl
      · next h => simpa using h
    unfold signextend
    simp only [hsign]
    apply BitVec.eq_of_getLsbD_eq
    intro i hi
    have hmsb : (y.setWidth (8 * x.toNat + 8)).msb = y.getLsbD (x.toNat * 8 + 7) := by
      rw [BitVec.msb_eq_getLsbD_last, BitVec.getLsbD_setWidth]
      simp [Nat.mul_comm]
    rw [BitVec.getLsbD_signExtend, hmsb, BitVec.getLsbD_setWidth]
    have htop : i = x.toNat * 8 + 7 → y.getLsbD i = y.getLsbD (x.toNat * 8 + 7) := fun h => by rw [h]
    have hlow : decide (i < 8 * x.toNat + 8) = (decide (i < x.toNat * 8 + 7) || decide (i = x.toNat * 8 + 7)) := by
      rw [← Bool.decide_or]
      congr 1
      exact propext (by omega)
    split
    · next h =>
      rw [BitVec.getLsbD_or, BitVec.getLsbD_not, getLsbD_mask (by omega)]
      simp [hlow, hi]
      grind
    · next h =>
      rw [BitVec.getLsbD_and, getLsbD_mask (by omega)]
      simp [hlow, hi]
      grind
  rw [hext]
  apply BitVec.eq_of_toInt_eq
  rw [BitVec.toInt_signExtend_of_le (by omega), BitVec.toInt_setWidth, BitVec.toInt_ofInt]
  have hpos : 0 < 2 ^ (8 * x.toNat + 8) := Nat.two_pow_pos _
  have hge := Int.le_bmod (x := (y.toNat : Int)) hpos
  have hlt := Int.bmod_lt (x := (y.toNat : Int)) hpos
  have hsmall : 2 ^ (8 * x.toNat + 8) ≤ 2 ^ 255 := Nat.pow_le_pow_right (by decide) (by omega)
  generalize 2 ^ (8 * x.toNat + 8) = m at *
  generalize Int.bmod y.toNat m = r at *
  rw [Int.bmod_eq_of_le] <;> omega

/-! ## The table -/

/-- What is computed is what is meant. -/
theorem some_binop {f g : Word → Word → Word} (h : ∀ x y, g x y = f x y) : some f = some g :=
  congrArg some (funext₂ fun x y => (h x y).symm)

theorem ofNat_toNat {x : Word} {n : Nat} (h : x.toNat = n % 2 ^ 256) : x = BitVec.ofNat 256 n :=
  BitVec.eq_of_toNat_eq (h.trans (BitVec.toNat_ofNat ..).symm)

theorem binop_ADD : Instruction.binop .ADD = some fun x y => x + y :=
  some_binop fun x y => ofNat_toNat (BitVec.toNat_add x y)

theorem binop_MUL : Instruction.binop .MUL = some fun x y => x * y :=
  some_binop fun x y => ofNat_toNat (BitVec.toNat_mul x y)

theorem binop_SUB : Instruction.binop .SUB = some fun x y => x - y :=
  some_binop fun x y => by
    apply BitVec.eq_of_toNat_eq
    have hx := x.isLt
    have hy := y.isLt
    rw [BitVec.toNat_sub, BitVec.toNat_ofInt]
    omega

theorem binop_EXP : Instruction.binop .EXP = some Intx.exp :=
  some_binop fun x y => ofNat_toNat (Intx.exp_toNat x y)

theorem binop_SIGNEXTEND :
    Instruction.binop .SIGNEXTEND = some fun x y => if x.toNat < 31 then signextend x y else y :=
  some_binop fun x y => by
    split
    · next h => exact signextend_eq h
    · rfl

theorem flag_eq {p : Prop} [Decidable p] {q : Prop} [Decidable q] (h : p ↔ q) :
    flag (decide p) = if q then 1 else 0 := by
  unfold flag
  by_cases hp : p
  · rw [decide_eq_true hp, if_pos (h.1 hp), if_pos rfl]
  · rw [decide_eq_false hp, if_neg (mt h.2 hp), if_neg (by decide)]

theorem unop_ISZERO : Instruction.unop .ISZERO = some fun x => flag (x = 0) :=
  congrArg some (funext fun x => (flag_eq (toNat_eq_zero x).symm).symm)

theorem unop_NOT : Instruction.unop .NOT = some fun x => ~~~x :=
  congrArg some (funext fun x => by
    apply BitVec.eq_of_toNat_eq
    rw [BitVec.toNat_not, BitVec.toNat_ofNat, Nat.mod_eq_of_lt]
    omega)

theorem binop_LT : Instruction.binop .LT = some fun x y => flag (x < y) := some_binop fun _ _ => flag_eq BitVec.lt_def

theorem binop_GT : Instruction.binop .GT = some fun x y => flag (x > y) := some_binop fun _ _ => flag_eq BitVec.lt_def

theorem binop_EQ : Instruction.binop .EQ = some fun x y => flag (x = y) :=
  some_binop fun _ _ => flag_eq BitVec.toNat_inj.symm

theorem binop_AND : Instruction.binop .AND = some fun x y => x &&& y :=
  some_binop fun x y => ofNat_toNat (by rw [BitVec.toNat_and, Nat.mod_eq_of_lt (Nat.lt_of_le_of_lt Nat.and_le_left x.isLt)])

theorem binop_OR : Instruction.binop .OR = some fun x y => x ||| y :=
  some_binop fun x y => ofNat_toNat (by rw [BitVec.toNat_or, Nat.mod_eq_of_lt (Nat.or_lt_two_pow x.isLt y.isLt)])

theorem binop_XOR : Instruction.binop .XOR = some fun x y => x ^^^ y :=
  some_binop fun x y => ofNat_toNat (by rw [BitVec.toNat_xor, Nat.mod_eq_of_lt (Nat.xor_lt_two_pow x.isLt y.isLt)])

theorem ternop_ADDMOD : Instruction.ternop .ADDMOD = some ADDMOD :=
  congrArg some (funext fun x => funext₂ fun y z => by
    unfold ADDMOD
    by_cases h : z = 0
    · rw [if_pos ((toNat_eq_zero z).2 h), if_neg (not_not.2 h)]
    · rw [if_neg (mt (toNat_eq_zero z).1 h), if_pos h]
      exact (ofNat_toNat (Intx.addmod_toNat x y z)).symm)

theorem ternop_MULMOD : Instruction.ternop .MULMOD = some MULMOD :=
  congrArg some (funext fun x => funext₂ fun y z => by
    unfold MULMOD
    by_cases h : z = 0
    · rw [if_pos ((toNat_eq_zero z).2 h), if_neg (not_not.2 h)]
    · rw [if_neg (mt (toNat_eq_zero z).1 h), if_pos h]
      exact (ofNat_toNat (Intx.mulmod_toNat x y z)).symm)

end VM
end Diode.L4
