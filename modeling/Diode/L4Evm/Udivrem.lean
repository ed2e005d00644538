import Diode.L4Evm.Division
import Diode.L4Evm.VM

/-!
# Division

Division without signs as the interpreter's integer library computes it, for numbers of
any length: both are shifted until the divisor's highest bit is set, the number of the
divisor's words chooses the way, and the remainder is shifted back.

* `udivrem_spec`: the quotient and the remainder of every number by every other.
* `udivrem_bits`: so the division of `BitVec` is the library's.
-/
namespace Diode.L4.Intx
open Diode.Core

/-! ## Shifts of rows -/

theorem pow_split {s : ℕ} (hs : s ≤ 64) : 2 ^ 64 = 2 ^ (64 - s) * 2 ^ s := by
  rw [← pow_add, Nat.sub_add_cancel hs]

/-- A word and what comes in from its neighbour do not overlap. -/
theorem toNat_shl_or {s : ℕ} (hs : s ≤ 64) (a b : BitVec 64) :
    (a <<< s ||| b >>> (64 - s)).toNat = a.toNat % 2 ^ (64 - s) * 2 ^ s + b.toNat / 2 ^ (64 - s) := by
  have hb : b.toNat / 2 ^ (64 - s) < 2 ^ s := by
    rw [Nat.div_lt_iff_lt_mul (by positivity), Nat.mul_comm, ← pow_split hs]
    exact b.isLt
  rw [BitVec.toNat_or, BitVec.toNat_shiftLeft, BitVec.toNat_ushiftRight, Nat.shiftRight_eq_div_pow, Nat.shiftLeft_eq]
  conv_lhs => rw [pow_split hs, Nat.mul_mod_mul_right, ← Nat.shiftLeft_eq]
  rw [← Nat.shiftLeft_add_eq_or_of_lt hb, Nat.shiftLeft_eq]

/-- mirrors evm/intx/div.hpp:47-49 and 52-54 -/
def shl_word (s : ℕ) (u : ℕ → BitVec 64) (i : ℕ) : BitVec 64 :=
  if i = 0 then u 0 <<< s else u i <<< s ||| u (i - 1) >>> (64 - s)

/-- mirrors evm/intx/div.cpp:172-173 -/
def shr_word (s : ℕ) (u : ℕ → BitVec 64) (i : ℕ) : BitVec 64 :=
  if s ≠ 0 then u i >>> s ||| u (i + 1) <<< (64 - s) else u i

section
variable {s : ℕ}

theorem toNat_shl_zero (hs : s ≤ 64) (a : BitVec 64) : (a <<< s).toNat = a.toNat % 2 ^ (64 - s) * 2 ^ s := by
  have h := toNat_shl_or hs a 0#64
  rwa [BitVec.zero_ushiftRight, BitVec.or_zero, BitVec.toNat_zero, Nat.zero_div, Nat.add_zero] at h

theorem shl_cut (hs : s ≤ 64) (x : ℕ) : x * 2 ^ s = x % 2 ^ (64 - s) * 2 ^ s + 2 ^ 64 * (x / 2 ^ (64 - s)) := by
  conv_lhs => rw [← Nat.mod_add_div x (2 ^ (64 - s))]
  rw [pow_split hs]
  ring

/-- Nothing is lost of a row that is shifted up: its highest bits are the next word. -/
theorem num_shl_word (hs : s ≤ 64) (u : ℕ → BitVec 64) (k : ℕ) :
    num (shl_word s u) (k + 1) + (2 ^ 64) ^ (k + 1) * (u k >>> (64 - s)).toNat = num u (k + 1) * 2 ^ s := by
  have h := @valueOf_carry (2 ^ 64) (k + 1) (fun i => (u i).toNat * 2 ^ s) (fun i => (shl_word s u i).toNat)
    (fun i => if i = 0 then 0 else (u (i - 1)).toNat / 2 ^ (64 - s)) fun i _ => by
      rw [if_neg (Nat.succ_ne_zero i), Nat.add_sub_cancel, shl_cut hs (u i).toNat]
      rcases i with - | i
      · rw [if_pos rfl, shl_word, if_pos rfl, toNat_shl_zero hs, Nat.add_zero]
      · rw [if_neg (Nat.succ_ne_zero i), shl_word, if_neg (Nat.succ_ne_zero i), toNat_shl_or hs, Nat.add_sub_cancel]
        omega
  rw [if_pos rfl, if_neg (Nat.succ_ne_zero k), Nat.add_sub_cancel, Nat.add_zero, valueOf_mul] at h
  rw [toNat_shr]
  exact h.symm

/-- A row is shifted down by its lowest bits. -/
theorem num_shr_word (hs : s < 64) (u : ℕ → BitVec 64) (n : ℕ) (hu : u n = 0#64) :
    num (shr_word s u) n = num u n / 2 ^ s := by
  have h := @valueOf_carry (2 ^ 64) n (fun i => (shr_word s u i).toNat * 2 ^ s) (fun i => (u i).toNat)
    (fun i => (u i).toNat % 2 ^ s) fun i _ => by
      rcases Nat.eq_zero_or_pos s with rfl | hpos
      · rw [shr_word, if_neg (by simp), pow_zero, Nat.mod_one, Nat.mod_one, Nat.mul_one, Nat.mul_zero]
      · have hback : 64 - (64 - s) = s := by omega
        have hor := toNat_shl_or (show 64 - s ≤ 64 by omega) (u (i + 1)) (u i)
        rw [hback] at hor
        rw [shr_word, if_pos hpos.ne', BitVec.or_comm, hor, pow_split hs.le]
        conv_rhs => rw [← Nat.div_add_mod' (u i).toNat (2 ^ s)]
        ring
  rw [hu, BitVec.toNat_zero, Nat.zero_mod, Nat.mul_zero, Nat.add_zero, valueOf_mul] at h
  have hlow : (u 0).toNat % 2 ^ s < 2 ^ s := Nat.mod_lt _ (by positivity)
  symm
  refine Nat.div_eq_of_lt_le ?_ ?_
  · rw [num, num, ← h]
    exact Nat.le_add_right ..
  · rw [num, num, ← h, Nat.succ_mul]
    exact Nat.add_lt_add_left hlow _

/-- mirrors evm/intx/int128.hpp:240-250 -/
def uint128.shr (x : uint128) (shift : ℕ) : uint128 :=
  if shift < 64 then ⟨x.hi >>> shift, x.lo >>> shift ||| x.hi <<< 1 <<< (63 - shift)⟩
  else if shift < 128 then ⟨0#64, x.hi >>> (shift - 64)⟩ else ⟨0#64, 0#64⟩

theorem uint128.shr_toNat (hs : s < 64) (x : uint128) : (x.shr s).toNat = x.toNat / 2 ^ s := by
  have hor := toNat_shl_or (show 64 - s ≤ 64 by omega) x.hi x.lo
  rw [show 64 - (64 - s) = s by omega] at hor
  have hshl : x.hi <<< 1 <<< (63 - s) = x.hi <<< (64 - s) := by
    rw [← BitVec.shiftLeft_add, show 1 + (63 - s) = 64 - s by omega]
  rw [uint128.shr, if_pos hs, uint128.toNat_mk, hshl, BitVec.or_comm, hor, toNat_shr, uint128.toNat]
  have hx : x.hi.toNat * 2 ^ 64 + x.lo.toNat = x.lo.toNat + 2 ^ s * (x.hi.toNat * 2 ^ (64 - s)) := by
    rw [pow_split hs.le]
    ring
  rw [hx, Nat.add_mul_div_left _ _ (by positivity)]
  conv_rhs => rw [← Nat.mod_add_div x.hi.toNat (2 ^ s)]
  rw [pow_split hs.le]
  ring

end

/-! ## Normalization -/

/-- mirrors evm/intx/div.hpp:36-42 -/
def count_words (u : ℕ → BitVec 64) : ℕ → ℕ
  | 0 => 0
  | m + 1 => if u m = 0#64 then count_words u m else m + 1

/-- `normalized_div_args`, evm/intx/div.hpp:11-20; the word after the numerator's is
`numerator_ex`. -/
structure normalized_div_args where
  denominator : ℕ → BitVec 64
  numerator : ℕ → BitVec 64
  num_denominator_words : ℕ
  num_numerator_words : ℕ
  shift : ℕ

/-- mirrors evm/intx/div.hpp:22-66 -/
def normalize (num_words : ℕ) (u v : ℕ → BitVec 64) : normalized_div_args :=
  let m := count_words u num_words
  let n := count_words v num_words
  let shift := (v (n - 1)).clz.toNat
  if shift ≠ 0 then
    { denominator := shl_word shift v
      numerator := Function.update (shl_word shift u) num_words (u (num_words - 1) >>> (64 - shift))
      num_denominator_words := n, num_numerator_words := m, shift }
  else
    { denominator := v, numerator := Function.update u num_words 0#64
      num_denominator_words := n, num_numerator_words := m, shift }

section
variable {w : ℕ} {u v : ℕ → BitVec 64}

theorem count_words_le (u : ℕ → BitVec 64) (w : ℕ) : count_words u w ≤ w := by
  induction w with
  | zero => exact Nat.le_refl 0
  | succ w ih =>
    rw [count_words]
    split <;> omega

theorem count_words_zero (u : ℕ → BitVec 64) (w : ℕ) : ∀ i, count_words u w ≤ i → i < w → u i = 0#64 := by
  induction w with
  | zero => intro i _ hi; omega
  | succ w ih =>
    intro i hi hiw
    rw [count_words] at hi
    split at hi
    · next h0 =>
      rcases Nat.lt_succ_iff_lt_or_eq.1 hiw with hlt | rfl
      · exact ih i hi hlt
      · exact h0
    · omega

theorem count_words_top (u : ℕ → BitVec 64) (w : ℕ) : count_words u w ≠ 0 → u (count_words u w - 1) ≠ 0#64 := by
  induction w with
  | zero => intro h; exact absurd rfl h
  | succ w ih =>
    rw [count_words]
    split
    · exact ih
    · next h0 => exact fun _ => h0

theorem num_count (u : ℕ → BitVec 64) (w : ℕ) : num u w = num u (count_words u w) :=
  valueOf_zeros (count_words_le u w) fun i hi hle => by rw [count_words_zero u w i hle hi]; rfl

theorem num_mono (u : ℕ → BitVec 64) {n : ℕ} (h : 0 < n) : (u (n - 1)).toNat * (2 ^ 64) ^ (n - 1) ≤ num u n := by
  obtain ⟨k, rfl⟩ : ∃ k, n = k + 1 := ⟨n - 1, by omega⟩
  rw [num_succ]
  exact Nat.le_add_left ..

/-- The shift puts the highest bit of the highest word in place. -/
theorem clz_spec {x : BitVec 64} (hx : x ≠ 0#64) :
    x.clz.toNat < 64 ∧ 2 ^ 63 ≤ x.toNat * 2 ^ x.clz.toNat ∧ x.toNat * 2 ^ x.clz.toNat < 2 ^ 64 := by
  have hlo := BitVec.two_pow_sub_clz_le_toNat_of_ne_zero (by omega) hx
  have hhi : x.toNat < 2 ^ (64 - x.clz.toNat) := BitVec.toNat_lt_two_pow_sub_clz
  have hlt : x.clz.toNat < 64 := by
    by_contra hge
    rw [Nat.sub_eq_zero_of_le (by omega), pow_zero] at hhi
    exact hx (BitVec.eq_of_toNat_eq (by rw [BitVec.toNat_zero]; omega))
  refine ⟨hlt, ?_, ?_⟩
  · calc 2 ^ 63 = 2 ^ (64 - 1 - x.clz.toNat) * 2 ^ x.clz.toNat := by rw [← pow_add]; congr 1; omega
      _ ≤ _ := Nat.mul_le_mul_right _ hlo
  · rw [pow_split hlt.le]
    exact Nat.mul_lt_mul_of_pos_right hhi (by positivity)

/-- What division relies on: both numbers are shifted alike, and the divisor's highest
bit is set. -/
structure Normalized (w : ℕ) (u v : ℕ → BitVec 64) (na : normalized_div_args) : Prop where
  pos : 0 < na.num_denominator_words
  le : na.num_denominator_words ≤ w
  num_le : na.num_numerator_words ≤ w
  shift_lt : na.shift < 64
  high : 2 ^ 63 ≤ (na.denominator (na.num_denominator_words - 1)).toNat
  denominator : num na.denominator na.num_denominator_words = num v w * 2 ^ na.shift
  less : na.num_numerator_words < na.num_denominator_words → num u w < num v w
  numerator : na.num_denominator_words ≤ na.num_numerator_words →
    num na.numerator (na.num_numerator_words + 1) = num u w * 2 ^ na.shift
  ex_lt : na.num_denominator_words ≤ na.num_numerator_words → (na.numerator na.num_numerator_words).toNat < 2 ^ 63
  zeros : ∀ i, na.num_numerator_words < i → i ≤ w → na.numerator i = 0#64

theorem normalize_shift (w : ℕ) (u v : ℕ → BitVec 64) :
    (normalize w u v).shift = (v (count_words v w - 1)).clz.toNat ∧
      (normalize w u v).num_denominator_words = count_words v w ∧
      (normalize w u v).num_numerator_words = count_words u w := by
  rw [normalize]
  split <;> exact ⟨rfl, rfl, rfl⟩

theorem shl_word_zero (u : ℕ → BitVec 64) : shl_word 0 u = u := by
  funext i
  rw [shl_word]
  split
  · next h => rw [BitVec.shiftLeft_zero, h]
  · refine BitVec.eq_of_toNat_eq ?_
    have := (u (i - 1)).isLt
    rw [toNat_shl_or (by omega), Nat.div_eq_of_lt (by omega), pow_zero, Nat.mul_one, Nat.add_zero]
    exact Nat.mod_eq_of_lt (u i).isLt

theorem word_out (a : BitVec 64) : a >>> (64 - 0) = 0#64 :=
  BitVec.eq_of_toNat_eq (by rw [toNat_shr, Nat.div_eq_of_lt a.isLt]; rfl)

/-- No shift is a shift by nothing. -/
theorem normalize_eq (w : ℕ) (u v : ℕ → BitVec 64) :
    (normalize w u v).denominator = shl_word (normalize w u v).shift v ∧
      (normalize w u v).numerator =
        Function.update (shl_word (normalize w u v).shift u) w (u (w - 1) >>> (64 - (normalize w u v).shift)) := by
  rw [normalize]
  split
  · exact ⟨rfl, rfl⟩
  · next h =>
    rw [not_not] at h
    dsimp only
    rw [h, shl_word_zero, shl_word_zero, word_out]
    exact ⟨rfl, rfl⟩

theorem shl_word_out {s i : ℕ} (hi : i ≠ 0) (h : u i = 0#64) : shl_word s u i = u (i - 1) >>> (64 - s) := by
  rw [shl_word, if_neg hi, h, BitVec.zero_shiftLeft, BitVec.zero_or]

theorem normalize_spec (hv : num v w ≠ 0) : Normalized w u v (normalize w u v) := by
  obtain ⟨hs, hn, hm⟩ := normalize_shift w u v
  obtain ⟨hden, hnum⟩ := normalize_eq w u v
  generalize normalize w u v = na at hs hn hm hden hnum ⊢
  have hpos : 0 < count_words v w := by
    refine Nat.pos_of_ne_zero fun h0 => hv ?_
    rw [num_count, h0]
    rfl
  obtain ⟨n, hn'⟩ : ∃ n, count_words v w = n + 1 := ⟨count_words v w - 1, by omega⟩
  have htop := count_words_top v w (by omega)
  have hvw := num_count v w
  have huw := num_count u w
  have hvle := count_words_le v w
  have hule := count_words_le u w
  rw [hn', Nat.add_sub_cancel] at hs htop
  rw [hn'] at hn hvw hvle
  obtain ⟨hlt, hhigh, hfit⟩ := clz_spec htop
  rw [← hs] at hlt hhigh hfit
  have hlt' : (v n).toNat < 2 ^ (64 - na.shift) := by
    refine Nat.lt_of_mul_lt_mul_right (a := 2 ^ na.shift) ?_
    rwa [← pow_split hlt.le]
  have hnumer : count_words u w ≠ 0 → na.numerator (count_words u w) = u (count_words u w - 1) >>> (64 - na.shift) := by
    intro h0
    rw [hnum]
    rcases Nat.eq_or_lt_of_le hule with heq | hlt
    · rw [heq, Function.update_self]
    · rw [Function.update_of_ne hlt.ne]
      exact shl_word_out h0 (count_words_zero u w _ (Nat.le_refl _) hlt)
  refine ⟨by omega, by omega, by omega, hlt, ?_, ?_, fun hless => ?_, fun hle => ?_, fun hle => ?_, fun i hi hiw => ?_⟩
  · rw [hn, Nat.add_sub_cancel, hden, shl_word]
    split
    · next h0 =>
      subst h0
      rw [toNat_shl_zero hlt.le, Nat.mod_eq_of_lt hlt']
      exact hhigh
    · rw [toNat_shl_or hlt.le, Nat.mod_eq_of_lt hlt']
      exact Nat.le_trans hhigh (Nat.le_add_right ..)
  · have h := num_shl_word hlt.le v n
    rw [toNat_shr, Nat.div_eq_of_lt hlt', Nat.mul_zero, Nat.add_zero] at h
    rw [hn, hden, h, hvw]
  · have h1 := num_lt u (count_words u w)
    have h2 := num_mono v (show 0 < n + 1 by omega)
    rw [Nat.add_sub_cancel] at h2
    have h3 : 0 < (v n).toNat := Nat.pos_of_ne_zero fun h0 => htop (BitVec.eq_of_toNat_eq h0)
    have h4 : (2 ^ 64) ^ count_words u w ≤ (2 ^ 64) ^ n := Nat.pow_le_pow_right (by positivity) (by omega)
    have h5 := Nat.le_mul_of_pos_left ((2 ^ 64) ^ n) h3
    omega
  · obtain ⟨k, hk⟩ : ∃ k, count_words u w = k + 1 := ⟨count_words u w - 1, by omega⟩
    have h := num_shl_word hlt.le u k
    have hex := hnumer (by omega)
    rw [hk, Nat.add_sub_cancel] at hex
    rw [hm, hk, num_succ, hex, huw, hk, ← h, Nat.mul_comm ((u k >>> (64 - na.shift)).toNat)]
    congr 1
    rw [hnum]
    exact valueOf_congr fun i hi => by rw [Function.update_of_ne (by omega)]
  · rw [hm, hnumer (by omega), toNat_shr]
    refine Nat.lt_of_lt_of_le ((Nat.div_lt_iff_lt_mul (by positivity)).2 ?_) (Nat.le_refl _)
    have hone : 2 ^ 1 ≤ 2 ^ (64 - na.shift) := Nat.pow_le_pow_right (by omega) (by omega)
    have := (u (count_words u w - 1)).isLt
    calc (u (count_words u w - 1)).toNat < 2 ^ 63 * 2 ^ 1 := by omega
      _ ≤ _ := Nat.mul_le_mul_left _ hone
  · rw [hm] at hi
    rw [hnum]
    rcases Nat.eq_or_lt_of_le hiw with rfl | hlt
    · rw [Function.update_self, count_words_zero u i (i - 1) (by omega) (by omega), BitVec.zero_ushiftRight]
    · rw [Function.update_of_ne hlt.ne, shl_word_out (by omega) (count_words_zero u w i (by omega) hlt),
        count_words_zero u w (i - 1) (by omega) (by omega), BitVec.zero_ushiftRight]

end

/-! ## The division -/

/-- A row of one word. -/
def word_row (x : BitVec 64) (i : ℕ) : BitVec 64 := if i = 0 then x else 0#64

/-- A row of two. -/
def pair_row (x : uint128) (i : ℕ) : BitVec 64 := if i = 0 then x.lo else if i = 1 then x.hi else 0#64

/-- mirrors evm/intx/div.cpp:139-176 -/
def udivrem (num_words : ℕ) (u v : ℕ → BitVec 64) : (ℕ → BitVec 64) × (ℕ → BitVec 64) :=
  let na := normalize num_words u v
  let n := na.num_denominator_words
  let m := na.num_numerator_words
  if n > m then (fun _ => 0#64, u)
  else if n = 1 then
    let r := udivrem_by1 na.numerator m (na.denominator 0)
    (r.1, word_row (r.2 >>> na.shift))
  else if n = 2 then
    let r := udivrem_by2 na.numerator m ⟨na.denominator 1, na.denominator 0⟩
    (r.1, pair_row (r.2.shr na.shift))
  else
    let r := udivrem_knuth (fun _ => 0#64) na.numerator m na.denominator n
    (r.1, fun i => if i < n then shr_word na.shift r.2 i else 0#64)

section
variable {w : ℕ} {u v : ℕ → BitVec 64}

theorem num_one (u : ℕ → BitVec 64) : num u 1 = (u 0).toNat := by
  rw [num_succ, pow_zero, Nat.mul_one, num, valueOf_zero, Nat.zero_add]

theorem num_two (u : ℕ → BitVec 64) : num u 2 = (uint128.mk (u 1) (u 0)).toNat := by
  rw [num_succ, num_one, uint128.toNat_mk, pow_one, Nat.add_comm]

theorem num_zeros {u : ℕ → BitVec 64} {k n : ℕ} (h : k ≤ n) (hz : ∀ i, k ≤ i → i < n → u i = 0#64) : num u n = num u k :=
  valueOf_zeros h fun i hi hle => by rw [hz i hle hi]; rfl

theorem num_word_row (x : BitVec 64) (hw : 1 ≤ w) : num (word_row x) w = x.toNat := by
  rw [num_zeros hw fun i hi _ => by rw [word_row, if_neg (by omega)], num_one]
  rfl

theorem num_pair_row (x : uint128) (hw : 2 ≤ w) : num (pair_row x) w = x.toNat := by
  rw [num_zeros hw fun i hi _ => by rw [pair_row, if_neg (by omega), if_neg (by omega)], num_two]
  rfl

/-- A number that fits has nothing in the words above. -/
theorem num_fit {u : ℕ → BitVec 64} {w k x : ℕ} (hk : k ≤ w) (hz : ∀ i, k < i → i ≤ w → u i = 0#64)
    (h : num u (k + 1) = x) (hx : x < (2 ^ 64) ^ w) : num u w = x := by
  have hall : num u (w + 1) = x :=
    (num_zeros (by omega) fun i hi hiw => hz i (by omega) (by omega)).trans h
  rw [num_succ] at hall
  rw [← Nat.mod_eq_of_lt hx, ← hall, Nat.add_mul_mod_self_right, Nat.mod_eq_of_lt (num_lt u w)]

/-- **Division of numbers of any length.** -/
theorem udivrem_spec (hv : num v w ≠ 0) :
    num (udivrem w u v).1 w = num u w / num v w ∧ num (udivrem w u v).2 w = num u w % num v w := by
  have hna := @normalize_spec w u v hv
  rw [udivrem]
  generalize normalize w u v = na at hna ⊢
  obtain ⟨hpos, hle, hmle, hshift, hhigh, hden, hless, hnum, hex, hzeros⟩ := hna
  have hscale : 0 < 2 ^ na.shift := by positivity
  have hfit : num u w / num v w < (2 ^ 64) ^ w := Nat.lt_of_le_of_lt (Nat.div_le_self ..) (num_lt u w)
  split
  · next hlt =>
    have h := hless hlt
    rw [Nat.div_eq_of_lt h, Nat.mod_eq_of_lt h]
    exact ⟨num_zeros (Nat.zero_le w) fun _ _ _ => rfl, rfl⟩
  next hnm =>
  have hnm : na.num_denominator_words ≤ na.num_numerator_words := by omega
  have hnum := hnum hnm
  have hex := hex hnm
  have hdiv : num u w * 2 ^ na.shift / (num v w * 2 ^ na.shift) = num u w / num v w := Nat.mul_div_mul_right _ _ hscale
  have hmod : num u w * 2 ^ na.shift % (num v w * 2 ^ na.shift) = num u w % num v w * 2 ^ na.shift :=
    Nat.mul_mod_mul_right ..
  split
  · next h1 =>
    rw [h1] at hhigh hden
    rw [num_one] at hden
    obtain ⟨hq, hr, hframe⟩ := udivrem_by1_spec na.numerator na.num_numerator_words (na.denominator 0) hhigh
      (Nat.lt_of_lt_of_le hex hhigh)
    rw [hnum, hden] at hq hr
    rw [hdiv] at hq
    rw [hmod] at hr
    refine ⟨num_fit hmle (fun i hi hiw => ?_) hq hfit, ?_⟩
    · rw [hframe i hi, hzeros i hi hiw]
    · rw [num_word_row _ (by omega), toNat_shr, hr, Nat.mul_div_cancel _ hscale]
  split
  · next h1 h2 =>
    rw [h2] at hhigh hden
    rw [num_two] at hden
    obtain ⟨hq, hr, hframe⟩ := udivrem_by2_spec na.numerator na.num_numerator_words
      ⟨na.denominator 1, na.denominator 0⟩ (by omega) hhigh (Nat.lt_of_lt_of_le hex hhigh)
    rw [hnum, hden] at hq hr
    rw [hdiv] at hq
    rw [hmod] at hr
    refine ⟨num_fit hmle (fun i hi hiw => ?_) hq hfit, ?_⟩
    · rw [hframe i hi, hzeros i hi hiw]
    · rw [num_pair_row _ (by omega), uint128.shr_toNat hshift, hr, Nat.mul_div_cancel _ hscale]
  · next h1 h2 =>
    obtain ⟨hq, hr, hzero, hframe⟩ := udivrem_knuth_spec (fun _ => 0#64) na.numerator na.num_numerator_words
      na.denominator na.num_denominator_words (by omega) hnm hhigh (Nat.lt_of_lt_of_le hex hhigh)
    rw [hnum, hden] at hq hr
    rw [hdiv] at hq
    rw [hmod] at hr
    constructor
    · rw [num_zeros (k := na.num_numerator_words - na.num_denominator_words + 1) (by omega) fun i hi _ => hframe i hi]
      exact hq
    · rw [num_zeros hle fun i hi _ => if_neg (by omega)]
      have hcut : ∀ i < na.num_denominator_words, ((if i < na.num_denominator_words then
          shr_word na.shift (udivrem_knuth (fun _ => 0#64) na.numerator na.num_numerator_words na.denominator
            na.num_denominator_words).2 i else 0#64) : BitVec 64).toNat = _ := fun i hi => by rw [if_pos hi]
      rw [num, valueOf_congr hcut]
      exact (num_shr_word hshift _ _ (hzero _ (Nat.le_refl _) (by omega))).trans (by rw [hr, Nat.mul_div_cancel _ hscale])

end

/-! ## The interpreter's numbers -/

/-- The words of a number, the lowest first. mirrors evm/intx/intx.hpp:425-435 -/
def as_words {k : ℕ} (x : BitVec k) (i : ℕ) : BitVec 64 := BitVec.ofNat 64 (x.toNat / (2 ^ 64) ^ i)

/-- The number of `w` words. -/
def of_words {k : ℕ} (w : ℕ) (u : ℕ → BitVec 64) : BitVec k := BitVec.ofNat k (num u w)

theorem num_as_words {k w : ℕ} (hk : k = 64 * w) (x : BitVec k) : num (as_words x) w = x.toNat := by
  have hx : x.toNat < (2 ^ 64) ^ w := by
    rw [← pow_mul, ← hk]
    exact x.isLt
  have h := valueOf_digits (2 ^ 64) x.toNat w
  rw [Nat.mod_eq_of_lt hx] at h
  rw [← h]
  exact valueOf_congr fun i _ => BitVec.toNat_ofNat ..

theorem num_as_words_ne {k w : ℕ} (hk : k = 64 * w) {v : BitVec k} (hv : v ≠ 0#k) : num (as_words v) w ≠ 0 := by
  rw [num_as_words hk]
  exact fun h0 => hv (BitVec.eq_of_toNat_eq (by rw [h0, BitVec.toNat_zero]))

theorem quotient_as_words {k w : ℕ} (hk : k = 64 * w) (u : BitVec k) {v : BitVec k} (hv : v ≠ 0#k) :
    of_words w (udivrem w (as_words u) (as_words v)).1 = u / v := by
  have hq := (udivrem_spec (u := as_words u) (num_as_words_ne hk hv)).1
  rw [num_as_words hk, num_as_words hk] at hq
  rw [of_words, hq, ← BitVec.toNat_udiv, BitVec.ofNat_toNat, BitVec.setWidth_eq]

theorem remainder_as_words {k w : ℕ} (hk : k = 64 * w) (u : BitVec k) {v : BitVec k} (hv : v ≠ 0#k) :
    of_words w (udivrem w (as_words u) (as_words v)).2 = u % v := by
  have hr := (udivrem_spec (u := as_words u) (num_as_words_ne hk hv)).2
  rw [num_as_words hk, num_as_words hk] at hr
  rw [of_words, hr, ← BitVec.toNat_umod, BitVec.ofNat_toNat, BitVec.setWidth_eq]

/-- The division of `BitVec` is the library's, for numbers of any number of words. -/
theorem udivrem_bits {k w : ℕ} (hk : k = 64 * w) (u v : BitVec k) (hv : v ≠ 0#k) :
    of_words w (udivrem w (as_words u) (as_words v)).1 = u / v ∧
      of_words w (udivrem w (as_words u) (as_words v)).2 = u % v :=
  ⟨quotient_as_words hk u hv, remainder_as_words hk u hv⟩

/-- A divisor of three words, for which Knuth's method is taken. -/
theorem udivrem_bits_knuth :
    let u : BitVec 256 := 0x80000000000000000000000000000000fffffffffffffffe0000000000000001#256
    let v : BitVec 256 := 0x00000000000000008000000000000000ffffffffffffffff0000000000000003#256
    (normalize 4 (as_words u) (as_words v)).num_denominator_words = 3 ∧
      (normalize 4 (as_words u) (as_words v)).num_numerator_words = 4 ∧
      of_words 4 (udivrem 4 (as_words u) (as_words v)).1 = u / v ∧
      of_words 4 (udivrem 4 (as_words u) (as_words v)).2 = u % v :=
  ⟨by decide +kernel, by decide +kernel, udivrem_bits (show 256 = 64 * 4 from rfl) _ _ (by decide)⟩

end Diode.L4.Intx

namespace Diode.L4.VM
open Diode.Core

/-- `DIV` as the library computes it. -/
theorem DIV_udivrem (x y : Word) :
    DIV x y = if y ≠ 0 then Intx.of_words 4 (Intx.udivrem 4 (Intx.as_words x) (Intx.as_words y)).1 else 0 := by
  rw [DIV]
  by_cases hy : y = 0
  · rw [if_neg (not_not.2 hy), if_neg (not_not.2 hy)]
  · rw [if_pos hy, if_pos hy]
    exact (Intx.quotient_as_words (show 256 = 64 * 4 from rfl) x hy).symm

/-- `MOD` as the library computes it. -/
theorem MOD_udivrem (x y : Word) :
    MOD x y = if y ≠ 0 then Intx.of_words 4 (Intx.udivrem 4 (Intx.as_words x) (Intx.as_words y)).2 else 0 := by
  unfold MOD
  by_cases hy : y = 0
  · rw [if_neg (not_not.2 hy), if_neg (not_not.2 hy)]
  · rw [if_pos hy, if_pos hy]
    exact (Intx.remainder_as_words (show 256 = 64 * 4 from rfl) x hy).symm

end Diode.L4.VM
