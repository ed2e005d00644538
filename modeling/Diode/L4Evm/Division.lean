import Diode.L4Evm.Reciprocal

/-!
# Division of long numbers

The division of the interpreter's integer library on rows of words, lowest word
first: by one word, by two, and by more with one guessed digit of the quotient at a
time, which is corrected by adding the divisor back when too much was taken away.

* `udivrem_by1_spec`, `udivrem_by2_spec`, `udivrem_knuth_spec`: each leaves the
  quotient and the remainder, for numbers of any length.
-/
namespace Diode.L4.Intx
open Diode.Core

/-- A row of words as a number. -/
abbrev num (u : ℕ → BitVec 64) (n : ℕ) : ℕ := valueOf (2 ^ 64) (fun i => (u i).toNat) n

theorem shift_in (x l c r b : ℕ) : x + l * c + c * b * r = x + c * (r * b + l) := by ring

theorem two_in (x l h c b : ℕ) : x + l * c + h * (c * b) = x + c * (h * b + l) := by ring

theorem num_lt (u : ℕ → BitVec 64) (n : ℕ) : num u n < (2 ^ 64) ^ n := valueOf_lt fun i _ => (u i).isLt

/-- The next word comes in below the remainder. -/
theorem num_shift_in (u : ℕ → BitVec 64) (j r : ℕ) :
    num u (j + 1) + (2 ^ 64) ^ (j + 1) * r = num u j + (2 ^ 64) ^ j * (r * 2 ^ 64 + (u j).toNat) := by
  rw [num, valueOf_succ, pow_succ]
  exact shift_in ..

theorem num_update {u : ℕ → BitVec 64} {n i : ℕ} {w : BitVec 64} (h : n ≤ i) : num (Function.update u i w) n = num u n :=
  valueOf_congr fun k hk => by rw [Function.update_of_ne (by omega)]

/-! ## By one word -/

/-- mirrors evm/intx/div.cpp:24-29; the rounds `j - 1` down to 0. -/
def by1_loop (d v : BitVec 64) : ℕ → (ℕ → BitVec 64) × BitVec 64 → (ℕ → BitVec 64) × BitVec 64
  | 0, s => s
  | j + 1, s =>
    let x := udivrem_2by1 ⟨s.2, s.1 j⟩ d v
    by1_loop d v j (Function.update s.1 j x.1, x.2)

/-- mirrors evm/intx/div.cpp:17-32: the numerator's row becomes the quotient's. -/
def udivrem_by1 (u : ℕ → BitVec 64) (m : ℕ) (d : BitVec 64) : (ℕ → BitVec 64) × BitVec 64 :=
  let v := reciprocal_2by1 d
  let r := u m
  by1_loop d v m (Function.update u m 0#64, r)

section
variable {d v r : BitVec 64} {u : ℕ → BitVec 64}

theorem by1_loop_spec (hd : 2 ^ 63 ≤ d.toNat) (hv : IsReciprocal (2 ^ 64) ((2 ^ 64) ^ 2) d.toNat v.toNat) (j : ℕ)
    (hr : r.toNat < d.toNat) :
    num (by1_loop d v j (u, r)).1 j = (num u j + (2 ^ 64) ^ j * r.toNat) / d.toNat ∧
      (by1_loop d v j (u, r)).2.toNat = (num u j + (2 ^ 64) ^ j * r.toNat) % d.toNat ∧
      ∀ i, j ≤ i → (by1_loop d v j (u, r)).1 i = u i := by
  have hdpos : 0 < d.toNat := by omega
  induction j generalizing u r with
  | zero =>
    rw [by1_loop, pow_zero, Nat.one_mul]
    refine ⟨?_, ?_, fun _ _ => rfl⟩
    · simp only [num, valueOf_zero, Nat.zero_add]
      exact (Nat.div_eq_of_lt hr).symm
    · simp only [num, valueOf_zero, Nat.zero_add]
      exact (Nat.mod_eq_of_lt hr).symm
  | succ j ih =>
    obtain ⟨x, hx⟩ : ∃ x, x = udivrem_2by1 ⟨r, u j⟩ d v := ⟨_, rfl⟩
    obtain ⟨hq, hrem⟩ := udivrem_2by1_spec (u := ⟨r, u j⟩) hd hv hr
    rw [← hx] at hq hrem
    rw [uint128.toNat_mk] at hq hrem
    have hlt : x.2.toNat < d.toNat := by rw [hrem]; exact Nat.mod_lt _ hdpos
    obtain ⟨h1, h2, h3⟩ := ih (u := Function.update u j x.1) hlt
    rw [num_update (Nat.le_refl j)] at h1 h2
    have heq : by1_loop d v (j + 1) (u, r) = by1_loop d v j (Function.update u j x.1, x.2) := by
      rw [by1_loop, ← hx]
    obtain ⟨e1, e2⟩ := long_div (num u j) ((2 ^ 64) ^ j) (r.toNat * 2 ^ 64 + (u j).toNat) d.toNat hdpos
    rw [heq, num_shift_in, e1, e2, ← hq, ← hrem, ← h1, ← h2]
    refine ⟨?_, rfl, fun i hi => ?_⟩
    · rw [num, valueOf_succ, h3 j (Nat.le_refl j), Function.update_self, Nat.add_comm, Nat.mul_comm]
    · rw [h3 i (by omega), Function.update_of_ne (by omega)]

/-- **Division by one word.** -/
theorem udivrem_by1_spec (u : ℕ → BitVec 64) (m : ℕ) (d : BitVec 64) (hd : 2 ^ 63 ≤ d.toNat)
    (hu : (u m).toNat < d.toNat) :
    num (udivrem_by1 u m d).1 (m + 1) = num u (m + 1) / d.toNat ∧
      (udivrem_by1 u m d).2.toNat = num u (m + 1) % d.toNat ∧ ∀ i, m < i → (udivrem_by1 u m d).1 i = u i := by
  obtain ⟨h1, h2, h3⟩ := by1_loop_spec (u := Function.update u m 0#64) hd (reciprocal_2by1_spec hd) m hu
  rw [num_update (Nat.le_refl m)] at h1 h2
  have hnum : num u (m + 1) = num u m + (2 ^ 64) ^ m * (u m).toNat := by rw [num, valueOf_succ, Nat.mul_comm]
  refine ⟨?_, ?_, fun i hi => ?_⟩
  · rw [hnum, ← h1, num, valueOf_succ]
    change _ + ((by1_loop _ _ _ _).1 m).toNat * _ = _
    rw [h3 m (Nat.le_refl m), Function.update_self, BitVec.toNat_zero, Nat.zero_mul]
    rfl
  · rw [hnum, ← h2]
    rfl
  · exact (h3 i hi.le).trans (Function.update_of_ne (by omega) ..)

end

/-! ## By two words -/

/-- mirrors evm/intx/div.cpp:47-52 -/
def by2_loop (d : uint128) (v : BitVec 64) : ℕ → (ℕ → BitVec 64) × uint128 → (ℕ → BitVec 64) × uint128
  | 0, s => s
  | j + 1, s =>
    let x := udivrem_3by2 s.2.hi s.2.lo (s.1 j) d v
    by2_loop d v j (Function.update s.1 j x.1.lo, x.2)

/-- mirrors evm/intx/div.cpp:40-55 -/
def udivrem_by2 (u : ℕ → BitVec 64) (m : ℕ) (d : uint128) : (ℕ → BitVec 64) × uint128 :=
  let v := reciprocal_3by2 d
  let r : uint128 := ⟨u m, u (m - 1)⟩
  by2_loop d v (m - 1) (Function.update (Function.update u m 0#64) (m - 1) 0#64, r)

section
variable {d r : uint128} {v : BitVec 64} {u : ℕ → BitVec 64}

theorem by2_loop_spec (hd : 2 ^ 63 ≤ d.hi.toNat) (hv : IsReciprocal (2 ^ 64) ((2 ^ 64) ^ 3) d.toNat v.toNat) (j : ℕ)
    (hr : r.toNat < d.toNat) :
    num (by2_loop d v j (u, r)).1 j = (num u j + (2 ^ 64) ^ j * r.toNat) / d.toNat ∧
      (by2_loop d v j (u, r)).2.toNat = (num u j + (2 ^ 64) ^ j * r.toNat) % d.toNat ∧
      ∀ i, j ≤ i → (by2_loop d v j (u, r)).1 i = u i := by
  have hdpos : 0 < d.toNat := by omega
  induction j generalizing u r with
  | zero =>
    rw [by2_loop, pow_zero, Nat.one_mul]
    refine ⟨?_, ?_, fun _ _ => rfl⟩
    · simp only [num, valueOf_zero, Nat.zero_add]
      exact (Nat.div_eq_of_lt hr).symm
    · simp only [num, valueOf_zero, Nat.zero_add]
      exact (Nat.mod_eq_of_lt hr).symm
  | succ j ih =>
    obtain ⟨x, hx⟩ : ∃ x, x = udivrem_3by2 r.hi r.lo (u j) d v := ⟨_, rfl⟩
    obtain ⟨hq, hrem⟩ := @udivrem_3by2_spec _ _ (u j) _ _ hd hv hr
    rw [← hx] at hq hrem
    change x.1.toNat = (r.toNat * 2 ^ 64 + (u j).toNat) / d.toNat at hq
    change x.2.toNat = (r.toNat * 2 ^ 64 + (u j).toNat) % d.toNat at hrem
    have hlt : x.2.toNat < d.toNat := by rw [hrem]; exact Nat.mod_lt _ hdpos
    have hlo : x.1.lo.toNat = x.1.toNat := by
      have hj := (u j).isLt
      have hdig : x.1.toNat < 2 ^ 64 := by
        rw [hq, Nat.div_lt_iff_lt_mul hdpos]
        omega
      rw [uint128.lo_toNat, Nat.mod_eq_of_lt hdig]
    obtain ⟨h1, h2, h3⟩ := ih (u := Function.update u j x.1.lo) hlt
    rw [num_update (Nat.le_refl j)] at h1 h2
    have heq : by2_loop d v (j + 1) (u, r) = by2_loop d v j (Function.update u j x.1.lo, x.2) := by
      rw [by2_loop, ← hx]
    obtain ⟨e1, e2⟩ := long_div (num u j) ((2 ^ 64) ^ j) (r.toNat * 2 ^ 64 + (u j).toNat) d.toNat hdpos
    rw [heq, num_shift_in, e1, e2, ← hq, ← hrem, ← h1, ← h2, ← hlo]
    refine ⟨?_, rfl, fun i hi => ?_⟩
    · rw [num, valueOf_succ, h3 j (Nat.le_refl j), Function.update_self, Nat.add_comm, Nat.mul_comm]
    · rw [h3 i (by omega), Function.update_of_ne (by omega)]

/-- **Division by two words.** -/
theorem udivrem_by2_spec (u : ℕ → BitVec 64) (m : ℕ) (d : uint128) (hm : 0 < m) (hd : 2 ^ 63 ≤ d.hi.toNat)
    (hu : (u m).toNat < d.hi.toNat) :
    num (udivrem_by2 u m d).1 (m + 1) = num u (m + 1) / d.toNat ∧
      (udivrem_by2 u m d).2.toNat = num u (m + 1) % d.toNat ∧ ∀ i, m < i → (udivrem_by2 u m d).1 i = u i := by
  obtain ⟨k, rfl⟩ : ∃ k, m = k + 1 := ⟨m - 1, by omega⟩
  have hr : (uint128.mk (u (k + 1)) (u k)).toNat < d.toNat := by
    have := (u k).isLt
    rw [uint128.toNat_mk, uint128.toNat]
    omega
  obtain ⟨h1, h2, h3⟩ := by2_loop_spec (u := Function.update (Function.update u (k + 1) 0#64) k 0#64) hd
    (reciprocal_3by2_spec hd) k hr
  rw [num_update (Nat.le_refl k), num_update (Nat.le_succ k)] at h1 h2
  have hnum : num u (k + 1 + 1) = num u k + (2 ^ 64) ^ k * (uint128.mk (u (k + 1)) (u k)).toNat := by
    rw [num, valueOf_succ, valueOf_succ, uint128.toNat_mk, pow_succ]
    exact two_in ..
  have heq : udivrem_by2 u (k + 1) d = by2_loop d (reciprocal_3by2 d) k
      (Function.update (Function.update u (k + 1) 0#64) k 0#64, ⟨u (k + 1), u k⟩) := rfl
  rw [heq, hnum, ← h1, ← h2]
  refine ⟨?_, rfl, fun i hi => ?_⟩
  · rw [num, valueOf_succ, valueOf_succ, h3 (k + 1) (Nat.le_succ k), h3 k (Nat.le_refl k), Function.update_self,
      Function.update_of_ne (by omega), Function.update_self, BitVec.toNat_zero, Nat.zero_mul, Nat.zero_mul]
    rfl
  · rw [h3 i (by omega), Function.update_of_ne (by omega), Function.update_of_ne (by omega)]

end

/-! ## By more words -/

/-- The guess. mirrors evm/intx/div.cpp:67-97 -/
def trial_digit (u2 u1 u0 : BitVec 64) (divisor : uint128) (reciprocal : BitVec 64) : BitVec 64 :=
  let dividend : uint128 := ⟨u2, u1⟩
  if dividend.hi ≥ divisor.hi then
    let qhat := ~~~0#64
    let rhat := dividend - ⟨divisor.hi, 0#64⟩ + ⟨0#64, divisor.hi⟩
    if rhat.hi = 0#64 ∧ ¬ umul qhat divisor.lo ≤ ⟨rhat.lo, u0⟩ then qhat - 1#64 else qhat
  else
    let res := udivrem_2by1 dividend divisor.hi reciprocal
    let qhat := res.1
    let rhat : uint128 := ⟨0#64, res.2⟩
    if ¬ umul qhat divisor.lo ≤ ⟨rhat.lo, u0⟩ then
      let qhat := qhat - 1#64
      let rhat := rhat + ⟨0#64, divisor.hi⟩
      if rhat.hi = 0#64 ∧ ¬ umul qhat divisor.lo ≤ ⟨rhat.lo, u0⟩ then qhat - 1#64 else qhat
    else qhat

/-- mirrors evm/intx/div.cpp:100-107, after `i` rounds. -/
def mul_sub (qhat : BitVec 64) (vn : ℕ → BitVec 64) (j : ℕ) (un : ℕ → BitVec 64) : ℕ → (ℕ → BitVec 64) × BitVec 64
  | 0 => (un, 0#64)
  | i + 1 =>
    let prev := mul_sub qhat vn j un i
    let p := umul qhat (vn i)
    let s := (⟨0#64, prev.1 (i + j)⟩ : uint128) - ⟨0#64, prev.2⟩ - ⟨0#64, p.lo⟩
    (Function.update prev.1 (i + j) s.lo, p.hi - s.hi)

/-- mirrors evm/intx/div.cpp:114-120, after `i` rounds. -/
def add_back (vn : ℕ → BitVec 64) (j : ℕ) (un : ℕ → BitVec 64) : ℕ → (ℕ → BitVec 64) × BitVec 64
  | 0 => (un, 0#64)
  | i + 1 =>
    let prev := add_back vn j un i
    let s := (⟨0#64, prev.1 (i + j)⟩ : uint128) + ⟨0#64, vn i⟩ + ⟨0#64, prev.2⟩
    (Function.update prev.1 (i + j) s.lo, s.hi)

/-- A round of the loop. mirrors evm/intx/div.cpp:61-134 -/
def knuth_round (vn : ℕ → BitVec 64) (n : ℕ) (divisor : uint128) (reciprocal : BitVec 64) (j : ℕ)
    (q un : ℕ → BitVec 64) : (ℕ → BitVec 64) × (ℕ → BitVec 64) :=
  let u2 := un (j + n)
  let qhat := trial_digit u2 (un (j + n - 1)) (un (j + n - 2)) divisor reciprocal
  let taken := mul_sub qhat vn j un n
  let un := Function.update taken.1 (j + n) (u2 - taken.2)
  if u2 < taken.2 then
    let given := add_back vn j un n
    (Function.update q j (qhat - 1#64), Function.update given.1 (j + n) (given.1 (j + n) + given.2))
  else (Function.update q j qhat, un)

def knuth_loop (vn : ℕ → BitVec 64) (n : ℕ) (divisor : uint128) (reciprocal : BitVec 64) :
    ℕ → (ℕ → BitVec 64) × (ℕ → BitVec 64) → (ℕ → BitVec 64) × (ℕ → BitVec 64)
  | 0, s => s
  | j + 1, s => knuth_loop vn n divisor reciprocal j (knuth_round vn n divisor reciprocal j s.1 s.2)

/-- The rows of the quotient and of the numerator, which becomes the remainder.
mirrors evm/intx/div.cpp:57-135 -/
def udivrem_knuth (q un : ℕ → BitVec 64) (m : ℕ) (vn : ℕ → BitVec 64) (n : ℕ) :
    (ℕ → BitVec 64) × (ℕ → BitVec 64) :=
  let divisor : uint128 := ⟨vn (n - 1), vn (n - 2)⟩
  let reciprocal := reciprocal_2by1 divisor.hi
  knuth_loop vn n divisor reciprocal (m - n + 1) (q, un)

/-! ### The guess -/

theorem umul_le {a b c l : BitVec 64} : umul a b ≤ ⟨c, l⟩ ↔ a.toNat * b.toNat ≤ c.toNat * 2 ^ 64 + l.toNat := by
  rw [uint128.le_iff, umul_toNat, uint128.toNat_mk]

theorem toNat_ones : (~~~0#64).toNat = 2 ^ 64 - 1 := by decide

theorem toNat_pred {q : BitVec 64} (h : 0 < q.toNat) : (q - 1#64).toNat = q.toNat - 1 := by
  have := q.isLt
  rw [BitVec.toNat_sub]
  simp only [BitVec.toNat_ofNat]
  omega

section
variable {u2 u1 u0 v1 v0 rc : BitVec 64}

/-- The test of a guess `q` whose remainder may be longer than a word: then the guess is
not too large. -/
theorem trial_guard {q r x : ℕ} {rhat : uint128} (hr : rhat.toNat = r) (hq : q < 2 ^ 64) (hx : q * v1.toNat + r = x) :
    rhat.hi = 0#64 ∧ ¬ q * v0.toNat ≤ rhat.lo.toNat * 2 ^ 64 + u0.toNat ↔
      x * 2 ^ 64 + u0.toNat < q * (v1.toNat * 2 ^ 64 + v0.toNat) := by
  have hv0 := v0.isLt
  have hlo := rhat.lo.isLt
  have hmax : q * v0.toNat ≤ (2 ^ 64 - 1) * (2 ^ 64 - 1) := Nat.mul_le_mul (by omega) (by omega)
  have hsum : rhat.hi.toNat * 2 ^ 64 + rhat.lo.toNat = r := hr
  rw [← trial_test hx, ← BitVec.toNat_inj, BitVec.toNat_zero, Nat.not_le]
  generalize q * v0.toNat = y at *
  omega

theorem trial_digit_high (h : v1.toNat = u2.toNat) :
    (trial_digit u2 u1 u0 ⟨v1, v0⟩ rc).toNat =
      if (v1.toNat * 2 ^ 64 + u1.toNat) * 2 ^ 64 + u0.toNat < (2 ^ 64 - 1) * (v1.toNat * 2 ^ 64 + v0.toNat)
      then 2 ^ 64 - 2 else 2 ^ 64 - 1 := by
  have h1 := v1.isLt
  have hu1 := u1.isLt
  have hr : ((⟨u2, u1⟩ : uint128) - ⟨v1, 0#64⟩ + ⟨0#64, v1⟩).toNat = u1.toNat + v1.toNat := by
    rw [uint128.toNat_add, uint128.toNat_sub, uint128.toNat_mk, uint128.toNat_mk, uint128.toNat_mk, BitVec.toNat_zero]
    omega
  have hguard := @trial_guard u0 v1 v0 (2 ^ 64 - 1) _ (v1.toNat * 2 ^ 64 + u1.toNat) _ hr (by omega) (by omega)
  rw [trial_digit]
  dsimp only
  rw [if_pos (by rw [ge_iff_le, BitVec.le_def]; omega)]
  split
  · next hc =>
    rw [umul_le, toNat_ones] at hc
    rw [if_pos (hguard.1 hc), toNat_pred (by rw [toNat_ones]; omega), toNat_ones]
    omega
  · next hc =>
    rw [umul_le, toNat_ones] at hc
    rw [if_neg (fun hn => hc (hguard.2 hn)), toNat_ones]

theorem trial_digit_low (hv : 2 ^ 63 ≤ v1.toNat) (hrc : IsReciprocal (2 ^ 64) ((2 ^ 64) ^ 2) v1.toNat rc.toNat)
    (h : u2.toNat < v1.toNat) :
    (trial_digit u2 u1 u0 ⟨v1, v0⟩ rc).toNat =
      ((u2.toNat * 2 ^ 64 + u1.toNat) * 2 ^ 64 + u0.toNat) / (v1.toNat * 2 ^ 64 + v0.toNat) := by
  have hu0 := u0.isLt
  have hv0 := v0.isLt
  obtain ⟨res, hres⟩ : ∃ res, res = udivrem_2by1 ⟨u2, u1⟩ v1 rc := ⟨_, rfl⟩
  obtain ⟨hq, hrem⟩ := udivrem_2by1_spec (u := ⟨u2, u1⟩) hv hrc h
  rw [← hres, uint128.toNat_mk] at hq hrem
  have hqr : res.1.toNat * v1.toNat + res.2.toNat = u2.toNat * 2 ^ 64 + u1.toNat := by
    rw [hq, hrem, Nat.div_add_mod']
  have hr : res.2.toNat < v1.toNat := by rw [hrem]; exact Nat.mod_lt _ (by omega)
  have hqlt := res.1.isLt
  obtain ⟨hlo, hhi⟩ := trial_bounds (by omega) hv0 hqlt hqr hr hu0
  have hdiv := trial_eq hlo hhi
  have hfirst := @trial_guard u0 v1 v0 _ _ _ ⟨0#64, res.2⟩ (by rw [uint128.toNat_mk]; simp) hqlt hqr
  rw [eq_self_iff_true, true_and] at hfirst
  rw [trial_digit]
  dsimp only
  rw [if_neg (by rw [ge_iff_le, BitVec.le_def]; omega), ← hres, hdiv]
  split
  · next hc =>
    rw [umul_le] at hc
    rw [if_pos (hfirst.1 hc)]
    have hpos : 0 < res.1.toNat := by
      refine Nat.pos_of_ne_zero fun h0 => ?_
      rw [h0, Nat.zero_mul] at hc
      omega
    have hsum : ((⟨0#64, res.2⟩ : uint128) + ⟨0#64, v1⟩).toNat = res.2.toNat + v1.toNat := by
      have := v1.isLt
      rw [uint128.toNat_add, uint128.toNat_mk, uint128.toNat_mk, BitVec.toNat_zero]
      omega
    have hqr1 : (res.1.toNat - 1) * v1.toNat + (res.2.toNat + v1.toNat) = u2.toNat * 2 ^ 64 + u1.toNat := by
      rw [← hqr]
      conv_rhs => rw [show res.1.toNat = res.1.toNat - 1 + 1 by omega, Nat.succ_mul]
      omega
    have hsecond := @trial_guard u0 v1 v0 _ _ _ _ hsum (show res.1.toNat - 1 < 2 ^ 64 by omega) hqr1
    split
    · next hc2 =>
      rw [umul_le, toNat_pred hpos] at hc2
      have hpos2 : 0 < (res.1 - 1#64).toNat := by
        refine Nat.pos_of_ne_zero fun h0 => ?_
        rw [toNat_pred hpos] at h0
        rw [h0, Nat.zero_mul] at hc2
        omega
      rw [if_pos (hsecond.1 hc2), toNat_pred hpos2, toNat_pred hpos]
      omega
    · next hc2 =>
      rw [umul_le, toNat_pred hpos] at hc2
      rw [if_neg (fun hn => hc2 (hsecond.2 hn)), toNat_pred hpos]
  · next hc =>
    rw [umul_le] at hc
    rw [if_neg (fun hn => hc (hfirst.2 hn))]

/-- The guess is right or one too large. -/
theorem trial_digit_spec {u v c : ℕ} (hv : 2 ^ 63 ≤ v1.toNat)
    (hrc : IsReciprocal (2 ^ 64) ((2 ^ 64) ^ 2) v1.toNat rc.toNat) (hu : u < v * 2 ^ 64)
    (hulo : ((u2.toNat * 2 ^ 64 + u1.toNat) * 2 ^ 64 + u0.toNat) * c ≤ u)
    (huhi : u < ((u2.toNat * 2 ^ 64 + u1.toNat) * 2 ^ 64 + u0.toNat + 1) * c)
    (hvlo : (v1.toNat * 2 ^ 64 + v0.toNat) * c ≤ v) (hvhi : v < (v1.toNat * 2 ^ 64 + v0.toNat + 1) * c) :
    u / v ≤ (trial_digit u2 u1 u0 ⟨v1, v0⟩ rc).toNat ∧ (trial_digit u2 u1 u0 ⟨v1, v0⟩ rc).toNat ≤ u / v + 1 := by
  have h1 := v1.isLt
  have h0 := v0.isLt
  have hu1 := u1.isLt
  have hcpos : 0 < c := Nat.pos_of_ne_zero (by rintro rfl; omega)
  have hvpos : 0 < v := Nat.lt_of_lt_of_le (Nat.mul_pos (by omega) hcpos) hvlo
  rcases Nat.lt_or_ge u2.toNat v1.toNat with hlt | hge
  · rw [trial_digit_low hv hrc hlt]
    refine ⟨div_le_of_top huhi hvlo (by omega), top_div_le hulo hvhi hvpos ?_⟩
    have : ((u2.toNat * 2 ^ 64 + u1.toNat) * 2 ^ 64 + u0.toNat) / (v1.toNat * 2 ^ 64 + v0.toNat) < 2 ^ 64 := by
      have := u0.isLt
      rw [Nat.div_lt_iff_lt_mul (by omega)]
      omega
    omega
  · have heq : v1.toNat = u2.toNat := by
      by_contra hne
      have h3 : (v1.toNat * 2 ^ 64 + v0.toNat + 1) * 2 ^ 64 ≤ (u2.toNat * 2 ^ 64 + u1.toNat) * 2 ^ 64 + u0.toNat := by
        clear hulo huhi hvlo hvhi hu hvpos hcpos hrc
        omega
      have h4 : v * 2 ^ 64 ≤ (v1.toNat * 2 ^ 64 + v0.toNat + 1) * c * 2 ^ 64 := Nat.mul_le_mul_right _ hvhi.le
      have h5 := Nat.mul_le_mul_right c h3
      rw [Nat.mul_right_comm] at h4
      omega
    rw [trial_digit_high heq]
    exact trial_full (by omega) h1 h0 hu rfl (by rw [heq]; exact hulo) (by rw [heq]; exact huhi) hvlo hvhi

end

/-! ### Multiply and subtract, add back -/

/-- The words from `j` on. -/
abbrev window (u : ℕ → BitVec 64) (j : ℕ) : ℕ → BitVec 64 := fun i => u (i + j)

section
variable {qhat : BitVec 64} {vn un : ℕ → BitVec 64} {j : ℕ}

theorem num_succ (u : ℕ → BitVec 64) (n : ℕ) : num u (n + 1) = num u n + (u n).toNat * (2 ^ 64) ^ n := valueOf_succ

theorem num_window_update {u : ℕ → BitVec 64} {n i : ℕ} {w : BitVec 64} (h : n ≤ i) :
    num (window (Function.update u (i + j) w) j) n = num (window u j) n :=
  valueOf_congr fun k hk => by simp only [window]; rw [Function.update_of_ne (by omega)]

theorem sum_step {n1 q v n0 c r s w a b t : ℕ} (h : n1 + q * v = n0 + c * r) (hs : s + q * w + r = a + b * t) :
    n1 + s * c + q * (v + w * c) = n0 + a * c + c * b * t := by
  zify at *
  linear_combination h + (c : ℤ) * hs

theorem sum_step' {n0 v n1 c r a w s b t : ℕ} (h : n0 + v = n1 + c * r) (hs : a + w + r = s + b * t) :
    n0 + a * c + (v + w * c) = n1 + s * c + c * b * t := by
  zify at *
  linear_combination h + (c : ℤ) * hs

theorem three_in (x l m h c b : ℕ) : x + l * c + m * (c * b) + h * (c * b * b) = x + ((h * b + m) * b + l) * c := by ring

theorem two_in' (x l h c b : ℕ) : x + l * c + h * (c * b) = x + (h * b + l) * c := by ring

theorem mul_sub_spec (n : ℕ) :
    num (window (mul_sub qhat vn j un n).1 j) n + qhat.toNat * num vn n =
        num (window un j) n + (2 ^ 64) ^ n * (mul_sub qhat vn j un n).2.toNat ∧
      (mul_sub qhat vn j un n).2.toNat ≤ qhat.toNat ∧
      ∀ i, i < j ∨ j + n ≤ i → (mul_sub qhat vn j un n).1 i = un i := by
  induction n with
  | zero => exact ⟨by simp [mul_sub, num], Nat.zero_le _, fun _ _ => rfl⟩
  | succ n ih =>
    obtain ⟨⟨un1, borrow⟩, hun1⟩ : ∃ p, p = mul_sub qhat vn j un n := ⟨_, rfl⟩
    rw [← hun1] at ih
    obtain ⟨hsum, hle, hframe⟩ := ih
    dsimp only at hsum hle hframe
    obtain ⟨p, hp⟩ : ∃ p, p = umul qhat (vn n) := ⟨_, rfl⟩
    obtain ⟨s, hs⟩ : ∃ s, s = (⟨0#64, un1 (n + j)⟩ : uint128) - ⟨0#64, borrow⟩ - ⟨0#64, p.lo⟩ := ⟨_, rfl⟩
    have heq : mul_sub qhat vn j un (n + 1) = (Function.update un1 (n + j) s.lo, p.hi - s.hi) := by
      rw [mul_sub, ← hun1]
      subst hs hp
      rfl
    have ha : un1 (n + j) = un (n + j) := hframe _ (.inr (by omega))
    have hstep : s.lo.toNat + qhat.toNat * (vn n).toNat + borrow.toNat =
        (un (n + j)).toNat + 2 ^ 64 * (p.hi - s.hi).toNat ∧ (p.hi - s.hi).toNat ≤ qhat.toNat := by
      have hpn : p.hi.toNat * 2 ^ 64 + p.lo.toNat = qhat.toNat * (vn n).toNat := by rw [← umul_toNat, ← hp]; rfl
      have hmax : qhat.toNat * (vn n).toNat + qhat.toNat ≤ 2 ^ 64 * qhat.toNat := by
        have := Nat.mul_le_mul_left qhat.toNat (show (vn n).toNat + 1 ≤ 2 ^ 64 from (vn n).isLt)
        rwa [Nat.mul_succ, Nat.mul_comm _ (2 ^ 64)] at this
      have hst : s.toNat = (((un (n + j)).toNat + (2 ^ 128 - borrow.toNat)) % 2 ^ 128 + (2 ^ 128 - p.lo.toNat)) % 2 ^ 128 := by
        rw [hs, ha, uint128.toNat_sub, uint128.toNat_sub, uint128.toNat_mk, uint128.toNat_mk, uint128.toNat_mk,
          BitVec.toNat_zero]
        simp only [Nat.zero_mul, Nat.zero_add]
      have h1 := (un (n + j)).isLt
      have h2 := borrow.isLt
      have h3 := p.lo.isLt
      have h4 := p.hi.isLt
      have hqlt := qhat.isLt
      rw [BitVec.toNat_sub, s.hi_toNat, s.lo_toNat, hst]
      rw [← hpn] at hmax ⊢
      omega
    rw [heq]
    refine ⟨?_, hstep.2, fun i hi => ?_⟩
    · rw [num_succ, num_succ vn, num_succ (window un j), num_window_update (Nat.le_refl n)]
      simp only [window]
      rw [Function.update_self, pow_succ]
      exact sum_step hsum hstep.1
    · exact (Function.update_of_ne (by omega) ..).trans (hframe i (by omega))

theorem add_back_spec (n : ℕ) :
    num (window un j) n + num vn n = num (window (add_back vn j un n).1 j) n + (2 ^ 64) ^ n * (add_back vn j un n).2.toNat ∧
      (add_back vn j un n).2.toNat ≤ 1 ∧
      ∀ i, i < j ∨ j + n ≤ i → (add_back vn j un n).1 i = un i := by
  induction n with
  | zero => exact ⟨by simp [add_back, num], Nat.zero_le _, fun _ _ => rfl⟩
  | succ n ih =>
    obtain ⟨⟨un1, carry⟩, hun1⟩ : ∃ p, p = add_back vn j un n := ⟨_, rfl⟩
    rw [← hun1] at ih
    obtain ⟨hsum, hle, hframe⟩ := ih
    dsimp only at hsum hle hframe
    obtain ⟨s, hs⟩ : ∃ s, s = (⟨0#64, un1 (n + j)⟩ : uint128) + ⟨0#64, vn n⟩ + ⟨0#64, carry⟩ := ⟨_, rfl⟩
    have heq : add_back vn j un (n + 1) = (Function.update un1 (n + j) s.lo, s.hi) := by
      rw [add_back, ← hun1]
      subst hs
      rfl
    have ha : un1 (n + j) = un (n + j) := hframe _ (.inr (by omega))
    have hstep : (un (n + j)).toNat + (vn n).toNat + carry.toNat = s.lo.toNat + 2 ^ 64 * s.hi.toNat ∧ s.hi.toNat ≤ 1 := by
      have hst : s.toNat = (un (n + j)).toNat + (vn n).toNat + carry.toNat := by
        have h1 := (un (n + j)).isLt
        have h2 := (vn n).isLt
        rw [hs, ha, uint128.toNat_add, uint128.toNat_add, uint128.toNat_mk, uint128.toNat_mk, uint128.toNat_mk,
          BitVec.toNat_zero]
        omega
      have h1 := (un (n + j)).isLt
      have h2 := (vn n).isLt
      rw [s.hi_toNat, s.lo_toNat, hst]
      omega
    rw [heq]
    refine ⟨?_, hstep.2, fun i hi => ?_⟩
    · rw [num_succ, num_succ vn, num_succ (window (Function.update _ _ _) j), num_window_update (Nat.le_refl n)]
      simp only [window]
      rw [Function.update_self, pow_succ]
      exact sum_step' hsum hstep.1
    · exact (Function.update_of_ne (by omega) ..).trans (hframe i (by omega))

end

/-! ### A round -/

theorem digit_inj {c x y a b : ℕ} (ha : a < c) (hb : b < c) (h : a + c * x = b + c * y) : x = y ∧ a = b := by
  have hc : 0 < c := by omega
  have h1 := (Nat.div_mod_unique hc).2 ⟨h, ha⟩
  have h2 := (Nat.div_mod_unique hc).2 ⟨(rfl : b + c * y = b + c * y), hb⟩
  omega

section
variable {vn : ℕ → BitVec 64} {n j : ℕ} {rc : BitVec 64} {q un : ℕ → BitVec 64}

/-- What a round does to the `n + 1` words of its window: they hold the remainder, and
the quotient has its digit. -/
theorem knuth_round_spec (hn : 2 ≤ n) (hv : 2 ^ 63 ≤ (vn (n - 1)).toNat)
    (hrc : IsReciprocal (2 ^ 64) ((2 ^ 64) ^ 2) (vn (n - 1)).toNat rc.toNat)
    (hlt : num (window un j) (n + 1) < num vn n * 2 ^ 64) :
    ∃ d un', knuth_round vn n ⟨vn (n - 1), vn (n - 2)⟩ rc j q un = (Function.update q j d, un') ∧
      d.toNat = num (window un j) (n + 1) / num vn n ∧ num (window un' j) n = num (window un j) (n + 1) % num vn n ∧
      (un' (j + n)).toNat = 0 ∧ ∀ i, i < j ∨ j + n < i → un' i = un i := by
  obtain ⟨k, rfl⟩ : ∃ k, n = k + 2 := ⟨n - 2, by omega⟩
  rw [show k + 2 - 1 = k + 1 by omega, show k + 2 - 2 = k by omega] at *
  obtain ⟨w, hw⟩ : ∃ w, w = num (window un j) (k + 2 + 1) := ⟨_, rfl⟩
  obtain ⟨v, hvn⟩ : ∃ v, v = num vn (k + 2) := ⟨_, rfl⟩
  rw [← hw, ← hvn] at hlt ⊢
  obtain ⟨c, hc⟩ : ∃ c, c = (2 ^ 64) ^ k := ⟨_, rfl⟩
  have hp1 : (2 ^ 64) ^ (k + 1) = c * 2 ^ 64 := by rw [hc, pow_succ]
  have hp2 : (2 ^ 64) ^ (k + 2) = c * 2 ^ 64 * 2 ^ 64 := by rw [hc, pow_succ, pow_succ]
  have hcut : w = num (window un j) k + (((un (j + (k + 2))).toNat * 2 ^ 64 + (un (j + (k + 1))).toNat) * 2 ^ 64 +
      (un (j + k)).toNat) * c := by
    rw [hw, num_succ, num_succ, num_succ, hp2, hp1, ← hc]
    simp only [window, Nat.add_comm _ j]
    exact three_in ..
  have hvcut : v = num vn k + ((vn (k + 1)).toNat * 2 ^ 64 + (vn k).toNat) * c := by
    rw [hvn, num_succ, num_succ, hp1, ← hc]
    exact two_in' ..
  have hlow : num (window un j) k < c := hc ▸ num_lt ..
  have hvlow : num vn k < c := hc ▸ num_lt ..
  obtain ⟨qhat, hqhat⟩ : ∃ qhat, qhat = trial_digit (un (j + (k + 2))) (un (j + (k + 2) - 1)) (un (j + (k + 2) - 2))
    ⟨vn (k + 1), vn k⟩ rc := ⟨_, rfl⟩
  have hguess : w / v ≤ qhat.toNat ∧ qhat.toNat ≤ w / v + 1 := by
    rw [hqhat, show j + (k + 2) - 1 = j + (k + 1) by omega, show j + (k + 2) - 2 = j + k by omega]
    refine trial_digit_spec (c := c) hv hrc hlt ?_ ?_ ?_ ?_
    · omega
    · rw [Nat.succ_mul]
      omega
    · omega
    · rw [Nat.succ_mul]
      omega
  have hvpos : 0 < v := by
    rw [hvcut]
    have : 0 < ((vn (k + 1)).toNat * 2 ^ 64 + (vn k).toNat) * c := Nat.mul_pos (by omega) (by omega)
    omega
  -- the words of the window without the highest
  obtain ⟨b, hb⟩ : ∃ b, b = (2 ^ 64) ^ (k + 2) := ⟨_, rfl⟩
  have hvb : v < b := by rw [hvn, hb]; exact num_lt ..
  have hwtop : w = num (window un j) (k + 2) + b * (un (j + (k + 2))).toNat := by
    rw [hw, num_succ, hb, Nat.mul_comm ((2 ^ 64) ^ (k + 2))]
    simp only [window, Nat.add_comm _ j]
  obtain ⟨⟨un1, borrow⟩, hun1⟩ : ∃ p, p = mul_sub qhat vn j un (k + 2) := ⟨_, rfl⟩
  obtain ⟨hsub, -, hframe⟩ := @mul_sub_spec qhat vn un j (k + 2)
  rw [← hun1] at hsub hframe
  dsimp only at hsub hframe
  rw [← hb, ← hvn] at hsub
  have hmod := Nat.mod_lt w hvpos
  have hdm := Nat.div_add_mod w v
  have h1lt : num (window un1 j) (k + 2) < b := by rw [hb]; exact num_lt ..
  obtain ⟨un2, hun2⟩ : ∃ un2, un2 = Function.update un1 (j + (k + 2)) (un (j + (k + 2)) - borrow) := ⟨_, rfl⟩
  have hwin2 : num (window un2 j) (k + 2) = num (window un1 j) (k + 2) := by
    rw [hun2, Nat.add_comm j]
    exact num_window_update (Nat.le_refl _)
  have hlow2 : ∀ i, i < j ∨ j + (k + 2) < i → un2 i = un i := fun i hi => by
    rw [hun2, Function.update_of_ne (by omega)]
    exact hframe i (by omega)
  have htop2 : un2 (j + (k + 2)) = un (j + (k + 2)) - borrow := by rw [hun2, Function.update_self]
  have heq : knuth_round vn (k + 2) ⟨vn (k + 1), vn k⟩ rc j q un =
      if un (j + (k + 2)) < borrow then
        (Function.update q j (qhat - 1#64), Function.update (add_back vn j un2 (k + 2)).1 (j + (k + 2))
          ((add_back vn j un2 (k + 2)).1 (j + (k + 2)) + (add_back vn j un2 (k + 2)).2))
      else (Function.update q j qhat, un2) := by
    rw [knuth_round]
    dsimp only
    rw [← hqhat, ← hun1]
    subst hun2
    rfl
  obtain ⟨d, hd⟩ : ∃ d, d = w / v := ⟨_, rfl⟩
  rw [← hd] at hguess hdm ⊢
  have hmul : qhat.toNat = d ∨ qhat.toNat = d + 1 := by omega
  rcases hmul with hq | hq
  · -- the guess is right: nothing is left of the highest word
    rw [hq, Nat.mul_comm] at hsub
    obtain ⟨ht, hr⟩ := @digit_inj b (un (j + (k + 2))).toNat borrow.toNat (num (window un1 j) (k + 2)) (w % v) h1lt
      (by omega) (by omega)
    refine ⟨qhat, un2, ?_, hq, by rw [hwin2, hr], ?_, hlow2⟩
    · rw [heq, if_neg (by rw [BitVec.lt_def]; omega)]
    · rw [htop2, BitVec.toNat_sub, ht]
      have := borrow.isLt
      omega
  · -- it is one too large: the divisor is added back
    obtain ⟨hadd, hcarry, hframe3⟩ := @add_back_spec vn un2 j (k + 2)
    obtain ⟨⟨un3, carry⟩, hun3⟩ : ∃ p, p = add_back vn j un2 (k + 2) := ⟨_, rfl⟩
    rw [← hun3] at hadd hcarry hframe3 heq
    dsimp only at hadd hcarry hframe3 heq
    rw [← hb, ← hvn, hwin2] at hadd
    rw [hq, Nat.succ_mul, Nat.mul_comm] at hsub
    have h3lt : num (window un3 j) (k + 2) < b := by rw [hb]; exact num_lt ..
    obtain ⟨ht, hr⟩ := @digit_inj b (carry.toNat + (un (j + (k + 2))).toNat) borrow.toNat (num (window un3 j) (k + 2))
      (w % v) h3lt (by omega) (by rw [Nat.mul_add]; omega)
    have hlt2 : un (j + (k + 2)) < borrow := by
      rw [BitVec.lt_def]
      by_contra hge
      have hcb : carry.toNat = 0 := by omega
      rw [hcb, Nat.mul_zero] at hadd
      omega
    refine ⟨qhat - 1#64, _, by rw [heq, if_pos hlt2], ?_, ?_, ?_, fun i hi => ?_⟩
    · rw [toNat_pred (by omega)]
      omega
    · rw [← hr, Nat.add_comm j]
      exact num_window_update (Nat.le_refl _)
    · have := borrow.isLt
      rw [Function.update_self, hframe3 _ (.inr (Nat.le_refl _)), htop2, BitVec.toNat_add, BitVec.toNat_sub]
      omega
    · rw [Function.update_of_ne (by omega), hframe3 i (by omega)]
      exact hlow2 i hi

end

/-! ### The loop -/

section
variable {vn : ℕ → BitVec 64} {n : ℕ} {rc : BitVec 64}

theorem num_cut (u : ℕ → BitVec 64) (j n : ℕ) : num u (j + n) = num u j + (2 ^ 64) ^ j * num (window u j) n := by
  rw [num, valueOf_add]
  simp only [Nat.add_comm j]

theorem knuth_loop_spec (hn : 2 ≤ n) (hv : 2 ^ 63 ≤ (vn (n - 1)).toNat)
    (hrc : IsReciprocal (2 ^ 64) ((2 ^ 64) ^ 2) (vn (n - 1)).toNat rc.toNat) (j : ℕ) (q un : ℕ → BitVec 64)
    (hlt : num un (j + n) < num vn n * (2 ^ 64) ^ j) :
    ∃ q' un', knuth_loop vn n ⟨vn (n - 1), vn (n - 2)⟩ rc j (q, un) = (q', un') ∧
      num q' j = num un (j + n) / num vn n ∧ num un' n = num un (j + n) % num vn n ∧
      (∀ i, n ≤ i → i < j + n → un' i = 0#64) ∧ (∀ i, j ≤ i → q' i = q i) ∧ ∀ i, j + n ≤ i → un' i = un i := by
  induction j generalizing q un with
  | zero =>
    rw [Nat.zero_add, pow_zero, Nat.mul_one] at hlt
    rw [Nat.zero_add]
    exact ⟨q, un, rfl, (Nat.div_eq_of_lt hlt).symm, (Nat.mod_eq_of_lt hlt).symm, fun i h1 h2 => by omega,
      fun _ _ => rfl, fun _ _ => rfl⟩
  | succ j ih =>
    obtain ⟨b, hb⟩ : ∃ b, b = (2 ^ 64) ^ j := ⟨_, rfl⟩
    have hcut : num un (j + 1 + n) = num un j + b * num (window un j) (n + 1) := by
      rw [hb, ← num_cut]
      congr 1
      omega
    have hwin : num (window un j) (n + 1) < num vn n * 2 ^ 64 := by
      refine Nat.lt_of_mul_lt_mul_left (a := b) ?_
      calc b * num (window un j) (n + 1) ≤ num un (j + 1 + n) := by rw [hcut]; exact Nat.le_add_left ..
        _ < num vn n * (2 ^ 64) ^ (j + 1) := hlt
        _ = b * (num vn n * 2 ^ 64) := by rw [pow_succ, ← hb, Nat.mul_left_comm]
    have hvpos : 0 < num vn n := Nat.pos_of_ne_zero fun h0 => by rw [h0, Nat.zero_mul] at hwin; omega
    obtain ⟨d, un1, hround, hd, hrem, htop, hframe⟩ := knuth_round_spec (q := q) hn hv hrc hwin
    have hlow : num un1 j = num un j := valueOf_congr fun i hi => by rw [hframe i (.inl hi)]
    have hcut1 : num un1 (j + n) = num un j + b * (num (window un j) (n + 1) % num vn n) := by
      rw [num_cut, hlow, hrem, hb]
    have hlt1 : num un1 (j + n) < num vn n * b := by
      rw [hcut1]
      exact long_div_lt (hb ▸ num_lt un j) (Nat.mod_lt _ hvpos)
    obtain ⟨q', un', hloop, h1, h2, h3, h4, h5⟩ := ih (Function.update q j d) un1 (by rw [← hb]; exact hlt1)
    obtain ⟨e1, e2⟩ := long_div (num un j) b (num (window un j) (n + 1)) (num vn n) hvpos
    refine ⟨q', un', ?_, ?_, ?_, fun i hi hi' => ?_, fun i hi => ?_, fun i hi => ?_⟩
    · rw [knuth_loop, hround, hloop]
    · rw [hcut, e1, ← hcut1, ← h1, ← hd, num_succ, h4 j (Nat.le_refl j), Function.update_self, hb, Nat.add_comm,
        Nat.mul_comm]
    · rw [hcut, e2, ← hcut1, h2]
    · rcases Nat.lt_or_ge i (j + n) with hij | hij
      · exact h3 i hi hij
      · rw [h5 i hij, show i = j + n by omega]
        exact BitVec.eq_of_toNat_eq htop
    · rw [h4 i (by omega), Function.update_of_ne (by omega)]
    · rw [h5 i (by omega), hframe i (.inr (by omega))]

end

/-- **Division by more words**: the rows of the quotient and of the remainder, for a
divisor with its highest bit set and a numerator whose additional word is smaller than the
divisor's first. -/
theorem udivrem_knuth_spec (q un : ℕ → BitVec 64) (m : ℕ) (vn : ℕ → BitVec 64) (n : ℕ) (hn : 2 ≤ n) (hnm : n ≤ m)
    (hv : 2 ^ 63 ≤ (vn (n - 1)).toNat) (hu : (un m).toNat < (vn (n - 1)).toNat) :
    num (udivrem_knuth q un m vn n).1 (m - n + 1) = num un (m + 1) / num vn n ∧
      num (udivrem_knuth q un m vn n).2 n = num un (m + 1) % num vn n ∧
      (∀ i, n ≤ i → i < m + 1 → (udivrem_knuth q un m vn n).2 i = 0#64) ∧
      ∀ i, m - n + 1 ≤ i → (udivrem_knuth q un m vn n).1 i = q i := by
  have hm : m - n + 1 + n = m + 1 := by omega
  have hlt : num un (m - n + 1 + n) < num vn n * (2 ^ 64) ^ (m - n + 1) := by
    obtain ⟨k, rfl⟩ : ∃ k, n = k + 1 := ⟨n - 1, by omega⟩
    rw [Nat.add_sub_cancel] at hv hu
    rw [hm, num_succ un, num_succ vn]
    calc num un m + (un m).toNat * (2 ^ 64) ^ m < (2 ^ 64) ^ m + (un m).toNat * (2 ^ 64) ^ m := by
          have := num_lt un m
          omega
      _ = ((un m).toNat + 1) * (2 ^ 64) ^ m := by rw [Nat.succ_mul, Nat.add_comm]
      _ ≤ (vn k).toNat * (2 ^ 64) ^ m := Nat.mul_le_mul_right _ hu
      _ = (vn k).toNat * (2 ^ 64) ^ k * (2 ^ 64) ^ (m - (k + 1) + 1) := by
          rw [Nat.mul_assoc, ← pow_add]
          congr 2
          omega
      _ ≤ _ := Nat.mul_le_mul_right _ (Nat.le_add_left ..)
  obtain ⟨q', un', hloop, h1, h2, h3, h4, -⟩ := knuth_loop_spec hn hv (reciprocal_2by1_spec hv) (m - n + 1) q un hlt
  have heq : udivrem_knuth q un m vn n = (q', un') := hloop
  rw [heq, ← hm]
  exact ⟨h1, h2, h3, h4⟩

end Diode.L4.Intx
