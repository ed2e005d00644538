import Mathlib.Data.List.Induction
import Mathlib.Tactic.Ring

/-!
# Bit strings

`bits n v` is the `n`-bit form of `v`, most significant bit first, as a
bitstring pattern reads it. Strings of one length are ordered as the numbers
they stand for, and the first difference decides (`lt_of_bits`).
-/
namespace Diode.Core

/-- The low `n` bits of `v`, most significant first. -/
def bits : Nat → Nat → List Bool
  | 0, _ => []
  | n + 1, v => bits n (v / 2) ++ [decide (v % 2 = 1)]

def ofBits (l : List Bool) : Nat := l.foldl (fun acc b => 2 * acc + b.toNat) 0

@[simp] theorem bits_length (n v : Nat) : (bits n v).length = n := by
  induction n generalizing v with
  | zero => rfl
  | succ n ih => simp [bits, ih]

@[simp] theorem ofBits_snoc (l : List Bool) (b : Bool) :
    ofBits (l ++ [b]) = 2 * ofBits l + b.toNat := by
  simp [ofBits]

theorem ofBits_bits {n v : Nat} (h : v < 2 ^ n) : ofBits (bits n v) = v := by
  induction n generalizing v with
  | zero => simp at h; simp [h, bits, ofBits]
  | succ n ih =>
    rw [bits, ofBits_snoc, ih (by rw [Nat.pow_succ] at h; omega)]
    by_cases hv : v % 2 = 1 <;> simp [hv] <;> omega

theorem ofBits_lt (l : List Bool) : ofBits l < 2 ^ l.length := by
  induction l using List.reverseRecOn with
  | nil => simp [ofBits]
  | append_singleton l b ih =>
    rw [ofBits_snoc, List.length_append, List.length_singleton, Nat.pow_succ]
    cases b <;> simp <;> omega

theorem ofBits_append (l m : List Bool) : ofBits (l ++ m) = ofBits l * 2 ^ m.length + ofBits m := by
  induction m using List.reverseRecOn with
  | nil => simp [ofBits]
  | append_singleton m b ih =>
    rw [← List.append_assoc, ofBits_snoc, ih, ofBits_snoc, List.length_append,
      List.length_singleton, Nat.pow_succ]
    ring

theorem ofBits_split {p x y : List Bool} (h : x.length = y.length) :
    ofBits (p ++ false :: x) < ofBits (p ++ true :: y) := by
  have hx : ofBits (p ++ false :: x) = ofBits (p ++ [false]) * 2 ^ x.length + ofBits x := by
    rw [← ofBits_append, List.append_assoc, List.singleton_append]
  have hy : ofBits (p ++ true :: y) = ofBits (p ++ [true]) * 2 ^ y.length + ofBits y := by
    rw [← ofBits_append, List.append_assoc, List.singleton_append]
  have hlt := ofBits_lt x
  rw [hx, hy, h, ofBits_snoc, ofBits_snoc]
  rw [h] at hlt
  have : (2 * ofBits p + true.toNat) * 2 ^ y.length = (2 * ofBits p) * 2 ^ y.length + 2 ^ y.length := by
    simp [Nat.add_mul]
  simp only [Bool.toNat_false, Nat.add_zero, this]
  omega

theorem lt_of_bits {n a b : Nat} {p : List Bool} (ha : a < 2 ^ n) (hb : b < 2 ^ n)
    (h0 : p ++ [false] <+: bits n a)
    (h1 : p ++ [true] <+: bits n b) : a < b := by
  obtain ⟨x, hx⟩ := h0
  obtain ⟨y, hy⟩ := h1
  rw [List.append_assoc, List.singleton_append] at hx hy
  have hlen : x.length = y.length := by
    have h1 := congrArg List.length hx
    have h2 := congrArg List.length hy
    simp only [List.length_append, List.length_cons, bits_length] at h1 h2
    omega
  rw [← ofBits_bits ha, ← ofBits_bits hb, ← hx, ← hy]
  exact ofBits_split hlen

/-- A string that is not all of the bits is continued by one of the two. -/
theorem next_bit {n v : Nat} {p : List Bool} (h : p <+: bits n v) (hl : p.length < n) :
    p ++ [false] <+: bits n v ∨ p ++ [true] <+: bits n v := by
  obtain ⟨x, hx⟩ := h
  cases x with
  | nil =>
    have := congrArg List.length hx
    simp at this
    omega
  | cons b x =>
    rw [← hx]
    cases b with
    | false => exact .inl ⟨x, by simp⟩
    | true => exact .inr ⟨x, by simp⟩

theorem not_both_bits {l p : List Bool} (h0 : p ++ [false] <+: l) (h1 : p ++ [true] <+: l) : False := by
  have heq := (List.prefix_of_prefix_length_le h0 h1 (by simp)).eq_of_length (by simp)
  simp at heq

end Diode.Core
