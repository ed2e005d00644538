import Mathlib.Algebra.Ring.Nat
import Mathlib.Data.List.Induction
import Mathlib.Data.List.Lex

/-!
# Bytes and fixed-width words

A binary is a `List UInt8`, a 256-bit word (a storage value, a hash) a
`BitVec 256`, an address a `BitVec 160`. `be n v` is the `n`-byte big-endian
form of `v`; it is injective on the values that fit (`be_inj`).
-/
namespace Diode.Core

abbrev Bytes := List UInt8
abbrev Word := BitVec 256
abbrev Addr := BitVec 160

instance instLinearOrderUInt8 : LinearOrder UInt8 where
  le_refl a := UInt8.le_refl a
  le_trans _ _ _ := UInt8.le_trans
  lt_iff_le_not_ge a b := by simp only [UInt8.lt_iff_toNat_lt, UInt8.le_iff_toNat_le]; omega
  le_antisymm _ _ := UInt8.le_antisymm
  le_total a b := UInt8.le_total a b
  toDecidableLE := fun a b => inferInstance

instance instLinearOrderBitVec (w : Nat) : LinearOrder (BitVec w) where
  le_refl a := BitVec.le_refl a
  le_trans _ _ _ := BitVec.le_trans
  lt_iff_le_not_ge a b := by simp only [BitVec.lt_def, BitVec.le_def]; omega
  le_antisymm a b h1 h2 := by apply BitVec.eq_of_toNat_eq; simp only [BitVec.le_def] at h1 h2; omega
  le_total a b := by simp only [BitVec.le_def]; omega
  toDecidableLE := fun a b => inferInstance
  toDecidableEq := instDecidableEqBitVec

/-- The low `n` bytes of `v`, most significant first. -/
def be : Nat → Nat → Bytes
  | 0, _ => []
  | n + 1, v => be n (v / 256) ++ [UInt8.ofNat (v % 256)]

@[simp] theorem be_length (n v : Nat) : (be n v).length = n := by
  induction n generalizing v with
  | zero => rfl
  | succ n ih => simp [be, ih]

theorem be_inj {n u v : Nat} (hu : u < 256 ^ n) (hv : v < 256 ^ n) (h : be n u = be n v) : u = v := by
  induction n generalizing u v with
  | zero => simp at hu hv; omega
  | succ n ih =>
    have hl := (List.append_inj' h rfl)
    have hb : u % 256 = v % 256 := by
      have := congrArg UInt8.toNat (List.singleton_inj.1 hl.2)
      simpa using this
    have hd : u / 256 = v / 256 :=
      ih (by rw [Nat.div_lt_iff_lt_mul (by decide)]; rwa [Nat.pow_succ] at hu)
        (by rw [Nat.div_lt_iff_lt_mul (by decide)]; rwa [Nat.pow_succ] at hv) hl.1
    omega

/-- The value of a big-endian byte string (`:binary.decode_unsigned`). -/
def ofBe (b : Bytes) : Nat := b.foldl (fun acc x => acc * 256 + x.toNat) 0

theorem ofBe_snoc (b : Bytes) (x : UInt8) : ofBe (b ++ [x]) = ofBe b * 256 + x.toNat := by
  simp [ofBe]

theorem ofBe_be {n v : Nat} (h : v < 256 ^ n) : ofBe (be n v) = v := by
  induction n generalizing v with
  | zero => simp at h; subst h; rfl
  | succ n ih =>
    rw [be, ofBe_snoc, ih (by rw [Nat.div_lt_iff_lt_mul (by decide)]; rwa [Nat.pow_succ] at h)]
    simp; omega

theorem be_mod (n v : Nat) : be n (v % 256 ^ n) = be n v := by
  induction n generalizing v with
  | zero => rfl
  | succ n ih =>
    have hdiv : v % 256 ^ (n + 1) / 256 = v / 256 % 256 ^ n := by
      rw [Nat.pow_succ', Nat.mod_mul_right_div_self]
    have hmod : v % 256 ^ (n + 1) % 256 = v % 256 := Nat.mod_mod_of_dvd v ⟨256 ^ n, Nat.pow_succ'⟩
    rw [be, be, hdiv, hmod, ih]

theorem be_ofBe (b : Bytes) : be b.length (ofBe b) = b := by
  induction b using List.reverseRecOn with
  | nil => rfl
  | append_singleton b x ih =>
    have hx := x.toNat_lt
    rw [List.length_append, List.length_singleton, ofBe_snoc, be,
      show (ofBe b * 256 + x.toNat) / 256 = ofBe b by omega, ih,
      show (ofBe b * 256 + x.toNat) % 256 = x.toNat by omega, UInt8.ofNat_toNat]

theorem ofBe_lt (b : Bytes) : ofBe b < 256 ^ b.length := by
  induction b using List.reverseRecOn with
  | nil => exact Nat.one_pos
  | append_singleton b x ih =>
    have hx := x.toNat_lt
    rw [ofBe_snoc, List.length_append, List.length_singleton, Nat.pow_succ]
    omega

/-- A number that needs fewer bytes has zeros in front. -/
theorem be_add (k : Nat) {n v : Nat} (h : v < 256 ^ n) :
    be (k + n) v = List.replicate k 0 ++ be n v := by
  induction n generalizing v with
  | zero =>
    obtain rfl : v = 0 := by simpa using h
    have hz : ∀ k, be k 0 = List.replicate k 0 := by
      intro k
      induction k with
      | zero => rfl
      | succ k ih => rw [be, Nat.zero_div, ih, List.replicate_succ']; rfl
    rw [Nat.add_zero, hz, be, List.append_nil]
  | succ n ih =>
    have hdiv : v / 256 < 256 ^ n := by
      rw [Nat.div_lt_iff_lt_mul (by decide)]
      rwa [Nat.pow_succ] at h
    rw [← Nat.add_assoc, be, ih hdiv, be, List.append_assoc]

/-- The 32 bytes of a word. -/
def Word.bytes (w : Word) : Bytes := be 32 w.toNat

/-- The 20 bytes of an address. -/
def Addr.bytes (a : Addr) : Bytes := be 20 a.toNat

@[simp] theorem Word.bytes_length (w : Word) : (Word.bytes w).length = 32 := be_length _ _

@[simp] theorem Addr.bytes_length (a : Addr) : (Addr.bytes a).length = 20 := be_length _ _

theorem Word.bytes_inj {u v : Word} (h : Word.bytes u = Word.bytes v) : u = v :=
  BitVec.eq_of_toNat_eq (be_inj (by have := u.isLt; omega) (by have := v.isLt; omega) h)

theorem Addr.bytes_inj {u v : Addr} (h : Addr.bytes u = Addr.bytes v) : u = v :=
  BitVec.eq_of_toNat_eq (be_inj (by have := u.isLt; omega) (by have := v.isLt; omega) h)

theorem Addr.bytes_ofBe {b : Bytes} (h : b.length = 20) :
    Addr.bytes (BitVec.ofNat 160 (ofBe b)) = b := by
  have hm : (2 : Nat) ^ 160 = 256 ^ 20 := by decide
  rw [Addr.bytes, BitVec.toNat_ofNat, hm, be_mod, ← h, be_ofBe]

theorem Addr.ofBe_bytes (a : Addr) : BitVec.ofNat 160 (ofBe (Addr.bytes a)) = a := by
  rw [Addr.bytes, ofBe_be (by have := a.isLt; omega), BitVec.ofNat_toNat, BitVec.setWidth_eq]

theorem Word.ofBe_bytes (w : Word) : BitVec.ofNat 256 (ofBe (Word.bytes w)) = w := by
  rw [Word.bytes, ofBe_be (by have := w.isLt; omega), BitVec.ofNat_toNat, BitVec.setWidth_eq]

/-! ## Taking binaries apart -/

/-- `<<data::binary-size(n), rest::binary>> = b` -/
def cut (n : Nat) (b : Bytes) : Option (Bytes × Bytes) := if n ≤ b.length then some
    (b.take n, b.drop n) else none

theorem cut_length {n : Nat} {b d rest : Bytes} (h : cut n b = some (d, rest)) :
    d.length + rest.length = b.length := by
  unfold cut at h
  split at h
  · obtain ⟨rfl, rfl⟩ := Prod.mk.inj (Option.some.inj h)
    rw [List.length_take, List.length_drop]
    omega
  · nomatch h

theorem cut_append {n : Nat} {a : Bytes} (h : a.length = n) (rest : Bytes) :
    cut n (a ++ rest) = some (a, rest) := by
  subst h
  rw [cut, if_pos (by rw [List.length_append]; omega), List.take_left, List.drop_left]

end Diode.Core
