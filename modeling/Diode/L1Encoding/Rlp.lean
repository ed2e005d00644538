import Diode.Core.Bytes

/-!
# The RLP form of an account

The encode-only RLP of c_src/rlp.cpp, as far as hashing an account needs it:
byte strings, unsigned integers without leading zeros and a list of four items.
The code has no decoder; `item` is one for the short strings an account
consists of, and with it the form of an account is injective
(`encodeAccount_inj`).
-/
namespace Diode.L1.Rlp
open Diode.Core

/-- Bytes of `n` without leading zeros. -/
def byteSize (n : Nat) : Nat := if n = 0 then 0 else Nat.log2 n / 8 + 1

/-- `n` big-endian without leading zeros. -/
def unsigned (n : Nat) : Bytes := be (byteSize n) n

/-- `append_length_prefix`.
mirrors c_src/rlp.cpp:5-28 -/
def lengthPrefix (offset : Nat) (data : Bytes) : Bytes :=
  if data.length ≤ 55 then UInt8.ofNat (offset + data.length) :: data
  else UInt8.ofNat (offset + 55 + byteSize data.length) :: unsigned data.length ++ data

/-- mirrors c_src/rlp.cpp:30-37 -/
def encodeBytes (data : Bytes) : Bytes :=
  match data with
  | [b] => if b < 0x80 then [b] else lengthPrefix 0x80 [b]
  | data => lengthPrefix 0x80 data

/-- mirrors c_src/rlp.cpp:39-58 -/
def encodeUint64 (value : BitVec 64) : Bytes := encodeBytes (unsigned value.toNat)

/-- mirrors c_src/rlp.cpp:60-71 -/
def encodeUint256 (value : Word) : Bytes := encodeBytes (unsigned value.toNat)

/-- mirrors c_src/rlp.cpp:73-83 -/
def encodeList (item0 item1 item2 item3 : Bytes) : Bytes := lengthPrefix 0xC0
    (item0 ++ item1 ++ item2 ++ item3)

example : encodeBytes [] = [0x80] := rfl

example : encodeUint64 0x0400 = [0x82, 0x04, 0x00] := by decide

/-! ## Reading back -/

theorem lt_byteSize (n : Nat) : n < 256 ^ byteSize n := by
  unfold byteSize
  split
  · omega
  · rename_i h
    have hpow : 256 ^ (Nat.log2 n / 8 + 1) = 2 ^ (8 * (Nat.log2 n / 8 + 1)) := by rw [Nat.pow_mul]
    rw [hpow]
    exact lt_of_lt_of_le Nat.lt_log2_self (Nat.pow_le_pow_right (by decide) (by omega))

theorem byteSize_le {n k : Nat} (h : n < 2 ^ (8 * k)) : byteSize n ≤ k := by
  unfold byteSize
  split
  · omega
  · rename_i hn
    have := (Nat.log2_lt hn).2 h
    omega

theorem ofBe_unsigned (n : Nat) : ofBe (unsigned n) = n := ofBe_be (lt_byteSize n)

theorem unsigned_length_le {n k : Nat} (h : n < 2 ^ (8 * k)) : (unsigned n).length ≤ k := by
  unfold unsigned
  rw [be_length]
  exact byteSize_le h

/-- The first item of a byte string, if it is a short one, and the rest. -/
def item : Bytes → Bytes × Bytes
  | [] => ([], [])
  | b :: rest => if b < 0x80 then ([b], rest) else (rest.take (b.toNat - 0x80), rest.drop
      (b.toNat - 0x80))

theorem item_prefix {data rest : Bytes} (h : data.length ≤ 55) :
    item (lengthPrefix 0x80 data ++ rest) = (data, rest) := by
  have hb : (UInt8.ofNat (0x80 + data.length)).toNat = 0x80 + data.length := by
    rw [UInt8.toNat_ofNat']
    omega
  unfold lengthPrefix item
  rw [if_pos h, List.cons_append]
  dsimp only
  rw [if_neg (by rw [UInt8.lt_iff_toNat_lt, hb]; simp), hb, Nat.add_sub_cancel_left,
    List.take_left, List.drop_left]

theorem item_encodeBytes {data : Bytes} (rest : Bytes) (h : data.length ≤ 55) :
    item (encodeBytes data ++ rest) = (data, rest) := by
  unfold encodeBytes
  split
  · rename_i b
    split
    · rename_i hb
      show item (b :: rest) = _
      exact if_pos hb
    · exact item_prefix h
  · exact item_prefix h

theorem encodeBytes_append_inj {d e r t : Bytes} (hd : d.length ≤ 55) (he : e.length ≤ 55)
    (h : encodeBytes d ++ r = encodeBytes e ++ t) : d = e ∧ r = t := by
  have h1 := item_encodeBytes r hd
  rw [h, item_encodeBytes t he, Prod.mk.injEq] at h1
  exact ⟨h1.1.symm, h1.2.symm⟩

/-- A long list drops two bytes of prefix. -/
theorem drop_lengthPrefix {data : Bytes} (h : 55 < data.length) (h' : data.length < 256) :
    (lengthPrefix 0xC0 data).drop 2 = data := by
  have hs : byteSize data.length = 1 := by
    have h1 := byteSize_le (n := data.length) (k := 1) (by omega)
    have h2 : byteSize data.length ≠ 0 := by
      unfold byteSize
      split <;> omega
    omega
  unfold lengthPrefix unsigned
  rw [if_neg (by omega), hs]
  rfl

theorem encodeBytes_length {data : Bytes} (h : data.length ≤ 55) :
    (encodeBytes data).length ≤ data.length + 1 := by
  unfold encodeBytes lengthPrefix
  split
  · split <;> simp
  · rw [if_pos h]
    simp

theorem encodeBytes_length_long {data : Bytes} (h : data.length = 32) :
    (encodeBytes data).length = 33 := by
  unfold encodeBytes lengthPrefix
  split
  · simp at h
  · rw [if_pos (by omega), List.length_cons, h]

/-- The list an account is hashed as. -/
def encodeAccount (nonce : BitVec 64) (balance root codeHash : Word) : Bytes :=
  encodeList (encodeUint64 nonce) (encodeUint256 balance) (encodeBytes (Word.bytes root))
    (encodeBytes (Word.bytes codeHash))

/-- **The form of an account is injective.** -/
theorem encodeAccount_inj {n n' : BitVec 64} {b b' r r' c c' : Word}
    (h : encodeAccount n b r c = encodeAccount n' b' r' c') :
    n = n' ∧ b = b' ∧ r = r' ∧ c = c' := by
  have hn : ∀ n : BitVec 64, (unsigned n.toNat).length ≤ 55 := fun n =>
    le_trans (unsigned_length_le (k := 8) n.isLt) (by decide)
  have hb : ∀ b : Word, (unsigned b.toNat).length ≤ 32 := fun b => unsigned_length_le (k := 32) b.isLt
  have hw : ∀ w : Word, (Word.bytes w).length ≤ 55 := fun w => by rw [Word.bytes_length]; decide
  have hlen : ∀ (n : BitVec 64) (b r c : Word),
    55 < (encodeUint64 n ++ encodeUint256 b ++ encodeBytes (Word.bytes r) ++
      encodeBytes (Word.bytes c)).length ∧
        (encodeUint64 n ++ encodeUint256 b ++ encodeBytes (Word.bytes r) ++
      encodeBytes (Word.bytes c)).length < 256 := by
    intro n b r c
    have h1 := encodeBytes_length (hn n)
    have h2 := encodeBytes_length (le_trans (hb b) (by decide))
    have h3 := hn n
    have h4 := hb b
    unfold encodeUint64 encodeUint256
    simp only [List.length_append, encodeBytes_length_long (Word.bytes_length _)]
    omega
  unfold encodeAccount encodeList at h
  have h0 := congrArg (List.drop 2) h
  rw [drop_lengthPrefix (hlen _ _ _ _).1 (hlen _ _ _ _).2, drop_lengthPrefix (hlen _ _ _ _).1
    (hlen _ _ _ _).2] at h0
  simp only [List.append_assoc] at h0
  obtain ⟨e1, h1⟩ := encodeBytes_append_inj (hn n) (hn n') h0
  obtain ⟨e2, h2⟩ := encodeBytes_append_inj (le_trans (hb b) (by decide))
    (le_trans (hb b') (by decide)) h1
  obtain ⟨e3, h3⟩ := encodeBytes_append_inj (hw r) (hw r') h2
  obtain ⟨e4, -⟩ := encodeBytes_append_inj (r := []) (t := []) (hw c) (hw c') (by rw [h3])
  refine ⟨BitVec.eq_of_toNat_eq ?_, BitVec.eq_of_toNat_eq ?_, Word.bytes_inj e3, Word.bytes_inj e4⟩
  · rw [← ofBe_unsigned n.toNat, e1, ofBe_unsigned]
  · rw [← ofBe_unsigned b.toNat, e2, ofBe_unsigned]

end Diode.L1.Rlp
