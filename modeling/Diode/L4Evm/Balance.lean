import Diode.L1Encoding.Packet
import Diode.L3State.AccountHash
import Diode.L3State.Compact
import Diode.L4Evm.Accounts

/-!
# The balance codec

A balance crosses the native interface as an integer of at most 64 bits or as
a big-endian binary; a larger integer given raw arrives as the external form
of a big integer, whose digits come low byte first. This module follows the
bytes of both directions.

* `get_balance_eq`, `balance_to_term_eq`: byte by byte the routines compute
  `Term.getBalance` and `Term.ofBalance`.
* `wayIn_eq`, `wayOut_eq`: what a balance becomes on the way in and on the way
  out.
* `balance_codec_iff`: the codec keeps its promise exactly on the integers
  below 2^256; from there on `CAccountMap` stores the low 256 bits, although
  the native side refuses such an integer.
-/
namespace Diode.L4.Balance
open Diode.Core Diode.L1.Rlp Diode.L1.Packet Diode.L3

/-! ## The native side -/

/-- A cleared `uint256_t`. -/
def zeros : Bytes := List.replicate 32 0

/-- `out.value[31 - i] = p[i]`, for the bytes of `p` from `i` on. -/
def fill : Bytes → Nat → Bytes → Bytes
  | [], _, out => out
  | x :: p, i, out => fill p (i + 1) (out.set (31 - i) x)

def value (out : Bytes) : Word := BitVec.ofNat 256 (ofBe out)

/-- The number whose bytes are `p`, low byte first. -/
def stored (p : Bytes) : Word := value (fill p 0 zeros)

def small_integer (p : Bytes) : Option Word := if p.length < 1 then none else some (stored (p.take 1))

/-- The four bytes are an `int32_t`. -/
def integer (p : Bytes) : Option Word :=
  if p.length < 4 then none
  else
    let val := ofBe (p.take 4)
    if 2 ^ 31 ≤ val then none else some (stored (le 4 val))

/-- The digits of a big integer of `n` bytes. -/
def digits (n : Nat) (sign : UInt8) (p : Bytes) : Option Word :=
  if sign ≠ 0 ∨ 32 < n then none else if p.length < n then none else some (stored (p.take n))

def small_big : Bytes → Option Word
  | n :: sign :: p => digits n.toNat sign p
  | _ => none

def large_big : Bytes → Option Word
  | a :: b :: c :: d :: sign :: p => digits (ofBe [a, b, c, d]) sign p
  | _ => none

/-- mirrors c_src/nif.cpp:463-543 -/
def decode_ext_uint256 : Bytes → Option Word
  | version :: tag :: p =>
    if version ≠ 131 then none
    else if tag = 97 then small_integer p
    else if tag = 98 then integer p
    else if tag = 110 then small_big p
    else if tag = 111 then large_big p
    else none
  | _ => none

/-- The external form of an integer. -/
def external_int (n : Int) : Option Bytes :=
  let digits := (unsigned n.natAbs).reverse
  let sign : UInt8 := if n < 0 then 1 else 0
  if 0 ≤ n ∧ n < 256 then some [131, 97, UInt8.ofNat n.toNat]
  else if -2 ^ 31 ≤ n ∧ n < 2 ^ 31 then some ([131, 98] ++ be 4 (n % 2 ^ 32).toNat)
  else if digits.length < 256 then some ([131, 110, UInt8.ofNat digits.length, sign] ++ digits)
  else if digits.length < 2 ^ 32 then some ([131, 111] ++ be 4 digits.length ++ [sign] ++ digits)
  else none

/-- `enif_term_to_binary`; `other` stands for the forms of the terms that are
neither integers nor binaries. -/
def term_to_binary (other : Term → Option Bytes) : Term → Option Bytes
  | .int n => external_int n
  | .bin b => if b.length < 2 ^ 32 then some ([131, 109] ++ be 4 b.length ++ b) else none
  | t => other t

/-- `enif_get_int64`. -/
def getInt64 : Term → Option Int
  | .int n => if -2 ^ 63 ≤ n ∧ n < 2 ^ 63 then some n else none
  | _ => none

variable (other : Term → Option Bytes)

/-- mirrors c_src/nif.cpp:563-572 -/
def get_balance_blob (t : Term) : Option Word :=
  match t with
  | .bin b =>
    if 0 < b.length ∧ b.length ≤ 32 then some (value (zeros.take (32 - b.length) ++ b))
    else (term_to_binary other t).bind decode_ext_uint256
  | _ => (term_to_binary other t).bind decode_ext_uint256

/-- mirrors c_src/nif.cpp:545-573 -/
def get_balance_uint256 (t : Term) : Option Word :=
  match t.getUint64 with
  | some u64 => some (stored (le 8 u64.toNat))
  | none =>
    match getInt64 t with
    | some s64 => if 0 ≤ s64 then some (stored (le 8 s64.toNat)) else get_balance_blob other t
    | none => get_balance_blob other t

/-- `val = (val << 8) | balance.value[start + i]`. -/
def shiftIn (val : BitVec 64) (x : UInt8) : BitVec 64 := val <<< 8 ||| BitVec.ofNat 64 x.toNat

/-- mirrors c_src/nif.cpp:575-600 -/
def balance_to_term (balance : Word) : Term :=
  let rest := (Word.bytes balance).dropWhile fun b => b = 0
  if rest = [] then .int 0
  else if rest.length ≤ 8 then .int (rest.foldl shiftIn 0).toNat
  else .bin rest

/-! ## `CAccountMap` -/

/-- There is no clause for a negative balance.
mirrors lib/caccount_map.ex:148-154 -/
def encode (balance : Int) : Option Term :=
  if 0 ≤ balance then some (encode_balance balance.toNat) else none

/-- mirrors lib/caccount_map.ex:156-160 -/
def decode_balance : Term → Option Int
  | .int balance => some balance
  | .bin balance => some (ofBe balance)
  | _ => none

/-- What `put` hands to the native map; `none` is a raise or `badarg`. -/
def wayIn (balance : Int) : Option Word := (encode balance).bind (get_balance_uint256 other)

/-- What `get` returns of a native balance. -/
def wayOut (balance : Word) : Option Int := decode_balance (balance_to_term balance)

/-- A balance. -/
def InRange (b : Int) : Prop := 0 ≤ b ∧ b < 2 ^ 256

instance instDecidableInRange (b : Int) : Decidable (InRange b) := inferInstanceAs (Decidable (_ ∧ _))

/-- What the codec promises of an integer. -/
structure Codec (b : Int) : Prop where
  round : InRange b → ((wayIn other b).bind wayOut) = some b
  rejected : ¬InRange b → wayIn other b = none
  raw : (get_balance_uint256 other (.int b)).isSome ↔ InRange b

/-! ## The buffer -/

variable {other}

theorem ofBe_replicate (k : Nat) (b : Bytes) : ofBe (List.replicate k 0 ++ b) = ofBe b := by
  induction k with
  | zero => rfl
  | succ k ih =>
    rw [List.replicate_succ, List.cons_append]
    exact ih

theorem set_replicate (k : Nat) (x : UInt8) (done : Bytes) :
    (List.replicate (k + 1) 0 ++ done).set k x = List.replicate k 0 ++ x :: done := by
  induction k with
  | zero => rfl
  | succ k ih =>
    rw [List.replicate_succ, List.cons_append, List.set_cons_succ, ih, List.replicate_succ,
      List.cons_append]

/-- The bytes written so far stand reversed at the end. -/
theorem fill_eq : ∀ (p : Bytes) (i : Nat) (done : Bytes), i + p.length ≤ 32 →
    fill p i (List.replicate (32 - i) 0 ++ done) =
      List.replicate (32 - i - p.length) 0 ++ (p.reverse ++ done)
  | [], _, _, _ => rfl
  | x :: p, i, done, h => by
    rw [List.length_cons] at h
    have h1 : 32 - i = 31 - i + 1 := by omega
    have h2 : 32 - (i + 1) = 31 - i := by omega
    have h3 : 32 - i - (p.length + 1) = 31 - i - p.length := by omega
    have hrec := fill_eq p (i + 1) (x :: done) (by omega)
    rw [h2] at hrec
    rw [fill, h1, set_replicate, hrec, ← h1, List.length_cons, h3, List.reverse_cons,
      List.append_assoc]
    rfl

theorem stored_eq {p : Bytes} (h : p.length ≤ 32) : stored p = BitVec.ofNat 256 (ofLe p) := by
  have hfill := fill_eq p 0 [] (by omega)
  rw [List.append_nil, List.append_nil] at hfill
  unfold stored value zeros ofLe
  rw [hfill, ofBe_replicate]

theorem stored_le {n v : Nat} (hn : n ≤ 32) (h : v < 256 ^ n) :
    stored (le n v) = BitVec.ofNat 256 v := by
  have hlen : (le n v).length = n := by rw [le, List.length_reverse, be_length]
  rw [stored_eq (by omega), ofLe_le, Nat.mod_eq_of_lt h]

theorem ofNat_toNat_eq {n : Int} (h : 0 ≤ n) : BitVec.ofNat 256 n.toNat = BitVec.ofInt 256 n := by
  rw [← BitVec.ofInt_natCast, Int.toNat_of_nonneg h]

/-! ## The external form of an integer -/

theorem digits_unsigned {v : Nat} (sign : UInt8) :
    digits (unsigned v).reverse.length sign (unsigned v).reverse =
      if sign = 0 ∧ v < 2 ^ 256 then some (BitVec.ofNat 256 v) else none := by
  have hlen : (unsigned v).reverse.length = byteSize v := by
    rw [List.length_reverse, unsigned, be_length]
  have hsize : byteSize v ≤ 32 ↔ v < 2 ^ 256 := by
    constructor
    · intro h
      have hpow : (256 : Nat) ^ byteSize v ≤ 256 ^ 32 := Nat.pow_le_pow_right (by decide) h
      have hlt := lt_byteSize v
      omega
    · intro h
      exact byteSize_le (k := 32) h
  unfold digits
  rw [hlen]
  by_cases hs : sign = 0 ∧ v < 2 ^ 256
  · have h32 := hsize.2 hs.2
    rw [if_pos hs, if_neg (not_or.2 ⟨fun h => h hs.1, by omega⟩), if_neg (by omega),
      List.take_of_length_le (by omega), stored_eq (by omega), ofLe, List.reverse_reverse,
      ofBe_unsigned]
  · rw [if_neg hs, if_pos]
    by_cases h0 : sign = 0
    · right
      have := hsize.1.mt fun h => hs ⟨h0, h⟩
      omega
    · exact Or.inl h0

theorem decode_tag_110 (p : Bytes) : decode_ext_uint256 (131 :: 110 :: p) = small_big p := rfl

theorem decode_tag_111 (p : Bytes) : decode_ext_uint256 (131 :: 111 :: p) = large_big p := rfl

theorem decode_big {digits : Bytes} (sign : UInt8) (h : digits.length < 256) :
    decode_ext_uint256 ([131, 110, UInt8.ofNat digits.length, sign] ++ digits) =
      Balance.digits digits.length sign digits := by
  have hn : (UInt8.ofNat digits.length).toNat = digits.length := by
    rw [UInt8.toNat_ofNat']
    exact Nat.mod_eq_of_lt h
  rw [show [131, 110, UInt8.ofNat digits.length, sign] ++ digits =
    131 :: 110 :: UInt8.ofNat digits.length :: sign :: digits from rfl, decode_tag_110, small_big, hn]

theorem decode_large {digits : Bytes} (sign : UInt8) (h : digits.length < 2 ^ 32) :
    decode_ext_uint256 ([131, 111] ++ be 4 digits.length ++ [sign] ++ digits) =
      Balance.digits digits.length sign digits := by
  have hn := @ofBe_be 4 digits.length (by omega)
  simp only [be, List.nil_append, List.cons_append] at hn ⊢
  rw [decode_tag_111, large_big, hn]

theorem decode_integer {v : Nat} (h : v < 2 ^ 32) :
    decode_ext_uint256 ([131, 98] ++ be 4 v) =
      if v < 2 ^ 31 then some (BitVec.ofNat 256 v) else none := by
  show integer (be 4 v) = _
  unfold integer
  rw [be_length, if_neg (by decide), List.take_of_length_le (by rw [be_length]), ofBe_be (by omega)]
  dsimp only
  split
  · rw [if_neg (by omega)]
  · rw [if_pos (by omega), stored_le (by decide) (by omega)]

theorem decode_small {v : Nat} (h : v < 256) :
    decode_ext_uint256 [131, 97, UInt8.ofNat v] = some (BitVec.ofNat 256 v) := by
  have hle : [UInt8.ofNat v] = le 1 v := by
    simp only [le, be, List.nil_append, List.reverse_singleton]
    rw [Nat.mod_eq_of_lt h]
  show some (stored [UInt8.ofNat v]) = _
  rw [hle, stored_le (by decide) (by omega)]

/-- The sign byte of a big integer. -/
theorem sign_eq_zero_iff (n : Int) : (if n < 0 then 1 else 0 : UInt8) = 0 ↔ 0 ≤ n := by
  split
  · exact ⟨fun h => absurd h (by decide), fun h => by omega⟩
  · exact ⟨fun _ => by omega, fun _ => rfl⟩

theorem digits_int (n : Int) :
    digits (unsigned n.natAbs).reverse.length (if n < 0 then 1 else 0) (unsigned n.natAbs).reverse =
      if InRange n then some (BitVec.ofInt 256 n) else none := by
  have hrange : (0 ≤ n ∧ n.natAbs < 2 ^ 256) ↔ InRange n := by
    unfold InRange
    omega
  rw [digits_unsigned]
  simp only [sign_eq_zero_iff, hrange]
  split
  · rename_i h
    rw [← ofNat_toNat_eq h.1, show n.natAbs = n.toNat by have := h.1; omega]
  · rfl

/-- The native decoder takes the integers in range and no others. -/
theorem decode_external (n : Int) : (external_int n).bind decode_ext_uint256 =
    if InRange n then some (BitVec.ofInt 256 n) else none := by
  unfold external_int
  dsimp only
  split
  · rename_i h
    have hr : InRange n := ⟨h.1, by omega⟩
    rw [if_pos hr, Option.bind_some, decode_small (by omega), ofNat_toNat_eq h.1]
  · split
    · rename_i h
      rw [Option.bind_some, decode_integer (by omega)]
      by_cases h0 : 0 ≤ n
      · rw [if_pos (by omega), if_pos ⟨h0, by omega⟩, ← ofNat_toNat_eq h0]
        congr 3
        omega
      · rw [if_neg (by omega), if_neg fun hr => h0 hr.1]
    · split
      · rename_i h
        rw [Option.bind_some, decode_big _ h, digits_int]
      · split
        · rename_i h
          rw [Option.bind_some, decode_large _ h, digits_int]
        · rename_i h
          rw [if_neg]
          · rfl
          · -- an integer in range has 32 bytes at most
            intro hr
            have hle : byteSize n.natAbs ≤ 32 := byteSize_le (by have := hr.1; have := hr.2; omega)
            rw [List.length_reverse, unsigned, be_length] at h
            omega

/-! ## The native routines -/

/-- The forms of the other terms are no integers. -/
def NoInteger (other : Term → Option Bytes) : Prop :=
  ∀ t data, other t = some data → decode_ext_uint256 data = none

/-- Every path of an integer ends in the same word. -/
theorem get_balance_int (n : Int) : get_balance_uint256 other (.int n) =
    if InRange n then some (BitVec.ofInt 256 n) else none := by
  have hblob : get_balance_blob other (.int n) =
    if InRange n then some (BitVec.ofInt 256 n) else none := decode_external n
  unfold get_balance_uint256 getInt64
  by_cases h64 : 0 ≤ n ∧ n < 2 ^ 64
  · have hr : InRange n := ⟨h64.1, by omega⟩
    have hu : (Term.int n).getUint64 = some (BitVec.ofInt 64 n) := if_pos h64
    have hv : (BitVec.ofInt 64 n).toNat = n.toNat := by
      rw [BitVec.toNat_ofInt]
      exact congrArg Int.toNat (Int.emod_eq_of_lt h64.1 h64.2)
    simp only [hu]
    rw [if_pos hr, hv, stored_le (by decide) (by omega), ofNat_toNat_eq h64.1]
  · have hu : (Term.int n).getUint64 = none := if_neg h64
    simp only [hu]
    split
    · rename_i s64 hs
      split at hs
      · cases hs
        rw [if_neg (by omega), hblob]
      · nomatch hs
    · exact hblob

theorem get_balance_bin (b : Bytes) :
    get_balance_uint256 other (.bin b) = (Term.bin b).getBalance := by
  show get_balance_blob other (.bin b) = _
  unfold get_balance_blob Term.getBalance
  dsimp only
  split
  · unfold value zeros
    rw [List.take_replicate, ofBe_replicate]
  · unfold term_to_binary
    dsimp only
    split <;> rfl

/-- **The native decoder** is the one of the account map. -/
theorem get_balance_eq (h : NoInteger other) (t : Term) :
    get_balance_uint256 other t = t.getBalance := by
  have hother : ∀ t, (other t).bind decode_ext_uint256 = none := fun t => by
    cases hd : other t with
    | none => rfl
    | some data => exact h t data hd
  cases t with
  | int n => exact get_balance_int n
  | bin b => exact get_balance_bin b
  | atom a => exact hother (.atom a)
  | nil => exact hother .nil
  | cons x y => exact hother (.cons x y)
  | tuple l => exact hother (.tuple l)
  | map l => exact hother (.map l)
  | other n => exact hother (.other n)

theorem shiftIn_toNat (val : BitVec 64) (x : UInt8) :
    (shiftIn val x).toNat = (val.toNat * 256 + x.toNat) % 2 ^ 64 := by
  have hx := x.toNat_lt
  unfold shiftIn
  rw [BitVec.toNat_or, BitVec.toNat_shiftLeft, BitVec.toNat_ofNat, Nat.shiftLeft_eq,
    Nat.mod_eq_of_lt (a := x.toNat) (by omega)]
  have hmul : val.toNat * 2 ^ 8 % 2 ^ 64 = 2 ^ 8 * (val.toNat % 2 ^ 56) := by omega
  rw [hmul, ← Nat.two_pow_add_eq_or_of_lt (by omega)]
  omega

/-- The shift loop reads big-endian bytes. -/
theorem shiftIn_foldl (b : Bytes) : (b.foldl shiftIn 0).toNat = ofBe b % 2 ^ 64 := by
  induction b using List.reverseRecOn with
  | nil => rfl
  | append_singleton b x ih =>
    rw [List.foldl_concat, shiftIn_toNat, ih, ofBe_snoc]
    omega

theorem balance_to_term_eq (w : Word) : balance_to_term w = Term.ofBalance w := by
  have hlt := w.isLt
  have hrest : (Word.bytes w).dropWhile (fun b => b = 0) = unsigned w.toNat :=
    Native.dropWhile_be 32 w.toNat (by omega)
  have hval := ofBe_unsigned w.toNat
  have hlen : (unsigned w.toNat).length = byteSize w.toNat := be_length ..
  unfold balance_to_term Term.ofBalance
  simp only [hrest]
  split
  · rename_i h
    rw [h] at hval
    have h0 : w.toNat = 0 := hval.symm
    rw [h0, if_pos (by decide)]
    rfl
  · split
    · rename_i h8
      have hsmall : w.toNat < 2 ^ 64 := by
        have hpow : (256 : Nat) ^ byteSize w.toNat ≤ 256 ^ 8 :=
          Nat.pow_le_pow_right (by decide) (by omega)
        have := lt_byteSize w.toNat
        omega
      rw [if_pos hsmall, shiftIn_foldl, hval, Nat.mod_eq_of_lt hsmall]
    · rename_i h8
      rw [if_neg]
      intro hsmall
      have := byteSize_le (n := w.toNat) (k := 8) hsmall
      omega

/-! ## Both directions -/

/-- Nothing above the low 256 bits of a balance reaches the account map, and
nothing says so. -/
theorem wayIn_eq (b : Int) :
    wayIn other b = if 0 ≤ b then some (BitVec.ofInt 256 b) else none := by
  unfold wayIn encode
  split
  · rename_i h
    have hget : get_balance_uint256 other (encode_balance b.toNat) =
        (encode_balance b.toNat).getBalance := by
      unfold encode_balance
      split
      · exact get_balance_int _
      · exact get_balance_bin _
    rw [Option.bind_some, hget, getBalance_encode, ofNat_toNat_eq h]
  · rfl

theorem wayOut_eq (w : Word) : wayOut w = some (w.toNat : Int) := by
  unfold wayOut
  rw [balance_to_term_eq]
  unfold Term.ofBalance
  split
  · rfl
  · unfold decode_balance
    dsimp only
    rw [ofBe_unsigned]

theorem toNat_ofInt {b : Int} (h : InRange b) : ((BitVec.ofInt 256 b).toNat : Int) = b := by
  obtain ⟨h0, hlt⟩ := h
  rw [← ofNat_toNat_eq h0, BitVec.toNat_ofNat, Nat.mod_eq_of_lt (by omega), Int.toNat_of_nonneg h0]

theorem wayIn_wayOut {b : Int} (h : InRange b) : (wayIn other b).bind wayOut = some b := by
  rw [wayIn_eq, if_pos h.1, Option.bind_some, wayOut_eq, toNat_ofInt h]

/-- **The balance codec** is right below 2^256 and nowhere above. -/
theorem balance_codec_iff (other : Term → Option Bytes) (b : Int) :
    Codec other b ↔ b < 2 ^ 256 := by
  constructor
  · intro h
    by_contra hb
    have hnone := h.rejected fun hr => hb hr.2
    rw [wayIn_eq, if_pos (by omega)] at hnone
    nomatch hnone
  · intro hb
    refine ⟨wayIn_wayOut, fun hr => ?_, ?_⟩
    · have hneg : ¬0 ≤ b := fun h0 => hr ⟨h0, hb⟩
      rw [wayIn_eq, if_neg hneg]
    · rw [get_balance_int]
      split
      · rename_i hr
        exact ⟨fun _ => hr, fun _ => rfl⟩
      · rename_i hr
        exact ⟨fun h => absurd h (by simp), fun h => absurd h hr⟩

/-- The first integer that is too large is stored as zero, and refused when it
is given raw. -/
theorem two_pow_256_stored : ¬Codec (fun _ => none) (2 ^ 256) ∧
    wayIn (fun _ => none) (2 ^ 256) = some 0 ∧
    get_balance_uint256 (fun _ => none) (.int (2 ^ 256)) = none := by
  have hin : wayIn (fun _ => none) (2 ^ 256) = some 0 := by
    rw [wayIn_eq, if_pos (by decide)]
    rfl
  have hr : ¬InRange (2 ^ 256) := by decide
  refine ⟨fun h => ?_, hin, ?_⟩
  · have hnone := h.rejected hr
    rw [hin] at hnone
    nomatch hnone
  · rw [get_balance_int, if_neg hr]

end Diode.L4.Balance
