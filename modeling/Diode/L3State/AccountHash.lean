import Diode.L1Encoding.RlpWrite
import Diode.L3State.AccountMap

/-!
# Two account hashes

The hash of an account as the native map computes it, on words of 64 and 256
bits, and as `Chain.Account.hash` does, on integers: the C++ encoder of
c_src/rlp.cpp byte by byte against `Rlp.encode!`.

* `account_hash_eq`: they are equal, for every hash function.
-/
namespace Diode.L3
open Diode.Core Diode.L1 Diode.L1.Rlp

/-! ## The native side -/

namespace Native

/-- The bytes of a word of `n` bytes, low first, while any are left.
mirrors c_src/rlp.cpp:13-18, 46-50 -/
def low_bytes : Nat → Nat → Bytes
  | 0, _ => []
  | n + 1, tmp => if 0 < tmp then UInt8.ofNat (tmp &&& 0xFF) :: low_bytes n (tmp >>> 8) else []

/-- mirrors c_src/rlp.cpp:5-28 -/
def append_length_prefix (offset : Nat) (data : Bytes) : Bytes :=
  let size := data.length
  if size ≤ 55 then UInt8.ofNat (offset + size) :: data
  else
    let len_bytes := (low_bytes 8 size).reverse
    UInt8.ofNat (offset + 55 + len_bytes.length) :: (len_bytes ++ data)

/-- mirrors c_src/rlp.cpp:30-37 -/
def rlp_encode_bytes (data : Bytes) : Bytes :=
  match data with
  | [x] => if x < 0x80 then [x] else append_length_prefix 0x80 data
  | _ => append_length_prefix 0x80 data

/-- mirrors c_src/rlp.cpp:39-58 -/
def rlp_encode_uint64 (value : BitVec 64) : Bytes :=
  if value = 0 then rlp_encode_bytes [] else rlp_encode_bytes (low_bytes 8 value.toNat).reverse

/-- mirrors c_src/rlp.cpp:60-71 -/
def rlp_encode_uint256 (value : Word) : Bytes :=
  let rest := (Word.bytes value).dropWhile fun b => b = 0
  if rest = [] then rlp_encode_bytes [] else rlp_encode_bytes rest

/-- mirrors c_src/rlp.cpp:73-83 -/
def rlp_encode_list (item0 item1 item2 item3 : Bytes) : Bytes :=
  append_length_prefix 0xC0 (item0 ++ item1 ++ item2 ++ item3)

variable (sha : Bytes → Word)

/-- The code's hash is given, or the one taken when the library was loaded for
an account without code, or computed.
mirrors c_src/nif.cpp:906-944 -/
def compute (nonce : BitVec 64) (balance : Word) (code : Bytes) (storage_root : Word)
    (code_hash_override : Option Word) : Word :=
  let code_hash := match code_hash_override with
    | some h => h
    | none => if code.isEmpty then sha [] else sha code
  sha (rlp_encode_list (rlp_encode_uint64 nonce) (rlp_encode_uint256 balance)
    (rlp_encode_bytes (Word.bytes storage_root))
    (rlp_encode_bytes (Word.bytes code_hash)))

end Native

/-! ## The Elixir side -/

/-- What `Chain.Account.hash` reads of an account: `root_hash` is a binary of 32
bytes.
mirrors lib/chain/account.ex:5-31 -/
structure ChainAccount where
  nonce : Nat
  balance : Nat
  root_hash : Word
  code : Option Bytes

namespace ChainAccount
variable (sha : Bytes → Word)

/-- mirrors lib/chain/account.ex:88-95 -/
def codehash (account : ChainAccount) : Word :=
  match account.code with
  | none => sha []
  | some code => sha code

/-- mirrors lib/chain/account.ex:73-81 -/
def to_rlp (account : ChainAccount) : Item :=
  .list [.num account.nonce, .num account.balance, .bin (Word.bytes account.root_hash),
    .bin (Word.bytes (account.codehash sha))]

/-- mirrors lib/chain/account.ex:83-86 -/
def hash (account : ChainAccount) : Word := sha (encode (account.to_rlp sha))

end ChainAccount

/-! ## The encoders agree -/

namespace Native

/-- The loop takes all bytes of a word. -/
theorem low_bytes_reverse : ∀ {n v : Nat}, v < 256 ^ n → (low_bytes n v).reverse = unsigned v
  | 0, v, h => by
    obtain rfl : v = 0 := by simpa using h
    rfl
  | n + 1, v, h => by
    unfold low_bytes
    by_cases hv : 0 < v
    · have hlt : v / 256 < 256 ^ n := by
        rw [Nat.div_lt_iff_lt_mul (by decide)]
        rwa [Nat.pow_succ] at h
      have hand : v &&& 0xFF = v % 256 := Nat.and_two_pow_sub_one_eq_mod v 8
      have hshift : v >>> 8 = v / 256 := Nat.shiftRight_eq_div_pow v 8
      rw [if_pos hv, List.reverse_cons, hand, hshift, low_bytes_reverse hlt, unsigned_snoc hv]
    · obtain rfl : v = 0 := by omega
      rfl

/-- What is left of a word without its leading zeros. -/
theorem dropWhile_be : ∀ (n v : Nat), v < 256 ^ n → (be n v).dropWhile (fun b => b = 0) = unsigned v
  | 0, v, h => by
    obtain rfl : v = 0 := by simpa using h
    rfl
  | n + 1, v, h => by
    have hlt : v / 256 < 256 ^ n := by
      rw [Nat.div_lt_iff_lt_mul (by decide)]
      rwa [Nat.pow_succ] at h
    rw [be, List.dropWhile_append, dropWhile_be n (v / 256) hlt]
    by_cases hv : v / 256 = 0
    · have hb : v % 256 = v := by omega
      have hempty : unsigned 0 = [] := rfl
      rw [hv, hb, hempty, List.isEmpty_nil, if_pos rfl]
      by_cases h0 : v = 0
      · subst h0
        rfl
      · have hne : UInt8.ofNat v ≠ 0 := fun e => by
          have := congrArg UInt8.toNat e
          rw [UInt8.toNat_ofNat', UInt8.toNat_zero] at this
          omega
        rw [unsigned_snoc (by omega), hv, hb]
        simp only [List.dropWhile, hne, decide_false]
        rfl
    · have hpos : unsigned (v / 256) ≠ [] := fun e => by
        have := byteSize_pos (Nat.pos_of_ne_zero hv)
        have hlen : (unsigned (v / 256)).length = byteSize (v / 256) := be_length ..
        rw [e] at hlen
        simp at hlen
        omega
      rw [if_neg (by simpa using hpos), unsigned_snoc (n := v) (by omega)]

theorem append_length_prefix_eq {offset : Nat} {data : Bytes} (h : data.length < 2 ^ 64) :
    append_length_prefix offset data = with_length offset data := by
  unfold append_length_prefix
  by_cases hs : data.length ≤ 55
  · rw [with_length_short hs]
    exact if_pos hs
  · have hrev : (low_bytes 8 data.length).reverse = unsigned data.length := low_bytes_reverse h
    dsimp only
    rw [if_neg hs, with_length_long (by omega), hrev, unsigned, be_length]

theorem rlp_encode_bytes_eq : ∀ {data : Bytes}, data.length < 2 ^ 64 →
    rlp_encode_bytes data = encode (.bin data)
  | [], h => append_length_prefix_eq h
  | [x], h => by
    by_cases hx : x < 0x80
    · exact (if_pos hx).trans (if_pos hx).symm
    · exact (if_neg hx).trans ((append_length_prefix_eq h).trans (if_neg hx).symm)
  | _ :: _ :: _, h => append_length_prefix_eq h

theorem rlp_encode_uint64_eq (value : BitVec 64) : rlp_encode_uint64 value = encode
    (.num value.toNat) := by
  have hlen : (unsigned value.toNat).length ≤ 8 := unsigned_length_le (k := 8) value.isLt
  have hrev : (low_bytes 8 value.toNat).reverse = unsigned value.toNat := low_bytes_reverse value.isLt
  rw [num_eq, ← rlp_encode_bytes_eq (by omega), rlp_encode_uint64, hrev]
  by_cases h : value = 0
  · rw [if_pos h, h]
    rfl
  · rw [if_neg h]

theorem rlp_encode_uint256_eq (value : Word) : rlp_encode_uint256 value = encode
    (.num value.toNat) := by
  have hlen : (unsigned value.toNat).length ≤ 32 := unsigned_length_le (k := 32) value.isLt
  have hdrop : (Word.bytes value).dropWhile (fun b => b = 0) = unsigned value.toNat :=
    dropWhile_be 32 _ value.isLt
  rw [num_eq, ← rlp_encode_bytes_eq (by omega), rlp_encode_uint256, hdrop]
  by_cases h : unsigned value.toNat = []
  · rw [if_pos h, h]
  · exact if_neg h

end Native

/-- The four items of an account are far from 2^64 bytes. -/
theorem account_items_length (nonce : BitVec 64) (balance root code_hash : Word) :
    (encode (.num nonce.toNat) ++ encode (.num balance.toNat) ++ encode (.bin (Word.bytes root)) ++
      encode (.bin (Word.bytes code_hash))).length < 2 ^ 64 := by
  have hshort : ∀ data : Bytes, data.length ≤ 55 → (encode (.bin data)).length ≤ 56 := by
    intro data h
    unfold encode
    rcases encode_bin_cases data with ⟨x, -, -, he⟩ | he
    · rw [he]
      simp
    · rw [he, with_length_short h, List.length_cons]
      omega
  have h1 : (unsigned nonce.toNat).length ≤ 8 := unsigned_length_le (k := 8) nonce.isLt
  have h2 : (unsigned balance.toNat).length ≤ 32 := unsigned_length_le (k := 32) balance.isLt
  have h3 := hshort (unsigned nonce.toNat) (by omega)
  have h4 := hshort (unsigned balance.toNat) (by omega)
  have h5 := hshort (Word.bytes root) (by rw [Word.bytes_length]; decide)
  have h6 := hshort (Word.bytes code_hash) (by rw [Word.bytes_length]; decide)
  rw [num_eq, num_eq]
  simp only [List.length_append]
  omega

/-- The hash the account map's model has is the native one. -/
theorem accountHash_eq (sha : Bytes → Word) (nonce : BitVec 64) (balance root code_hash : Word)
    (code : Bytes) :
    Heap.accountHash sha nonce balance root code_hash = Native.compute sha nonce balance code root
      (some code_hash) := by
  have hword : ∀ w : Word, Native.rlp_encode_bytes (Word.bytes w) = encodeBytes (Word.bytes w) := fun w => by
    rw [Native.rlp_encode_bytes_eq (by rw [Word.bytes_length]; decide), encode, encode_bin_eq]
  have hlist : ∀ a b c d : Bytes, (a ++ b ++ c ++ d).length < 2 ^ 64 →
    Native.rlp_encode_list a b c d = encodeList a b c d := by
    intro a b c d h
    rw [Native.rlp_encode_list, Native.append_length_prefix_eq h, with_length_eq, encodeList]
  have hlen := account_items_length nonce balance root code_hash
  simp only [num_eq, encode, encode_bin_eq] at hlen
  unfold Heap.accountHash Native.compute
  dsimp only
  rw [hword, hword, Native.rlp_encode_uint64_eq, Native.rlp_encode_uint256_eq, num_eq, num_eq,
    encode, encode, encode_bin_eq,
    encode_bin_eq, hlist _ _ _ _ hlen, encodeUint64, encodeUint256]

/-- **One account, one hash.** The native hash of an account, whether or not the
caller passes the hash of its code, is the one `Chain.Account.hash` computes;
an account without code is `nil` or empty there. -/
theorem account_hash_eq (sha : Bytes → Word) (nonce : BitVec 64) (balance root : Word)
    (code : Option Bytes) :
    Native.compute sha nonce balance (code.getD []) root none =
        (ChainAccount.mk nonce.toNat balance.toNat root code).hash sha ∧
      Native.compute sha nonce balance (code.getD []) root (some (sha (code.getD []))) =
        (ChainAccount.mk nonce.toNat balance.toNat root code).hash sha := by
  have hcode : (ChainAccount.mk nonce.toNat balance.toNat root code).codehash sha = sha
    (code.getD []) := by
    cases code <;> rfl
  have hnone : (if (code.getD []).isEmpty then sha [] else sha (code.getD [])) = sha
    (code.getD []) := by
    split
    · rename_i h
      rw [List.isEmpty_iff.1 h]
    · rfl
  have hword : ∀ w : Word, (Word.bytes w).length < 2 ^ 64 := fun w => by
    rw [Word.bytes_length]
    decide
  have hlist : Native.rlp_encode_list (Native.rlp_encode_uint64 nonce)
    (Native.rlp_encode_uint256 balance)
      (Native.rlp_encode_bytes (Word.bytes root))
        (Native.rlp_encode_bytes (Word.bytes (sha (code.getD [])))) =
      encode ((ChainAccount.mk nonce.toNat balance.toNat root code).to_rlp sha) := by
    rw [Native.rlp_encode_list, Native.rlp_encode_uint64_eq, Native.rlp_encode_uint256_eq,
      Native.rlp_encode_bytes_eq (hword _),
      Native.rlp_encode_bytes_eq (hword _), Native.append_length_prefix_eq
        (account_items_length ..), ChainAccount.to_rlp, hcode]
    simp only [encode, encode_list, List.append_nil, List.append_assoc]
  unfold Native.compute ChainAccount.hash
  dsimp only
  rw [hnone, hlist]
  exact ⟨rfl, rfl⟩

end Diode.L3
