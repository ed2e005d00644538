import Diode.L1Encoding.RlpWrite
import Diode.L4Evm.Transaction

/-!
# Transactions on the wire

`Transaction.to_rlp` and `Transaction.from_rlp` with the packing of recovery id
and chain id into one number, the message that is signed and the hash.

* `wire_round_trip`: a signed transaction is read back as it was, with the same
  hash, message, chain id and sender.
-/
namespace Diode.L4
open Diode.Core Diode.L1.Rlp

namespace Secp256k1

/-- mirrors lib/secp256k1.ex:149-158 -/
def bitcoin_to_rlp (signature : Bytes) (chain_id : Option Nat) : Option (Nat × Nat × Nat) :=
  match signature with
  | [] => none
  | recid :: rest =>
    if rest.length = 64 then
      match chain_id with
      | none => some (recid.toNat + 27, ofBe (rest.take 32), ofBe (rest.drop 32))
      | some chain_id => some (chain_id * 2 + recid.toNat + 35, ofBe (rest.take 32),
          ofBe (rest.drop 32))
    else none

/-- Three empty strings stand for no signature, here the empty one.
mirrors lib/secp256k1.ex:124-136 -/
def rlp_to_bitcoin (rec r s : Bytes) : Option Bytes :=
  if rec = [] ∧ r = [] ∧ s = [] then some []
  else if r.length ≤ 32 ∧ s.length ≤ 32 then some
    (UInt8.ofNat (1 - ofBe rec % 2) :: (be 32 (ofBe r) ++ be 32 (ofBe s)))
  else none

/-- mirrors lib/secp256k1.ex:138-147 -/
def chain_id (rec : Bytes) : Option Nat :=
  let num := ofBe rec
  if 35 ≤ num then
    let odd := 1 - num % 2
    some ((num - (35 + odd)) / 2)
  else none

end Secp256k1

namespace Rlpx

/-- A recipient is a binary of 20 bytes; one of another length has no place in
the record.
mirrors lib/rlpx.ex:64-70 -/
def bin2addr (bin : Bytes) : Option (Option Addr) :=
  if bin = [] then some none else if bin.length = 20 then some
    (some (BitVec.ofNat 160 (ofBe bin))) else none

end Rlpx

namespace Transaction

/-- The six fields that are signed. -/
def fields (tx : Transaction) : List Item :=
  [.num tx.nonce, .num tx.gasPrice, .num tx.gasLimit, .opt (tx.to_addr.map Addr.bytes),
    .num tx.value, .bin tx.payload]

/-- mirrors lib/chain/transaction.ex:125-129 -/
def to_rlp (tx : Transaction) : Option (List Item) :=
  (Secp256k1.bitcoin_to_rlp tx.signature tx.chain_id).map fun (v, r, s) =>
    tx.fields ++ [.num v, .num r, .num s]

/-- mirrors lib/chain/transaction.ex:35-52 -/
def from_rlp (bin : Bytes) : Option Transaction :=
  match decode bin with
  | some (.list [.bin nonce, .bin gas_price, .bin gas_limit, .bin to_addr, .bin value, .bin init,
      .bin rec, .bin r, .bin s]) => do
    let to_addr ← Rlpx.bin2addr to_addr
    let signature ← Secp256k1.rlp_to_bitcoin rec r s
    some
      { nonce := ofBe nonce
        gasPrice := ofBe gas_price
        gasLimit := ofBe gas_limit
        to_addr
        value := ofBe value
        init := if to_addr = none then some init else none
        data := if to_addr ≠ none then some init else none
        signature
        chain_id := Secp256k1.chain_id rec }
  | _ => none

/-- mirrors lib/chain/transaction.ex:164-181 -/
def to_message (tx : Transaction) : Bytes :=
  match tx.chain_id with
  | none => encode (.list tx.fields)
  | some 0 => encode (.list tx.fields)
  | some chain_id => encode (.list (tx.fields ++ [.num chain_id, .num 0, .num 0]))

/-- `RemoteChain.transaction_hash` gives the hash function of a chain.
mirrors lib/chain/transaction.ex:158-161 -/
def hash (transaction_hash : Option Nat → Bytes → Word) (tx : Transaction) : Option Word :=
  tx.to_rlp.map fun items => transaction_hash tx.chain_id (encode (.list items))

/-- `Secp256k1.recover!` gives the key a message was signed with.
mirrors lib/chain/transaction.ex:131-148 -/
def origin (recover : Bytes → Bytes → Option Addr) (tx : Transaction) : Option Addr :=
    recover tx.signature tx.to_message

/-- The transaction with its text given: the empty string for `nil`, `init` for
a creation and `data` for a call. -/
def normal (tx : Transaction) : Transaction :=
  match tx.to_addr with
  | none => { tx with init := some (tx.init.getD []), data := none }
  | some _ => { tx with init := none, data := some (tx.data.getD []) }

/-- A signature with recovery id 0 or 1. -/
def Signed (tx : Transaction) : Prop := ∃ rec r s, tx.signature = rec :: (r ++ s) ∧ r.length = 32 ∧
    s.length = 32 ∧ rec.toNat ≤ 1

end Transaction

/-! ## One number for two ids -/

namespace Secp256k1

/-- The numbers of a signature: the packed one and two of at most 32 bytes. -/
theorem bitcoin_to_rlp_spec {rec : UInt8} {r s : Bytes} (hr : r.length = 32) (hs : s.length = 32)
    (c : Option Nat) :
    bitcoin_to_rlp (rec :: (r ++ s)) c =
      some (match c with
        | none => (rec.toNat + 27, ofBe r, ofBe s)
        | some chain_id => (chain_id * 2 + rec.toNat + 35, ofBe r, ofBe s)) := by
  unfold bitcoin_to_rlp
  have htake : (r ++ s).take 32 = r := by rw [← hr, List.take_left]
  have hdrop : (r ++ s).drop 32 = s := by rw [← hr, List.drop_left]
  have hlen : (r ++ s).length = 64 := by rw [List.length_append, hr, hs]
  dsimp only
  rw [if_pos hlen, htake, hdrop]
  cases c <;> rfl

/-- The number a recovery id and a chain id are packed into. -/
def packed (rec : Nat) : Option Nat → Nat
  | none => rec + 27
  | some chain_id => chain_id * 2 + rec + 35

theorem packed_none (rec : Nat) : packed rec none = rec + 27 := rfl

theorem packed_some (rec chain_id : Nat) : packed rec (some chain_id) = chain_id * 2 + rec + 35 := rfl

theorem chain_id_packed {rec : Nat} (h : rec ≤ 1) (c : Option Nat) :
    chain_id (unsigned (packed rec c)) = c := by
  unfold chain_id
  rw [ofBe_unsigned]
  cases c with
  | none =>
    rw [packed_none]
    exact if_neg (by omega)
  | some c =>
    rw [packed_some]
    have hodd : 1 - (c * 2 + rec + 35) % 2 = rec := by omega
    dsimp only
    rw [if_pos (by omega), hodd]
    congr 1
    omega

theorem recid_packed {rec : Nat} (h : rec ≤ 1) (c : Option Nat) : 1 - packed rec c % 2 = rec := by
  cases c with
  | none =>
    rw [packed_none]
    omega
  | some c =>
    rw [packed_some]
    omega

theorem packed_pos (rec : Nat) (c : Option Nat) : 0 < packed rec c := by
  cases c with
  | none => exact Nat.succ_pos _
  | some c => exact Nat.succ_pos _

theorem rlp_to_bitcoin_packed {rec : UInt8} {r s : Bytes} (hrec : rec.toNat ≤ 1)
    (hr : r.length = 32) (hs : s.length = 32)
    (c : Option Nat) :
    rlp_to_bitcoin (unsigned (packed rec.toNat c)) (unsigned (ofBe r)) (unsigned (ofBe s)) = some
      (rec :: (r ++ s)) := by
  have hne : unsigned (packed rec.toNat c) ≠ [] := fun e => by
    have h := congrArg ofBe e
    rw [ofBe_unsigned] at h
    exact absurd h (packed_pos _ c).ne'
  have hlen : ∀ {b : Bytes}, b.length = 32 → (unsigned (ofBe b)).length ≤ 32 := fun {b} hb => by
    have hlt := ofBe_lt b
    rw [hb] at hlt
    exact unsigned_length_le (k := 32) (hlt.trans_le (by rw [Nat.pow_mul]))
  have hbe : ∀ {b : Bytes}, b.length = 32 → be 32 (ofBe (unsigned (ofBe b))) = b := fun {b} hb => by
    rw [ofBe_unsigned, ← hb, be_ofBe]
  rw [rlp_to_bitcoin, if_neg fun h => hne h.1, if_pos ⟨hlen hr, hlen hs⟩, ofBe_unsigned,
    recid_packed hrec, hbe hr, hbe hs,
    UInt8.ofNat_toNat]

end Secp256k1

/-! ## The round trip -/

namespace Transaction
open Secp256k1

variable {tx : Transaction}

theorem bin2addr_opt (a : Option Addr) : Rlpx.bin2addr ((a.map Addr.bytes).getD []) = some a := by
  cases a with
  | none => rfl
  | some a =>
    have hne : Addr.bytes a ≠ [] := fun e => by
      have := Addr.bytes_length a
      rw [e] at this
      simp at this
    change Rlpx.bin2addr (Addr.bytes a) = some (some a)
    rw [Rlpx.bin2addr, if_neg hne, if_pos (Addr.bytes_length a), Addr.ofBe_bytes]

/-- What is written of a signed transaction. -/
theorem to_rlp_signed {rec : UInt8} {r s : Bytes} (hsig : tx.signature = rec :: (r ++ s))
    (hr : r.length = 32) (hs : s.length = 32) :
    tx.to_rlp = some (tx.fields ++ [.num (packed rec.toNat tx.chain_id), .num (ofBe r),
      .num (ofBe s)]) := by
  rw [to_rlp, hsig, bitcoin_to_rlp_spec hr hs]
  cases tx.chain_id <;> rfl

theorem fields_normal (tx : Transaction) : tx.normal.fields = tx.fields := by
  obtain ⟨nonce, gasPrice, gasLimit, to_addr, value, chain_id, signature, init, data⟩ := tx
  cases to_addr <;> rfl

theorem signature_normal (tx : Transaction) : tx.normal.signature = tx.signature := by
  obtain ⟨nonce, gasPrice, gasLimit, to_addr, value, chain_id, signature, init, data⟩ := tx
  cases to_addr <;> rfl

theorem chain_id_normal (tx : Transaction) : tx.normal.chain_id = tx.chain_id := by
  obtain ⟨nonce, gasPrice, gasLimit, to_addr, value, chain_id, signature, init, data⟩ := tx
  cases to_addr <;> rfl

/-- **The wire form of a transaction.** A signed one, legacy or of any chain,
call or creation, is read back as it was, its text given; hash, signed message
and sender are the same. -/
theorem wire_round_trip (tx : Transaction) (h : tx.Signed)
    (hsize : ∀ items, tx.to_rlp = some items → (encode_list items).length < 2 ^ 64) :
    ∃ items, tx.to_rlp = some items ∧ from_rlp (encode (.list items)) = some tx.normal ∧
      (∀ f, tx.normal.hash f = tx.hash f) ∧ tx.normal.to_message = tx.to_message ∧
        tx.normal.chain_id = tx.chain_id ∧
      ∀ recover, tx.normal.origin recover = tx.origin recover := by
  obtain ⟨rec, r, s, hsig, hr, hs, hrec⟩ := h
  have hitems := to_rlp_signed hsig hr hs
  have hmsg : tx.normal.to_message = tx.to_message := by
    unfold to_message
    rw [chain_id_normal, fields_normal]
  refine ⟨_, hitems, ?_, fun f => ?_, hmsg, chain_id_normal tx, fun recover => ?_⟩
  · have hdecode := (rlp_round_trip (.list _) (hsize _ hitems)).1
    unfold from_rlp
    rw [hdecode]
    simp only [fields, num_eq, Item.opt, List.cons_append, List.nil_append, ofBe_unsigned, bin2addr_opt,
      rlp_to_bitcoin_packed hrec hr hs, chain_id_packed hrec, Option.bind_eq_bind,
        Option.bind_some, ← hsig]
    obtain ⟨nonce, gasPrice, gasLimit, to_addr, value, chain_id, signature, init, data⟩ := tx
    cases to_addr <;> rfl
  · unfold hash to_rlp
    rw [signature_normal, chain_id_normal, fields_normal]
  · unfold origin
    rw [signature_normal, hmsg]

/-- A creation without text, on chain 15. -/
def empty_creation : Transaction :=
  { nonce := 0
    gasPrice := 1
    gasLimit := 100000
    to_addr := none
    value := 0
    chain_id := some 15
    signature := 1 :: (List.replicate 32 2 ++ List.replicate 32 3)
    init := none
    data := none }

theorem wire_round_trip_empty :
    ∃ items, empty_creation.to_rlp = some items ∧ from_rlp (encode (.list items)) =
      some empty_creation.normal ∧
      (∀ f, empty_creation.normal.hash f = empty_creation.hash f) ∧
      empty_creation.normal.to_message = empty_creation.to_message ∧
        empty_creation.normal.chain_id = empty_creation.chain_id ∧
      ∀ recover, empty_creation.normal.origin recover = empty_creation.origin recover :=
  wire_round_trip empty_creation ⟨1, List.replicate 32 2, List.replicate 32 3, rfl, rfl, rfl,
    le_refl _⟩ fun items h => by
    obtain rfl := Option.some.inj h
    decide +kernel

end Transaction
end Diode.L4
