import Diode.L1Encoding.Rlp
import Diode.L3State.Tree

/-!
# Erlang terms at the native interface

The terms the account-map functions of c_src/nif.cpp receive and build, and
the routines that decode them. A map is the list of its entries in the order
its iterator visits them, so a statement about every term is a statement
about every order.
-/
namespace Diode.L3
open Diode.Core Diode.L1.Ext

/-- The atoms the account map tells apart; `struct` is `__struct__`, the two
`mapMerkleTree` forms are `MapMerkleTree` and `Elixir.MapMerkleTree`,
`chainAccount` is `Elixir.Chain.Account`. -/
inductive Atom where
  | nil | keep | state | nonce | balance | code | storage_root | root_hash | code_hash | map_backed
  | struct | chainAccount | mapMerkleTree | elixirMapMerkleTree | falseAtom
  | undefined | list | size | get | range
  | other (n : Nat)
  deriving DecidableEq, Repr

inductive Term where
  | atom (a : Atom)
  | int (n : Int)
  | bin (b : Bytes)
  | nil
  | cons (head tail : Term)
  | tuple (elems : List Term)
  | map (entries : List (Term × Term))
  /-- floats, pids, references, functions -/
  | other (n : Nat)

namespace Term

/-- The heads an `enif_get_list_cell` loop visits; the tail of an improper list
ends the loop. -/
def cells : Term → List Term
  | cons head tail => head :: cells tail
  | _ => []

/-- `enif_is_list`. -/
def isList : Term → Bool
  | nil => true
  | cons _ _ => true
  | _ => false

def ofList : List Term → Term
  | [] => nil
  | t :: l => cons t (ofList l)

theorem cells_ofList (l : List Term) : (ofList l).cells = l := by
  induction l with
  | nil => rfl
  | cons t l ih => rw [ofList, cells, ih]

/-- mirrors c_src/nif.cpp:1545-1553 -/
def isAtom (t : Term) (name : Atom) : Bool :=
  match t with
  | atom a => a = name
  | _ => false

/-- `enif_get_tuple` with arity 2. -/
def pair? : Term → Option (Term × Term)
  | tuple [a, b] => some (a, b)
  | _ => none

/-- `enif_inspect_binary`. -/
def bin? : Term → Option Bytes
  | bin b => some b
  | _ => none

/-- The entries an `ErlNifMapIterator` visits. -/
def entries? : Term → Option (List (Term × Term))
  | map l => some l
  | _ => none

/-- A binary of exactly 32 bytes, as a word. -/
def word? : Term → Option Word
  | bin b => if b.length = 32 then some (BitVec.ofNat 256 (ofBe b)) else none
  | _ => none

/-- mirrors c_src/nif.cpp:453-461 -/
def getAddress : Term → Option Addr
  | bin b => if b.length = 20 then some (BitVec.ofNat 160 (ofBe b)) else none
  | _ => none

/-- `enif_get_uint64`. -/
def getUint64 : Term → Option (BitVec 64)
  | int n => if 0 ≤ n ∧ n < 2 ^ 64 then some (BitVec.ofInt 64 n) else none
  | _ => none

/-- `get_balance_uint256`: an integer below 2^256 or a binary of at most 32
bytes. Integers above 64 bits take the way through `enif_term_to_binary`.
mirrors c_src/nif.cpp:463-573 -/
def getBalance : Term → Option Word
  | int n => if 0 ≤ n ∧ n < 2 ^ 256 then some (BitVec.ofInt 256 n) else none
  | bin b => if 0 < b.length ∧ b.length ≤ 32 then some (BitVec.ofNat 256 (ofBe b)) else none
  | _ => none

/-- mirrors c_src/nif.cpp:602-619 -/
def getCode : Term → Option Bytes
  | atom .nil => some []
  | bin b => some b
  | _ => none

/-- mirrors c_src/nif.cpp:1578-1590 -/
def getStorageValue : Term → Option Word
  | atom .nil => some 0
  | t => t.word?

def lookup (l : List (Term × Term)) (key : Atom) : Option Term :=
  match l with
  | [] => none
  | (atom a, v) :: l => if a = key then some v else lookup l key
  | _ :: l => lookup l key

/-- mirrors c_src/nif.cpp:2093-2100 -/
def mapGetAtom (t : Term) (key : Atom) : Option Term := t.entries?.bind fun l => lookup l key

/-- A slot of a key-value list: a tuple of two 32-byte binaries.
mirrors c_src/nif.cpp:1012-1021 -/
def slot32? (t : Term) : Option Pair := do
  let (k, v) ← t.pair?
  let k ← k.bin?
  if k.length = 32 then some (k, ← v.word?) else none

/-- mirrors c_src/nif.cpp:997-1033 -/
def storageFromKvList (t : Term) : Option Tree := (t.cells.mapM slot32?).map Tree.ofSlots

/-- The storage payload of `account_map_put` other than `:keep`.
mirrors c_src/nif.cpp:1088-1099 -/
def storagePayload : Term → Option Tree
  | atom .nil => some Tree.empty
  | nil => some Tree.empty
  | cons head tail => storageFromKvList (cons head tail)
  | _ => none

/-! ## Building -/

def ofWord (w : Word) : Term := bin (Word.bytes w)

def ofAddr (a : Addr) : Term := bin (Addr.bytes a)

/-- mirrors c_src/nif.cpp:575-600 -/
def ofBalance (balance : Word) : Term :=
  if balance.toNat < 2 ^ 64 then int balance.toNat else bin (L1.Rlp.unsigned balance.toNat)

/-- mirrors c_src/nif.cpp:621-633 -/
def ofCode (code : Bytes) : Term := bin code

theorem getAddress_ofAddr (a : Addr) : (ofAddr a).getAddress = some a := by
  unfold ofAddr getAddress
  dsimp only
  rw [if_pos (Addr.bytes_length a), Addr.bytes, ofBe_be (by have := a.isLt; omega), BitVec.ofNat_toNat,
    BitVec.setWidth_eq]

theorem word?_ofWord (w : Word) : (ofWord w).word? = some w := by
  unfold ofWord word?
  dsimp only
  rw [if_pos (Word.bytes_length w), Word.bytes, ofBe_be (by have := w.isLt; omega), BitVec.ofNat_toNat,
    BitVec.setWidth_eq]

theorem getStorageValue_ofWord (w : Word) : (ofWord w).getStorageValue = some w := word?_ofWord w

theorem getUint64_int (n : BitVec 64) : (int n.toNat).getUint64 = some n := by
  have := n.isLt
  unfold getUint64
  dsimp only
  rw [if_pos ⟨by omega, by omega⟩, BitVec.ofInt_natCast, BitVec.ofNat_toNat, BitVec.setWidth_eq]

theorem getBalance_int (w : Word) : (int w.toNat).getBalance = some w := by
  have := w.isLt
  unfold getBalance
  dsimp only
  rw [if_pos ⟨by omega, by omega⟩, BitVec.ofInt_natCast, BitVec.ofNat_toNat, BitVec.setWidth_eq]

end Term
end Diode.L3
