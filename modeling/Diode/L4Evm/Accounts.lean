import Diode.L4Evm.State
import Mathlib.Data.Int.ModEq

/-!
# Account records of the chain state

`Chain.State.account` reads an account into a record; `set_account` writes a
record back and keeps the storage of the account. All values of `Chain.State`
that a transaction derives from one another name one native map, so a write
through any of them is seen through all of them: there is one `State`, and
every operation below takes the current one and leaves the next.

`none` is a raise: `encode_balance` has no clause for a negative balance, and
the native `put` refuses a nonce of 2^64.
-/
namespace Diode.L4
open Diode.Core Diode.L3

/-- `Chain.Account`, the fields that are written back. A missing code is the
empty one.
mirrors lib/chain/account.ex:5 -/
structure Record where
  nonce : Nat
  balance : Int
  code : Bytes
  deriving DecidableEq

namespace Record

/-- `Chain.Account.new(nonce: nonce, balance: balance)`. -/
def new (nonce : Nat) (balance : Int) : Record := ⟨nonce, balance, []⟩

/-- The record can be handed to the account map. -/
def Writable (r : Record) : Prop := 0 ≤ r.balance ∧ r.nonce < 2 ^ 64

instance (r : Record) : Decidable r.Writable := inferInstanceAs (Decidable (_ ∧ _))

/-- The account that is stored; a balance above 256 bits loses the rest.
mirrors lib/caccount_map.ex:148-154 -/
def toAccount (r : Record) (storage : Tree) : Account :=
    ⟨BitVec.ofNat 64 r.nonce, BitVec.ofInt 256 r.balance, r.code, storage⟩

end Record

/-- What is read back of an account.
mirrors lib/chain/account.ex:46-55 -/
def toRecord (acc : Account) : Record := ⟨acc.nonce.toNat, acc.balance.toNat, acc.code⟩

namespace State

/-- mirrors lib/chain/state.ex:84-87 -/
def account (s : State) (a : Addr) : Option Record := (s.accounts.get a).map toRecord

/-- mirrors lib/chain/state.ex:93-100 -/
def ensure_account (s : State) (a : Addr) : Record := (s.account a).getD (Record.new 0 0)

/-- The state with one account written. -/
def place (s : State) (a : Addr) (r : Record) : State where
  accounts := s.accounts.put a (r.toAccount (s.storage a))
  words b acc h := by
    rw [SMap.get_put] at h
    split at h
    · cases h
      exact s.storage_words a
    · exact s.words b acc h

/-- mirrors lib/chain/state.ex:102-106, lib/caccount_map.ex:38-54 -/
def set_account (s : State) (a : Addr) (r : Record) : Option State := if r.Writable then some
    (s.place a r) else none

/-- mirrors lib/chain/state.ex:108-111 -/
def delete_account (s : State) (a : Addr) : State where
  accounts := s.accounts.del a
  words b acc h := by
    rw [SMap.get_del] at h
    split at h
    · cases h
    · exact s.words b acc h

def balance (s : State) (a : Addr) : Nat := (s.accounts.get a).elim 0 fun acc => acc.balance.toNat

/-! ## What an operation changes -/

variable {s : State} {a b : Addr} {r : Record}

theorem set_account_eq (h : r.Writable) : s.set_account a r = some (s.place a r) := if_pos h

theorem set_account_some {t : State} : s.set_account a r = some t ↔ r.Writable ∧ t = s.place a r := by
  unfold set_account
  split <;> simp_all [eq_comm]

theorem account_place (s : State) (a b : Addr) (r : Record) :
    (s.place a r).account b = if a = b then some (toRecord (r.toAccount (s.storage a)))
      else s.account b := by
  unfold account place
  dsimp only
  rw [SMap.get_put]
  split <;> rfl

theorem account_place_ne (h : a ≠ b) : (s.place a r).account b = s.account b := by
  rw [account_place, if_neg h]

theorem storage_place (s : State) (a b : Addr) (r : Record) :
    (s.place a r).storage b = s.storage b := by
  rw [show (s.place a r).storage b = ((s.place a r).accounts.get b).elim Tree.empty Account.storage from rfl, place]
  dsimp only
  rw [SMap.get_put]
  split
  · rename_i e
    subst e
    rfl
  · rfl

/-- A record that fits is read back as it was written. -/
theorem toRecord_toAccount (h : r.Writable) (hb : r.balance < 2 ^ 256) (t : Tree) :
    toRecord (r.toAccount t) = r := by
  obtain ⟨h0, hn⟩ := h
  obtain ⟨n, m, c⟩ := r
  dsimp only at h0 hn hb
  obtain ⟨k, rfl⟩ := Int.eq_ofNat_of_zero_le h0
  have hk : k < 2 ^ 256 := by exact_mod_cast hb
  simp only [toRecord, Record.toAccount, BitVec.toNat_ofNat, Nat.mod_eq_of_lt hn]
  rw [show BitVec.ofInt 256 (k : Int) = BitVec.ofNat 256 k from BitVec.ofInt_natCast ..,
    BitVec.toNat_ofNat,
    Nat.mod_eq_of_lt hk]

theorem account_place_self (h : r.Writable) (hb : r.balance < 2 ^ 256) :
    (s.place a r).account a = some r := by
  rw [account_place, if_pos rfl, toRecord_toAccount h hb]

/-- What is read is in range. -/
theorem account_bounds (h : s.account a = some r) : r.Writable ∧ r.balance < 2 ^ 256 := by
  obtain ⟨acc, -, rfl⟩ := Option.map_eq_some_iff.1 h
  have h1 := acc.balance.isLt
  have h2 := acc.nonce.isLt
  refine ⟨⟨?_, h2⟩, ?_⟩
  · exact Int.natCast_nonneg _
  · show ((acc.balance.toNat : Nat) : Int) < 2 ^ 256
    exact_mod_cast h1

theorem ensure_account_bounds (s : State) (a : Addr) : (s.ensure_account a).Writable ∧
    (s.ensure_account a).balance < 2 ^ 256 := by
  unfold ensure_account
  cases h : s.account a with
  | none => exact ⟨by decide, by decide⟩
  | some r => exact account_bounds h

theorem ensure_account_balance (s : State) (a : Addr) : (s.ensure_account a).balance = s.balance a := by
  unfold ensure_account account balance
  cases s.accounts.get a <;> rfl

theorem balance_of_account (h : s.account a = some r) : r.balance = s.balance a := by
  rw [← ensure_account_balance, ensure_account, h, Option.getD_some]

theorem balance_lt (s : State) (a : Addr) : s.balance a < 2 ^ 256 := by
  unfold balance
  cases s.accounts.get a with
  | none => exact Nat.pow_pos (by decide)
  | some acc => exact acc.balance.isLt

theorem balance_place (s : State) (a b : Addr) (r : Record) :
    (s.place a r).balance b = if a = b then (BitVec.ofInt 256 r.balance).toNat else s.balance b := by
  unfold balance place
  dsimp only
  rw [SMap.get_put]
  split <;> rfl

/-- What is written is read back up to multiples of 2^256. -/
theorem balance_place_self (s : State) (a : Addr) (r : Record) :
    Int.ModEq (2 ^ 256) ((s.place a r).balance a) r.balance := by
  rw [balance_place, if_pos rfl, BitVec.toNat_ofInt, Int.toNat_of_nonneg
    (Int.emod_nonneg _ (by decide))]
  exact Int.mod_modEq ..

/-- A write that leaves the balance alone. -/
theorem balance_place_same {r' : Record} (h : s.account a = some r) (hb : r'.balance = r.balance) :
    (s.place a r').balance b = s.balance b := by
  rw [balance_place]
  split
  · rename_i e
    subst e
    have hlt := s.balance_lt a
    rw [hb, balance_of_account h, BitVec.ofInt_natCast, BitVec.toNat_ofNat, Nat.mod_eq_of_lt hlt]
  · rfl

/-- Writing back what was read changes nothing. -/
theorem place_self (h : s.account a = some r) : s.place a r = s := by
  obtain ⟨acc, hacc, rfl⟩ := Option.map_eq_some_iff.1 h
  have hs : s.storage a = acc.storage := by
    unfold storage
    rw [hacc, Option.elim_some]
  have ht : (toRecord acc).toAccount acc.storage = acc := by
    obtain ⟨n, m, c, t⟩ := acc
    simp only [toRecord, Record.toAccount, BitVec.ofNat_toNat, BitVec.setWidth_eq, BitVec.ofInt_natCast]
  have he : (s.place a (toRecord acc)).accounts = s.accounts := by
    show s.accounts.put a _ = _
    rw [hs, ht, SMap.put_get_self _ hacc]
  obtain ⟨m, w⟩ := s
  cases hp : State.place ⟨m, w⟩ a (toRecord acc)
  rw [hp] at he
  cases he
  rfl

end State

/-! ## The native calls -/

section
variable {sha : Bytes → Word} {v : View} {a : Addr} {s : State}

/-- mirrors lib/caccount_map.ex:148-154 -/
def encode_balance (balance : Nat) : Term :=
  if balance ≤ 0xFFFFFFFFFFFFFFFF then .int balance else .bin (be 32 balance)

theorem ofBe_be_32 (n : Nat) : ofBe (be 32 n) = n % 2 ^ 256 := by
  have h := @ofBe_be 32 (n % 256 ^ 32) (Nat.mod_lt _ (Nat.pow_pos (by decide)))
  rw [be_mod, show (256 : Nat) ^ 32 = 2 ^ 256 from by decide] at h
  exact h

theorem getBalance_bin {b : Bytes} (h : b.length = 32) : (Term.bin b).getBalance = some
    (BitVec.ofNat 256 (ofBe b)) := by
  unfold Term.getBalance
  dsimp only
  rw [h, if_pos (by decide)]

theorem getBalance_int {n : Nat} (h : n < 2 ^ 256) : (Term.int n).getBalance = some
    (BitVec.ofNat 256 n) := by
  unfold Term.getBalance
  dsimp only
  rw [if_pos ⟨by omega, by omega⟩, BitVec.ofInt_natCast]

theorem ofNat_mod (n : Nat) : BitVec.ofNat 256 (n % 2 ^ 256) = BitVec.ofNat 256 n := by
  apply BitVec.eq_of_toNat_eq
  rw [BitVec.toNat_ofNat, BitVec.toNat_ofNat, Nat.mod_mod]

theorem getBalance_encode (n : Nat) : (encode_balance n).getBalance = some (BitVec.ofNat 256 n) := by
  rcases Nat.lt_or_ge 0xFFFFFFFFFFFFFFFF n with h | h
  · rw [encode_balance, if_neg (Nat.not_le.2 h), getBalance_bin (be_length 32 n), ofBe_be_32, ofNat_mod]
  · rw [encode_balance, if_pos h]
    exact getBalance_int (by omega)

theorem putEdits_keep {addr nonce balance code : Term} {n : BitVec 64} {b : Word} {c : Bytes}
    (ha : addr.getAddress = some a)
    (hn : nonce.getUint64 = some n) (hb : balance.getBalance = some b) (hc : code.getCode = some c) :
    putEdits addr nonce balance (.atom .keep) code = [.ensure a] ++ [.fields a n b c, .seal a] := by
  unfold putEdits
  rw [ha, hn, hb, hc]
  rfl

theorem run_put (n : BitVec 64) (b : Word) (c : Bytes) :
    ∃ w, v.run sha ([.ensure a] ++ [.fields a n b c, .seal a]) = (w, none) ∧
      w.accounts = v.accounts.put a ⟨n, b, c, v.storage a⟩ := by
  rw [View.run_append, run_ensure rfl]
  dsimp only
  rw [View.run, View.edit, View.update_withAccount]
  dsimp only
  rw [View.run, View.edit, View.get_withAccount]
  refine ⟨_, rfl, ?_⟩
  show v.accounts.put a _ = v.accounts.put a _
  unfold View.storage
  cases v.accounts.get a <;> rfl

/-- **`set_account`** is the native put that keeps the storage. -/
theorem run_set_account (h : v.accounts = s.accounts) {r : Record} (hr : r.Writable) :
    ∃ w, v.run sha (putEdits (.ofAddr a) (.int r.nonce) (encode_balance r.balance.toNat)
      (.atom .keep) (.bin r.code)) = (w, none) ∧
      w.accounts = (s.place a r).accounts := by
  obtain ⟨h0, hlt⟩ := hr
  have hn : (Term.int r.nonce).getUint64 = some (BitVec.ofNat 64 r.nonce) := by
    unfold Term.getUint64
    dsimp only
    rw [if_pos ⟨by omega, by omega⟩, BitVec.ofInt_natCast]
  have hb : BitVec.ofInt 256 r.balance = BitVec.ofNat 256 r.balance.toNat := by
    rw [← BitVec.ofInt_natCast, Int.toNat_of_nonneg h0]
  have hs : v.storage a = s.storage a := by
    unfold View.storage State.storage
    rw [h]
  obtain ⟨w, hw, ha⟩ := @run_put sha v a (BitVec.ofNat 64 r.nonce)
    (BitVec.ofNat 256 r.balance.toNat) r.code
  refine ⟨w, ?_, ?_⟩
  · rw [putEdits_keep (Term.getAddress_ofAddr a) hn (getBalance_encode _) rfl]
    exact hw
  · rw [ha, h, hs, ← hb]
    rfl

/-- **`delete_account`** is the native delete. -/
theorem run_delete_account (h : v.accounts = s.accounts) :
    ∃ w, v.run sha (deleteEdits (.ofAddr a)) = (w, none) ∧
      w.accounts = (s.delete_account a).accounts := by
  unfold deleteEdits
  simp only [Term.getAddress_ofAddr]
  rw [View.run, View.edit]
  refine ⟨_, rfl, ?_⟩
  rw [show (s.delete_account a).accounts = v.accounts.del a by rw [h]; rfl]
  split
  · rfl
  · rename_i hn
    refine SMap.ext fun b => ?_
    rw [SMap.get_del]
    split
    · rename_i e
      subst e
      simpa using hn
    · rfl

end
end Diode.L4
