import Diode.Core.Bytes

/-!
# Transactions

The record of a transaction and what `Transaction.apply` decides before it runs
one: the nonce must be the sender's, and its balance must cover the value and
the fee for all of the gas.
-/
namespace Diode.L4
open Diode.Core

structure Transaction where
  nonce : Nat
  gasPrice : Nat
  gasLimit : Nat
  to_addr : Option Addr
  value : Nat
  chain_id : Option Nat
  signature : Bytes
  init : Option Bytes
  data : Option Bytes
  deriving DecidableEq

namespace Transaction

/-- mirrors lib/chain/transaction.ex:29-32 -/
def payload (tx : Transaction) : Bytes :=
  match tx.to_addr with
  | none => tx.init.getD []
  | some _ => tx.data.getD []

/-- mirrors lib/chain/transaction.ex:111-114 -/
def contract_creation (tx : Transaction) : Bool := tx.to_addr.isNone

/-- mirrors lib/chain/transaction.ex:96-108: the other fields are natural numbers. -/
def validate (tx : Transaction) : Bool := tx.signature.length = 65

/-- The fee for all of the gas. -/
def fee (tx : Transaction) : Nat := tx.gasLimit * tx.gasPrice

end Transaction

inductive Refusal where
  | not_enough_balance
  | nonce_too_high
  | wrong_nonce
  deriving DecidableEq

/-- The nonce and the balance of the sender once nonce, value and fee are taken,
lib/chain/transaction.ex:200-217. -/
def charge (tx : Transaction) (nonce balance : Nat) : Except Refusal (Nat × Nat) :=
  if nonce = tx.nonce then
    if balance < tx.value + tx.fee then .error .not_enough_balance
    else .ok (nonce + 1, balance - tx.value - tx.fee)
  else if nonce < tx.nonce then .error .nonce_too_high
  else .error .wrong_nonce

end Diode.L4
