import Diode.L4Evm.Serve

/-!
# `Transaction.apply`

The sender pays value and fee and its nonce goes up, the recipient gets the
value, and the frame of the transaction runs on the state that is left; a
success gives back what the gas left is worth, a revert that and the value, any
other failure the value only. All states are the one native map, so a failure
writes the sender's record over whatever the run has left.

**Results.**
* `apply_ok`: what an application that succeeds has gone through.
* `loop_relates`: a relation that every write to the state keeps holds between
  the two ends of a run.
* `loop_end`: what a frame hands back of its gas, output and task.
-/
namespace Diode.L4
open Diode.Core Diode.L3

/-- `return_data` and `trace` are not set in a run without traces.
mirrors lib/chain/transaction_receipt.ex:5-12 -/
structure Receipt where
  msg : Status
  gas_used : Int
  evmout : Option Bytes
  data : Option Bytes
  logs : List (Addr × List Word × Bytes)

namespace Transaction
variable (e : Env)

/-- "Creating / finding destination account" -/
def destination (tx : Transaction) (s : State) : Record :=
  if tx.contract_creation then Record.new 1 0 else s.ensure_account (tx.to_address e)

/-- The accounts as the frame finds them.
mirrors lib/chain/transaction.ex:226-243 -/
def prepare (tx : Transaction) (s : State) (from_acc : Record) : Option State := do
  let acc := tx.destination e s
  let acc := { acc with balance := acc.balance + tx.value }
  let s ← s.set_account (e.origin tx) from_acc
  s.set_account (tx.to_address e) acc

/-- The code is read before anything is written.
mirrors lib/chain/transaction.ex:226-235, lib/evm.ex:286-314 -/
def task (tx : Transaction) (s : State) (number : Nat) (static : Bool) : Task where
  static := static
  source := e.origin tx
  tx := tx
  code := if tx.contract_creation then tx.payload else (s.ensure_account (tx.to_address e)).code
  number := number
  internal := false
  selfdestructs := []

/-- "The destination might be selfdestructed"
mirrors lib/chain/transaction.ex:257-266 -/
def deploy (tx : Transaction) (evm : Evm) (s : State) : Option State :=
  match s.account (tx.to_address e) with
  | none => some s
  | some acc => s.set_account (tx.to_address e)
      { acc with code := if tx.contract_creation then evm.out.getD [] else acc.code }

/-- mirrors lib/chain/transaction.ex:247-296 -/
def finish (tx : Transaction) (from_acc : Record) : Ret → Option (State × Receipt)
  | (.evmc_success, evm, s) => do
    let from_acc ← s.account (e.origin tx)
    let s ← s.set_account (e.origin tx) { from_acc with balance :=
      from_acc.balance + evm.gas * tx.gasPrice }
    let s ← tx.deploy e evm s
    some (s, ⟨.evmc_success, tx.gasLimit - evm.gas, evm.out, some evm.task.tx.payload, evm.logs⟩)
  | (.evmc_revert, evm, s) => do
    let s ← s.set_account (e.origin tx) { from_acc with balance :=
      from_acc.balance + evm.gas * tx.gasPrice + tx.value }
    some (s, ⟨.evmc_revert, tx.gasLimit - evm.gas, evm.out, none, []⟩)
  | (other, evm, s) => do
    let s ← s.set_account (e.origin tx) { from_acc with balance := from_acc.balance + tx.value }
    some (s, ⟨other, tx.gasLimit - evm.gas, evm.out, none, []⟩)

/-- mirrors lib/chain/transaction.ex:225-298 -/
def do_apply (script : Script) (tx : Transaction) (number : Nat) (static : Bool) (s : State)
    (from_acc : Record) :
    Option (State × Receipt) := do
  let s0 ← tx.prepare e s from_acc
  let ret ← Evm.eval e script (tx.task e s number static).evm s0
  tx.finish e from_acc ret

/-- The sender's record once nonce, value and fee are taken. -/
def charged (tx : Transaction) (from_acc : Record) : Except Refusal Record :=
  (charge tx from_acc.nonce from_acc.balance.toNat).map fun (nonce, balance) =>
    { from_acc with nonce := nonce, balance := balance }

/-- `script` is what the interpreter does, `number` the height of the block.
mirrors lib/chain/transaction.ex:185-223 -/
def apply (script : Script) (tx : Transaction) (number : Nat) (static : Bool) (s : State) :
    Option (Except Refusal (State × Receipt)) :=
  match tx.charged (s.ensure_account (e.origin tx)) with
  | .error refusal => some (.error refusal)
  | .ok from_acc => (do_apply e script tx number static s from_acc).map .ok

end Transaction

/-! ## The states of a run -/

section
variable {e : Env} {do_eval : Evm → State → Option Ret} {s s1 : State} {task : Task} {msg : Message}
    {ret : Ret} {evm : Evm}

/-- A relation between states that every write keeps. -/
structure Steady (R : State → State → Prop) : Prop where
  refl : ∀ s, R s s
  trans : ∀ {s t u}, R s t → R t u → R s u
  updates : ∀ s l, R s (s.process_updates l)
  write : ∀ {s a r t}, s.set_account a r = some t → R s t

variable {R : State → State → Prop}

theorem transfer_relates (hR : Steady R) {source target : Addr} {value : Nat}
    (h : Task.transfer s source target value = some s1) : R s s1 := by
  obtain ⟨account, -, h⟩ := Option.bind_eq_some_iff.1 h
  obtain ⟨s2, h2, h3⟩ := Option.bind_eq_some_iff.1 h
  exact hR.trans (hR.write h2) (hR.write h3)

theorem eval_internal_relates (hR : Steady R)
    (hdo : ∀ {evm s ret}, do_eval evm s = some ret → R s ret.2.2)
    (h : Evm.eval_internal e do_eval evm s = some ret) : R s ret.2.2 := by
  unfold Evm.eval_internal at h
  split at h
  · split at h
    · cases h
      exact hR.refl s
    · unfold Evm.eval_internal_precompile at h
      dsimp only at h
      split at h
      · cases h
        exact hR.refl s
      · obtain ⟨_, -, h⟩ := Option.map_eq_some_iff.1 h
        cases h
        exact hR.refl s
  · obtain ⟨ret1, h1, rfl⟩ := Option.map_eq_some_iff.1 h
    rw [(settle_frame_keeps ret1).2]
    exact hdo h1

theorem call_contract_relates (hR : Steady R) (hdo : ∀ {evm s ret}, do_eval evm s = some ret → R s ret.2.2)
    (h : Task.call_contract e do_eval s task msg = some ret) : R s ret.2.2 := by
  cases Task.call_contract_nested h with
  | call s1 _ _ ht h1 =>
    have h0 : R s s1 := by
      split at ht
      · exact transfer_relates hR ht
      · rw [ht]
        exact hR.refl s
    exact hR.trans h0 (eval_internal_relates hR hdo h1)
  | refused => exact hR.refl s
  | failed account s1 s2 _ _ _ _ h1 h2 h3 => exact hR.trans (hR.trans (hR.write h1) (hR.write h2)) (eval_internal_relates hR hdo h3)
  | deployed account s1 s2 s3 s4 evm2 _ _ _ h1 h2 h3 h4 =>
    have h03 : R s s3 := hR.trans (hR.trans (hR.write h1) (hR.write h2))
      (eval_internal_relates hR hdo h3)
    split at h4
    · rw [h4]
      exact h03
    · exact hR.trans h03 (hR.write h4)

/-- **What every write keeps, a run keeps.** -/
theorem loop_relates (hR : Steady R) : ∀ (script : Script) {evm : Evm} {s : State} {ret : Ret},
    Evm.loop e script evm s = some ret → R s ret.2.2
  | .done updates gas_left ret_code output, evm, s, ret, h => by
    obtain ⟨status, -, h⟩ := Option.bind_eq_some_iff.1 h
    cases h
    dsimp only
    split
    · exact hR.refl s
    · exact hR.updates s updates
  | .callback m next, evm, s, ret, h => by
    obtain ⟨_, -, h⟩ := Option.bind_eq_some_iff.1 h
    exact loop_relates hR next h
  | .call msg updates child next, evm, s, ret, h => by
    obtain ⟨⟨tag, evm2, s2⟩, hcall, h⟩ := Option.bind_eq_some_iff.1 h
    obtain ⟨_, -, h⟩ := Option.bind_eq_some_iff.1 h
    have h1 := call_contract_relates hR (loop_relates hR child) hcall
    exact hR.trans (hR.trans (hR.updates s updates) h1) (loop_relates hR next h)

/-! ## What a frame hands back -/

namespace Script

def gas_left : Script → BitVec 64
  | .done _ gas_left _ _ => gas_left
  | .callback _ next => next.gas_left
  | .call _ _ _ next => next.gas_left

def ret_code : Script → BitVec 64
  | .done _ _ ret_code _ => ret_code
  | .callback _ next => next.ret_code
  | .call _ _ _ next => next.ret_code

def output : Script → Bytes
  | .done _ _ _ output => output
  | .callback _ next => next.output
  | .call _ _ _ next => next.output

end Script

/-- A frame's task keeps all but its records, and no refund is set. -/
structure Evm.Keeps (evm evm' : Evm) : Prop where
  task : { evm'.task with selfdestructs := evm.task.selfdestructs } = evm.task
  refund : evm'.refund = evm.refund

theorem Evm.Keeps.refl (evm : Evm) : evm.Keeps evm := ⟨rfl, rfl⟩

theorem Evm.Keeps.trans {evm1 evm2 evm3 : Evm} (h1 : evm1.Keeps evm2) (h2 : evm2.Keeps evm3) :
    evm1.Keeps evm3 := by
  obtain ⟨t1, r1⟩ := h1
  obtain ⟨t2, r2⟩ := h2
  exact ⟨by rw [← t1, ← t2], r2.trans r1⟩

theorem Evm.Keeps.gas {evm evm' : Evm} (h : evm.Keeps evm') : evm'.task.gas = evm.task.gas := by
  rw [← h.task]
  rfl

theorem process_data_keeps {m : Callback} {replies : List Bytes} {evm' : Evm}
    (h : evm.process_data e s m = some (replies, evm')) :
    evm.Keeps evm' := by
  cases m with
  | emit_log addr data topics =>
    unfold Evm.process_data at h
    dsimp only at h
    split at h
    · cases h
    · cases h
      exact ⟨rfl, rfl⟩
  | copy_code addr offset size =>
    unfold Evm.process_data at h
    dsimp only at h
    split at h
    · cases h
      exact .refl evm
    · cases h
  | get_block_hash number =>
    unfold Evm.process_data at h
    dsimp only at h
    split at h
    · cases h
      exact .refl evm
    · obtain ⟨hash, -, h⟩ := Option.map_eq_some_iff.1 h
      cases h
      exact .refl evm
  | _ =>
    cases h
    exact ⟨rfl, rfl⟩

theorem after_call_keeps (evm evm2 : Evm) : evm.Keeps (evm.after_call evm2) := by
  unfold Evm.after_call
  split
  · exact ⟨rfl, rfl⟩
  · exact .refl evm

theorem loop_end : ∀ (script : Script) {evm : Evm} {s : State} {ret : Ret},
    Evm.loop e script evm s = some ret →
    status_code script.ret_code.toInt = some ret.1 ∧ ret.2.1.gas = script.gas_left.toInt ∧
      ret.2.1.out = some script.output ∧
      evm.Keeps ret.2.1
  | .done updates gas_left ret_code output, evm, s, ret, h => by
    obtain ⟨status, hs, h⟩ := Option.bind_eq_some_iff.1 h
    cases h
    exact ⟨hs, rfl, rfl, rfl, rfl⟩
  | .callback m next, evm, s, ret, h => by
    obtain ⟨⟨replies, evm'⟩, hp, h⟩ := Option.bind_eq_some_iff.1 h
    obtain ⟨h1, h2, h3, h4⟩ := loop_end next h
    exact ⟨h1, h2, h3, (process_data_keeps hp).trans h4⟩
  | .call msg updates child next, evm, s, ret, h => by
    obtain ⟨⟨tag, evm2, s2⟩, -, h⟩ := Option.bind_eq_some_iff.1 h
    obtain ⟨_, -, h⟩ := Option.bind_eq_some_iff.1 h
    obtain ⟨h1, h2, h3, h4⟩ := loop_end next h
    exact ⟨h1, h2, h3, (after_call_keeps evm evm2).trans h4⟩

/-! ## Applications -/

variable {tx : Transaction} {script : Script} {number : Nat} {static : Bool} {s' : State}
    {receipt : Receipt}

theorem charged_ok {from_acc : Record} (hb : 0 ≤ from_acc.balance) {acc : Record} :
    tx.charged from_acc = .ok acc ↔ from_acc.nonce = tx.nonce ∧
      (tx.value + tx.fee : Int) ≤ from_acc.balance ∧
      acc = { from_acc with nonce := tx.nonce + 1, balance :=
        from_acc.balance - tx.value - tx.fee } := by
  obtain ⟨n, hn⟩ := Int.eq_ofNat_of_zero_le hb
  obtain ⟨nonce, balance, code⟩ := from_acc
  dsimp only at hn
  subst hn
  unfold Transaction.charged charge
  dsimp only
  rw [Int.toNat_natCast]
  split
  · rename_i he
    split
    · rename_i hlt
      refine ⟨?_, ?_⟩
      · intro h
        cases h
      · intro h
        omega
    · rename_i hge
      refine ⟨?_, ?_⟩
      · intro h
        cases h
        refine ⟨he, by omega, ?_⟩
        rw [Record.mk.injEq]
        exact ⟨by omega, by omega, rfl⟩
      · intro h
        obtain ⟨-, -, rfl⟩ := h
        show Except.ok _ = _
        rw [Except.ok.injEq, Record.mk.injEq]
        exact ⟨by dsimp only; omega, by dsimp only; omega, rfl⟩
  · rename_i hne
    refine ⟨?_, ?_⟩
    · intro h
      split at h <;> cases h
    · intro h
      exact absurd h.1 hne

/-- **What an application went through.** -/
theorem apply_ok (h : tx.apply e script number static s = some (.ok (s', receipt))) :
    ∃ from_acc s0 ret, tx.charged (s.ensure_account (e.origin tx)) = .ok from_acc ∧
      tx.prepare e s from_acc = some s0 ∧
      Evm.eval e script (tx.task e s number static).evm s0 = some ret ∧
        tx.finish e from_acc ret = some (s', receipt) := by
  unfold Transaction.apply at h
  split at h
  · cases h
  · rename_i from_acc hc
    obtain ⟨r, hr, h⟩ := Option.map_eq_some_iff.1 h
    cases h
    obtain ⟨s0, h0, hr⟩ := Option.bind_eq_some_iff.1 hr
    obtain ⟨ret, h1, hr⟩ := Option.bind_eq_some_iff.1 hr
    exact ⟨from_acc, s0, ret, hc, h0, h1, hr⟩

end
end Diode.L4
