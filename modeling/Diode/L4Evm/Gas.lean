import Diode.L4Evm.Apply
import Diode.L4Evm.Idle
import Diode.L4Evm.Settlement
import Mathlib.Tactic.LinearCombination
import Mathlib.Tactic.Ring

/-!
# Gas and fee of a transaction

A transaction pays for its gas limit before it runs. What it gets back is
computed in a different place for a success, a revert and any other failure,
and the receipt's `gas_used` in a fourth, so the fee agrees with the receipt
only under conditions on the transaction, the interpreter's report and the
state: `GasFits` lists them.

**Results.**
* `finish_success`, `finish_revert`, `finish_other`: the sender's balance after
  each outcome, up to multiples of 2^256, as balances are words.
* `gas_accounting`: gas and fee are accounted for exactly when `GasFits`.
-/
namespace Diode.L4
open Diode.Core Diode.L3

/-! ## What the sender is left with -/

section
variable {e : Env} {tx : Transaction} {from_acc : Record} {evm : Evm} {s s0 s1 s' : State}
    {receipt : Receipt} {tag : Status}

theorem finish_succeeds (h : tx.finish e from_acc (.evmc_success, evm, s1) = some (s', receipt)) :
    ∃ acc s2, s1.account (e.origin tx) = some acc ∧
      s1.set_account (e.origin tx) { acc with balance := acc.balance + evm.gas * tx.gasPrice } = some s2 ∧
      tx.deploy e evm s2 = some s' ∧ receipt.gas_used = tx.gasLimit - evm.gas ∧
        receipt.msg = .evmc_success := by
  obtain ⟨acc, ha, h⟩ := Option.bind_eq_some_iff.1 h
  obtain ⟨s2, h2, h⟩ := Option.bind_eq_some_iff.1 h
  obtain ⟨s3, h3, h⟩ := Option.bind_eq_some_iff.1 h
  cases h
  exact ⟨acc, s2, ha, h2, h3, rfl, rfl⟩

/-- A failure writes the record that was charged, over what the run has left. -/
theorem finish_fails (h1 : tag ≠ .evmc_success) (h : tx.finish e from_acc (tag, evm, s1) = some
    (s', receipt)) :
    s1.set_account (e.origin tx) { from_acc with
        balance := from_acc.balance + (if tag = .evmc_revert then evm.gas * tx.gasPrice else 0) +
          tx.value } = some s' ∧
      receipt.gas_used = tx.gasLimit - evm.gas ∧ receipt.msg = tag := by
  by_cases h2 : tag = .evmc_revert
  · subst h2
    obtain ⟨s2, hs, h⟩ := Option.bind_eq_some_iff.1 h
    cases h
    rw [if_pos rfl]
    exact ⟨hs, rfl, rfl⟩
  · unfold Transaction.finish at h
    split at h
    · rename_i heq
      cases heq
      exact absurd rfl h1
    · rename_i heq
      cases heq
      exact absurd rfl h2
    · rename_i heq
      cases heq
      obtain ⟨s2, hs, h⟩ := Option.bind_eq_some_iff.1 h
      cases h
      rw [if_neg h2, Int.add_zero]
      exact ⟨hs, rfl, rfl⟩

theorem finish_success (h : tx.finish e from_acc (.evmc_success, evm, s1) = some (s', receipt)) :
    receipt.gas_used = tx.gasLimit - evm.gas ∧ receipt.msg = .evmc_success ∧
      Int.ModEq (2 ^ 256) (s'.balance (e.origin tx))
        (s1.balance (e.origin tx) + evm.gas * tx.gasPrice) := by
  obtain ⟨acc, s2, ha, h2, h3, hg, hm⟩ := finish_succeeds h
  obtain ⟨-, rfl⟩ := State.set_account_some.1 h2
  have hb := State.balance_place_self s1 (e.origin tx)
    { acc with balance := acc.balance + evm.gas * tx.gasPrice }
  rw [← State.balance_of_account ha]
  -- the recipient is read again, so nothing of the refund is lost
  unfold Transaction.deploy at h3
  split at h3
  · cases h3
    exact ⟨hg, hm, hb⟩
  · rename_i acc2 ha2
    obtain ⟨-, rfl⟩ := State.set_account_some.1 h3
    refine ⟨hg, hm, ?_⟩
    rw [State.balance_place_same ha2 (by split <;> rfl)]
    exact hb

theorem finish_success_some (ha : (s1.account (e.origin tx)).isSome = true) (hg : 0 ≤ evm.gas) :
    ∃ r, tx.finish e from_acc (.evmc_success, evm, s1) = some r := by
  obtain ⟨acc, ha⟩ := Option.isSome_iff_exists.1 ha
  obtain ⟨⟨hb, hn⟩, -⟩ := State.account_bounds ha
  have hg' : 0 ≤ evm.gas * tx.gasPrice := Int.mul_nonneg hg (Int.natCast_nonneg _)
  have hw : ({ acc with balance := acc.balance + evm.gas * tx.gasPrice } : Record).Writable :=
    ⟨Int.add_nonneg hb hg', hn⟩
  have hdep : ∃ s3, tx.deploy e evm (s1.place (e.origin tx) { acc with balance := acc.balance + evm.gas * tx.gasPrice }) = some s3 := by
    unfold Transaction.deploy
    split
    · exact ⟨_, rfl⟩
    · rename_i acc2 ha2
      have hw2 : ({ acc2 with code := if tx.contract_creation then evm.out.getD [] else acc2.code } : Record).Writable :=
        (State.account_bounds ha2).1
      exact ⟨_, State.set_account_eq hw2⟩
  obtain ⟨s3, hdep⟩ := hdep
  unfold Transaction.finish
  dsimp only
  rw [ha, Option.bind_eq_bind, Option.bind_some, State.set_account_eq hw, Option.bind_eq_bind,
    Option.bind_some, hdep]
  exact ⟨_, rfl⟩

theorem finish_revert (h : tx.finish e from_acc (.evmc_revert, evm, s1) = some (s', receipt)) :
    receipt.gas_used = tx.gasLimit - evm.gas ∧ receipt.msg = .evmc_revert ∧
      Int.ModEq (2 ^ 256) (s'.balance (e.origin tx))
        (from_acc.balance + evm.gas * tx.gasPrice + tx.value) := by
  obtain ⟨hs, hg, hm⟩ := finish_fails (by decide) h
  obtain ⟨-, rfl⟩ := State.set_account_some.1 hs
  exact ⟨hg, hm, State.balance_place_self ..⟩

theorem finish_other (h1 : tag ≠ .evmc_success) (h2 : tag ≠ .evmc_revert)
    (h : tx.finish e from_acc (tag, evm, s1) = some (s', receipt)) :
    receipt.gas_used = tx.gasLimit - evm.gas ∧ receipt.msg = tag ∧
      Int.ModEq (2 ^ 256) (s'.balance (e.origin tx)) (from_acc.balance + tx.value) := by
  obtain ⟨hs, hg, hm⟩ := finish_fails h1 h
  rw [if_neg h2, Int.add_zero] at hs
  obtain ⟨-, rfl⟩ := State.set_account_some.1 hs
  exact ⟨hg, hm, State.balance_place_self ..⟩

/-- A record that can be charged can be written back. -/
theorem finish_failure_some (hw : from_acc.Writable) (hg : 0 ≤ evm.gas) (h : tag ≠ .evmc_success) :
    ∃ r, tx.finish e from_acc (tag, evm, s1) = some r := by
  obtain ⟨hb, hn⟩ := hw
  have hg' : 0 ≤ evm.gas * tx.gasPrice := Int.mul_nonneg hg (Int.natCast_nonneg _)
  have hw1 : ({ from_acc with balance := from_acc.balance + evm.gas * tx.gasPrice + tx.value } :
    Record).Writable :=
    ⟨by dsimp only; omega, hn⟩
  have hw2 : ({ from_acc with balance := from_acc.balance + tx.value } : Record).Writable :=
    ⟨by dsimp only; omega, hn⟩
  unfold Transaction.finish
  split
  · rename_i heq
    cases heq
    exact absurd rfl h
  · rename_i heq
    cases heq
    rw [State.set_account_eq hw1]
    exact ⟨_, rfl⟩
  · rename_i heq
    cases heq
    rw [State.set_account_eq hw2]
    exact ⟨_, rfl⟩

/-! ## The state a transaction runs in -/

theorem destination_writable (e : Env) (tx : Transaction) (s : State) :
    (tx.destination e s).Writable := by
  unfold Transaction.destination
  split
  · exact ⟨by decide, by show 1 < 2 ^ 64; decide⟩
  · exact (State.ensure_account_bounds s _).1

theorem prepare_some (hw : from_acc.Writable) : ∃ s0, tx.prepare e s from_acc = some s0 := by
  obtain ⟨hb, hn⟩ := destination_writable e tx s
  have hw2 : ({ tx.destination e s with balance := (tx.destination e s).balance + tx.value } :
    Record).Writable :=
    ⟨Int.add_nonneg hb (Int.natCast_nonneg _), hn⟩
  unfold Transaction.prepare
  dsimp only
  rw [State.set_account_eq hw, Option.bind_eq_bind, Option.bind_some, State.set_account_eq hw2]
  exact ⟨_, rfl⟩

/-- The sender has what is left to it, unless the recipient's record is written
over its own. -/
theorem prepare_spec (h : tx.prepare e s from_acc = some s0) : from_acc.Writable ∧
    (s0.account (e.origin tx)).isSome = true ∧
    Int.ModEq (2 ^ 256) (s0.balance (e.origin tx))
      (if tx.to_address e = e.origin tx then (tx.destination e s).balance +
        tx.value else from_acc.balance) := by
  obtain ⟨s2, h1, h2⟩ := Option.bind_eq_some_iff.1 h
  obtain ⟨hw, rfl⟩ := State.set_account_some.1 h1
  obtain ⟨-, rfl⟩ := State.set_account_some.1 h2
  refine ⟨hw, ?_, ?_⟩
  · rw [State.account_place]
    split
    · rfl
    · rw [State.account_place, if_pos rfl]
      rfl
  · by_cases he : tx.to_address e = e.origin tx
    · rw [if_pos he, ← he]
      exact State.balance_place_self ..
    · rw [if_neg he, State.balance_place, if_neg he]
      exact State.balance_place_self ..

/-! ## What the run leaves -/

/-- No write takes an account away. -/
theorem steady_isSome (b : Addr) : Steady fun s t => (s.account b).isSome = true →
    (t.account b).isSome = true where
  refl _ h := h
  trans h1 h2 h := h2 (h1 h)
  updates _ _ h := storage_put_map_isSome _ h
  write {s a r t} h hs := by
    obtain ⟨-, rfl⟩ := State.set_account_some.1 h
    rw [State.account_place]
    split
    · rfl
    · exact hs

variable {script : Script} {task : Task} {ret : Ret}

theorem eval_none (h : Evm.eval_internal e (Evm.loop e script) task.evm s = none) :
    Evm.eval e script task.evm s = none := by
  unfold Evm.eval
  rw [h]
  rfl

theorem eval_failure (h : Evm.eval_internal e (Evm.loop e script) task.evm s = some (tag, evm, s1))
    (ht : tag ≠ .evmc_success) :
    Evm.eval e script task.evm s = some (tag, evm, s1) := by
  unfold Evm.eval
  rw [h, Option.bind_eq_bind, Option.bind_some]
  dsimp only
  rw [if_neg ht]

/-- The settlement of a success raises at the first record. -/
theorem eval_success (h : Evm.eval_internal e (Evm.loop e script) task.evm s = some
    (.evmc_success, evm, s1))
    (h0 : task.selfdestructs = []) :
    Evm.eval e script task.evm s = if evm.task.selfdestructs = [] then some (.evmc_success, evm, s1)
      else none := by
  have hrec : evm.Recorded :=
    Evm.eval_internal_recorded (Evm.loop_recorded script)
      (Task.evm_recorded (by rw [h0]; exact fun _ h => nomatch h)) h
  obtain ⟨ds, hds⟩ := recorded_list hrec.task
  unfold Evm.eval
  rw [h, Option.bind_eq_bind, Option.bind_some]
  dsimp only
  rw [if_pos rfl, hds, settle_records]
  cases ds <;> rfl

theorem eval_quiet (h : Evm.eval_internal e (Evm.loop e script) task.evm s = some
    (.evmc_success, evm, s1))
    (h0 : task.selfdestructs = []) (hq : evm.task.selfdestructs = []) :
      Evm.eval e script task.evm s = some (.evmc_success, evm, s1) := by
  rw [eval_success h h0, if_pos hq]

/-- What a frame has after its refund, before it pays for its output. -/
def Evm.left (evm2 : Evm) : Int := evm2.gas + minTerm ((evm2.task.gas - evm2.gas).tdiv 2) evm2.refund

/-- A success pays for its output, and one that cannot is out of gas. -/
theorem settle_frame_out {evm2 : Evm} {output : Bytes} (ho : evm2.out = some output) :
    ∃ evm3 : Evm, if (output.length * GCODEDEPOSIT : Int) < evm2.left then
        Evm.settle_frame e (.evmc_success, evm2, s) = (.evmc_success, evm3, s) ∧
          evm3.gas = evm2.left - output.length * GCODEDEPOSIT
      else Evm.settle_frame e (.evmc_success, evm2, s) = (.evmc_out_of_gas, evm3, s) ∧
        evm3.gas = 0 := by
  obtain ⟨task, gas, refund, selfdestruct, out, logs, msg, create_address⟩ := evm2
  dsimp only at ho
  subst ho
  unfold Evm.settle_frame Evm.left
  dsimp only
  cases selfdestruct with
  | none =>
    dsimp only
    split
    · exact ⟨_, rfl, rfl⟩
    · exact ⟨_, rfl, rfl⟩
  | some ben =>
    dsimp only
    split
    · exact ⟨_, rfl, rfl⟩
    · exact ⟨_, rfl, rfl⟩

/-- The gas of a frame after its refund, which is half of what it used. -/
def refunded (gas gas_left : Int) : Int := gas_left + (gas - gas_left).tdiv 2

theorem left_refunded {evm2 : Evm} (hr : evm2.refund = none) :
    evm2.left = refunded evm2.task.gas evm2.gas := by
  unfold Evm.left
  rw [hr]
  rfl

theorem settle_frame_paid {evm2 : Evm} {output : Bytes} (hr : evm2.refund = none)
    (ho : evm2.out = some output)
    (h : (output.length * GCODEDEPOSIT : Int) < refunded evm2.task.gas evm2.gas) :
    ∃ evm3 : Evm, Evm.settle_frame e (.evmc_success, evm2, s) = (.evmc_success, evm3, s) ∧
      evm3.gas = refunded evm2.task.gas evm2.gas - output.length * GCODEDEPOSIT := by
  rw [← left_refunded hr] at h ⊢
  obtain ⟨evm3, h3⟩ := @settle_frame_out e s evm2 output ho
  rw [if_pos h] at h3
  exact ⟨evm3, h3⟩

theorem settle_frame_unpaid {evm2 : Evm} {output : Bytes} (hr : evm2.refund = none)
    (ho : evm2.out = some output)
    (h : ¬(output.length * GCODEDEPOSIT : Int) < refunded evm2.task.gas evm2.gas) :
    ∃ evm3 : Evm, Evm.settle_frame e (.evmc_success, evm2, s) = (.evmc_out_of_gas, evm3, s) ∧
      evm3.gas = 0 := by
  rw [← left_refunded hr] at h
  obtain ⟨evm3, h3⟩ := @settle_frame_out e s evm2 output ho
  rw [if_neg h] at h3
  exact ⟨evm3, h3⟩

theorem settle_frame_failure (h : tag ≠ .evmc_success) : Evm.settle_frame e (tag, evm, s) =
    (tag, evm, s) := by
  unfold Evm.settle_frame
  split
  · rename_i heq
    cases heq
    exact absurd rfl h
  · rfl

/-! ## Arithmetic -/

/-- What an interpreter that was given `gas` may report: no more than that, or
than it could read of it. -/
def Granted (gas left : Int) : Prop := 0 ≤ left ∧ (left ≤ gas ∨ left ≤ (BitVec.ofInt 64 gas).toInt)

/-- A refund does not take the gas above what there was. -/
theorem refunded_le {gas left limit deposit : Int} (h : Granted gas left) (hl : gas ≤ limit)
    (hd : 0 ≤ deposit)
    (hlt : deposit < refunded gas left) : refunded gas left - deposit ≤ limit := by
  obtain ⟨h0, h1⟩ := h
  rw [BitVec.toInt_ofInt] at h1
  have hdiv : left ≤ gas → refunded gas left ≤ gas := by
    intro hle
    unfold refunded
    rw [Int.tdiv_eq_ediv_of_nonneg (by omega)]
    omega
  rcases lt_or_ge gas left with hgt | hle
  · -- more than there was can only be read of a negative number
    exfalso
    have h1 : left ≤ gas.bmod (2 ^ 64) := h1.resolve_left (by omega)
    have hsum : gas + left ≤ 0 := by
      unfold Int.bmod at h1
      dsimp only at h1
      split at h1 <;> omega
    unfold refunded at hlt
    rw [show gas - left = -(left - gas) by omega, Int.neg_tdiv, Int.tdiv_eq_ediv_of_nonneg (by omega)] at hlt
    omega
  · have := hdiv hle
    omega

section
variable {W B value fee x o0 o1 o2 dest : Int}

theorem fee_apart (h0 : Int.ModEq W o0 (B - value - fee)) (h2 : Int.ModEq W o2 (o1 + x)) :
    Int.ModEq W (B - value + (o1 - o0) - o2) (fee - x) := by
  obtain ⟨k, hk⟩ := Int.modEq_iff_dvd.1 h0
  obtain ⟨j, hj⟩ := Int.modEq_iff_dvd.1 h2
  exact Int.modEq_iff_dvd.2 ⟨-k - j, by linear_combination -hk - hj⟩

theorem fee_same (h0 : Int.ModEq W o0 (dest + value)) (h2 : Int.ModEq W o2 (o1 + x)) :
    Int.ModEq W (B - 0 + (o1 - o0) - o2) (fee - x) ↔ W ∣ B - dest - value - fee := by
  obtain ⟨k, hk⟩ := Int.modEq_iff_dvd.1 h0
  obtain ⟨j, hj⟩ := Int.modEq_iff_dvd.1 h2
  rw [Int.modEq_iff_dvd]
  refine ⟨?_, ?_⟩
  · intro h
    obtain ⟨i, hi⟩ := h
    exact ⟨-i - k - j, by linear_combination -hi - hk - hj⟩
  · intro h
    obtain ⟨i, hi⟩ := h
    exact ⟨-i - k - j, by linear_combination -hi - hk - hj⟩

theorem fee_failure (h2 : Int.ModEq W o2 (B - value - fee + x + value)) :
    Int.ModEq W (B - o2) (fee - x) := by
  obtain ⟨j, hj⟩ := Int.modEq_iff_dvd.1 h2
  exact Int.modEq_iff_dvd.2 ⟨-j, by linear_combination -hj⟩

theorem fee_whole (h2 : Int.ModEq W o2 (B - value - fee + value)) : Int.ModEq W (B - o2) (fee - x) ↔ W ∣ x := by
  obtain ⟨j, hj⟩ := Int.modEq_iff_dvd.1 h2
  rw [Int.modEq_iff_dvd]
  refine ⟨?_, ?_⟩
  · intro h
    obtain ⟨i, hi⟩ := h
    exact ⟨-i - j, by linear_combination -hi - hj⟩
  · intro h
    obtain ⟨i, hi⟩ := h
    exact ⟨-i - j, by linear_combination -hi - hj⟩

end

/-! ## The account of a transaction -/

/-- What the sender gives away apart from the value it sends, and apart from
what the run of a success moves between its two ends `s0` and `s1`. -/
def Transaction.feeTaken (e : Env) (tx : Transaction) (s s0 s1 s' : State) (msg : Status) : Int :=
  let own (s : State) : Int := s.balance (e.origin tx)
  if msg = .evmc_success then own s - (if tx.to_address e = e.origin tx then (0 : Int) else tx.value) + (own s1 - own s0) - own s'
  else own s - own s'

/-- Gas used is in bounds and is what the fee pays for. -/
structure Receipt.Fits (receipt : Receipt) (tx : Transaction) (fee : Int) : Prop where
  nonneg : 0 ≤ receipt.gas_used
  le : receipt.gas_used ≤ tx.gasLimit
  fee : Int.ModEq (2 ^ 256) fee (tx.gasPrice * receipt.gas_used)

/-- Nothing raises, also no balance below zero, and every receipt fits. -/
def Accounted (e : Env) (script : Script) (tx : Transaction) (number : Nat) (static : Bool)
    (s : State) : Prop :=
  ∃ r, tx.apply e script number static s = some r ∧ ∀ s' receipt, r = .ok (s', receipt) →
    ∀ from_acc s0 tag evm s1, tx.charged (s.ensure_account (e.origin tx)) = .ok from_acc →
      tx.prepare e s from_acc = some s0 →
      Evm.eval e script (tx.task e s number static).evm s0 = some (tag, evm, s1) →
      receipt.Fits tx (tx.feeTaken e s s0 s1 s' receipt.msg)

/-- The sender is not the recipient, or nothing is lost when its record is
written over. -/
def Transaction.Apart (e : Env) (tx : Transaction) (s : State) : Prop :=
  tx.to_address e = e.origin tx → (s.balance (e.origin tx) : Int) = (tx.destination e s).balance +
    tx.value + tx.fee

/-- What the end of a run must be like, by its status. -/
def EndFits (e : Env) (script : Script) (tx : Transaction) (task : Task) (s s0 : State) : Status → Prop
  | .evmc_success => (script.output.length * GCODEDEPOSIT : Int) < refunded task.gas
      script.gas_left.toInt →
    (∀ evm s1, Evm.eval_internal e (Evm.loop e script) task.evm s0 = some (.evmc_success, evm, s1) →
      evm.task.selfdestructs = []) ∧
      tx.Apart e s
  | .evmc_revert => script.gas_left.toInt ≤ tx.gasLimit
  | _ => script.gas_left.toInt ≤ tx.gasLimit ∧ (script.gas_left.toInt = 0 ∨ tx.gasPrice = 0)

/-- The conditions on what runs, for a sender that has been charged. -/
def RunFits (e : Env) (script : Script) (tx : Transaction) (task : Task) (s s0 : State) : Prop :=
  if task.code = [] then
    match PreCompile.get (tx.to_address e).toNat with
    | none => tx.intrinsic ≤ tx.gasLimit ∧ tx.Apart e s
    | some fn => (fn.gas tx.payload : Int) ≤ task.gas → (fn.run e tx.payload).isSome = true ∧ tx.Apart e s
  else Runs e script task.evm s0 ∧ ∀ status, status_code script.ret_code.toInt = some status →
    EndFits e script tx task s s0 status

/-- The conditions under which gas and fee are accounted for. -/
def GasFits (e : Env) (script : Script) (tx : Transaction) (number : Nat) (static : Bool)
    (s : State) : Prop :=
  (s.ensure_account (e.origin tx)).nonce = tx.nonce → tx.nonce + 1 < 2 ^ 64 ∧
    ∀ from_acc s0, tx.charged (s.ensure_account (e.origin tx)) = .ok from_acc →
      tx.prepare e s from_acc = some s0 →
      RunFits e script tx (tx.task e s number static) s s0

/-- The result of the run is turned into a receipt that fits. -/
def Good (e : Env) (tx : Transaction) (s s0 : State) (from_acc : Record) (ret : Option Ret) : Prop :=
  ∃ tag evm s1 s' receipt, ret = some (tag, evm, s1) ∧ tx.finish e from_acc (tag, evm, s1) =
    some (s', receipt) ∧
    receipt.Fits tx (tx.feeTaken e s s0 s1 s' receipt.msg)

theorem dvd_small {x : Int} (h : |x| < 2 ^ 256) : (2 ^ 256 : Int) ∣ x ↔ x = 0 :=
  ⟨fun hd => Int.eq_zero_of_abs_lt_dvd hd h, fun h0 => h0 ▸ Int.dvd_zero _⟩

theorem task_gas (e : Env) (tx : Transaction) (s : State) (number : Nat) (static : Bool) :
    (tx.task e s number static).gas = (tx.gasLimit : Int) - tx.intrinsic := by
  unfold Task.gas
  exact if_neg Bool.false_ne_true

theorem cast_fee (tx : Transaction) : (tx.fee : Int) = tx.gasLimit * tx.gasPrice := by
  unfold Transaction.fee
  exact_mod_cast rfl

section
variable (hfunds : tx.value + tx.fee ≤ s.balance (e.origin tx))
    (hprep : tx.prepare e s from_acc = some s0)
  (hfrom : from_acc.balance = s.balance (e.origin tx) - tx.value - tx.fee)
include hfunds hfrom

include hprep in
theorem good_success (ha : (s1.account (e.origin tx)).isSome = true) :
    Good e tx s s0 from_acc (some (.evmc_success, evm, s1)) ↔ 0 ≤ evm.gas ∧ evm.gas ≤ tx.gasLimit ∧
      tx.Apart e s := by
  obtain ⟨hw, -, h0⟩ := prepare_spec hprep
  have hlt := s.balance_lt (e.origin tx)
  have hdest := destination_writable e tx s
  -- the fee agrees exactly when nothing was written over
  have hfee : ∀ {o2 : Int}, Int.ModEq (2 ^ 256) o2 (s1.balance (e.origin tx) + evm.gas * tx.gasPrice) →
      (Int.ModEq (2 ^ 256) (s.balance (e.origin tx) - (if tx.to_address e = e.origin tx then 0 else tx.value : Int) +
        (s1.balance (e.origin tx) - s0.balance (e.origin tx)) - o2)
          (tx.gasPrice * (tx.gasLimit - evm.gas)) ↔ tx.Apart e s) := by
    intro o2 h2
    have heq : (tx.gasPrice * (tx.gasLimit - evm.gas) : Int) = tx.fee - evm.gas * tx.gasPrice := by
      rw [cast_fee]
      ring
    rw [heq]
    unfold Transaction.Apart
    by_cases he : tx.to_address e = e.origin tx
    · rw [if_pos he] at h0 ⊢
      have hd : (tx.destination e s).balance = 0 ∨ (tx.destination e s).balance = s.balance
        (e.origin tx) := by
        unfold Transaction.destination
        split
        · exact .inl rfl
        · exact .inr (by rw [State.ensure_account_balance, he])
      rw [fee_same h0 h2, dvd_small (by rw [abs_lt]; omega)]
      refine ⟨?_, ?_⟩
      · intro h _
        omega
      · intro h
        have := h he
        omega
    · rw [if_neg he] at h0 ⊢
      rw [hfrom] at h0
      exact ⟨fun _ h => absurd h he, fun _ => fee_apart h0 h2⟩
  refine ⟨?_, ?_⟩
  · intro h
    obtain ⟨tag, evm', s1', s', receipt, hret, hfin, hfit⟩ := h
    cases hret
    obtain ⟨hg, hm, h2⟩ := finish_success hfin
    obtain ⟨hn, hl, hf⟩ := hfit
    rw [hg] at hn hl hf
    rw [hm, Transaction.feeTaken, if_pos rfl] at hf
    exact ⟨by omega, by omega, (hfee h2).1 hf⟩
  · intro h
    obtain ⟨h1, h2, h3⟩ := h
    obtain ⟨⟨s', receipt⟩, hfin⟩ := @finish_success_some e tx from_acc evm s1 ha h1
    obtain ⟨hg, hm, hb⟩ := finish_success hfin
    refine ⟨_, _, _, s', receipt, rfl, hfin, by rw [hg]; omega, by rw [hg]; omega, ?_⟩
    rw [hg, hm, Transaction.feeTaken, if_pos rfl]
    exact (hfee hb).2 h3

omit hfunds in
theorem good_revert (hw : from_acc.Writable) (hg : 0 ≤ evm.gas) :
    Good e tx s s0 from_acc (some (.evmc_revert, evm, s1)) ↔ evm.gas ≤ tx.gasLimit := by
  refine ⟨?_, ?_⟩
  · intro h
    obtain ⟨tag, evm', s1', s', receipt, hret, hfin, hn, -, -⟩ := h
    cases hret
    rw [(finish_revert hfin).1] at hn
    omega
  · intro hl
    obtain ⟨⟨s', receipt⟩, hfin⟩ := @finish_failure_some e tx from_acc evm s1 .evmc_revert hw hg (by decide)
    obtain ⟨hu, hm, hb⟩ := finish_revert hfin
    refine ⟨_, _, _, s', receipt, rfl, hfin, by rw [hu]; omega, by rw [hu]; omega, ?_⟩
    rw [hu, hm, show (tx.gasPrice * (tx.gasLimit - evm.gas) : Int) = tx.fee - evm.gas * tx.gasPrice by rw [cast_fee]; ring]
    rw [hfrom] at hb
    exact fee_failure hb

theorem good_other (hw : from_acc.Writable) (hg : 0 ≤ evm.gas) (h1 : tag ≠ .evmc_success)
    (h2 : tag ≠ .evmc_revert) :
    Good e tx s s0 from_acc (some (tag, evm, s1)) ↔ evm.gas ≤ tx.gasLimit ∧
      (evm.gas = 0 ∨ tx.gasPrice = 0) := by
  have hlt := s.balance_lt (e.origin tx)
  -- the whole fee is kept, so what is left of the gas must be worth nothing
  have hfee : ∀ {o2 : Int}, Int.ModEq (2 ^ 256) o2
    (s.balance (e.origin tx) - tx.value - tx.fee + tx.value) → evm.gas ≤ tx.gasLimit →
      (Int.ModEq (2 ^ 256) (s.balance (e.origin tx) - o2) (tx.gasPrice * (tx.gasLimit - evm.gas)) ↔
        evm.gas = 0 ∨ tx.gasPrice = 0) := by
    intro o2 ho hl
    have hx : 0 ≤ evm.gas * tx.gasPrice := Int.mul_nonneg hg (Int.natCast_nonneg _)
    have hle : evm.gas * tx.gasPrice ≤ tx.gasLimit * tx.gasPrice :=
      Int.mul_le_mul_of_nonneg_right hl (Int.natCast_nonneg _)
    rw [show (tx.gasPrice * (tx.gasLimit - evm.gas) : Int) = tx.fee - evm.gas * tx.gasPrice by rw [cast_fee]; ring,
      fee_whole ho, dvd_small (by rw [← cast_fee] at hle; rw [abs_lt]; omega), Int.mul_eq_zero,
        Int.natCast_eq_zero]
  refine ⟨?_, ?_⟩
  · intro h
    obtain ⟨tag', evm', s1', s', receipt, hret, hfin, hn, hl, hf⟩ := h
    cases hret
    obtain ⟨hu, hm, hb⟩ := finish_other h1 h2 hfin
    rw [hu] at hn hf
    rw [hm, Transaction.feeTaken, if_neg h1] at hf
    rw [hfrom] at hb
    exact ⟨by omega, (hfee hb (by omega)).1 hf⟩
  · intro h
    obtain ⟨hl, hz⟩ := h
    obtain ⟨⟨s', receipt⟩, hfin⟩ := @finish_failure_some e tx from_acc evm s1 tag hw hg h1
    obtain ⟨hu, hm, hb⟩ := finish_other h1 h2 hfin
    rw [hfrom] at hb
    refine ⟨_, _, _, s', receipt, rfl, hfin, by rw [hu]; omega, by rw [hu]; omega, ?_⟩
    rw [hu, hm, Transaction.feeTaken, if_neg h1]
    exact (hfee hb hl).2 hz

omit hfunds hfrom in
theorem not_good_none : ¬Good e tx s s0 from_acc none := by
  intro h
  obtain ⟨tag, evm, s1, s', receipt, h, -⟩ := h
  cases h

variable (hsd : task.selfdestructs = []) (hlimit : task.gas ≤ tx.gasLimit)

include hprep hsd hlimit in
/-- An account without code. -/
theorem good_plain (hint : Evm.eval_internal e (Evm.loop e script) task.evm s0 = some
    (.evmc_success, { task.evm with out := some [] }, s0)) :
    Good e tx s s0 from_acc (Evm.eval e script task.evm s0) ↔ 0 ≤ task.gas ∧ tx.Apart e s := by
  obtain ⟨-, hs0, -⟩ := prepare_spec hprep
  rw [eval_quiet hint hsd hsd, good_success hfunds hprep hfrom hs0]
  exact ⟨fun h => ⟨h.1, h.2.2⟩, fun h => ⟨h.1, hlimit, h.2⟩⟩

include hprep hsd hlimit in
theorem good_precompile {fn : PreCompile}
    (hint : Evm.eval_internal e (Evm.loop e script) task.evm s0 =
      task.evm.eval_internal_precompile e s0 fn)
    (hpay : task.tx.payload = tx.payload) :
    Good e tx s s0 from_acc (Evm.eval e script task.evm s0) ↔
      ((fn.gas tx.payload : Int) ≤ task.gas → (fn.run e tx.payload).isSome = true ∧ tx.Apart e s) := by
  obtain ⟨hw, hs0, -⟩ := prepare_spec hprep
  unfold Evm.eval_internal_precompile at hint
  dsimp only at hint
  rw [show task.evm.task.tx.payload = tx.payload from hpay] at hint
  by_cases hcost : task.evm.gas < fn.gas tx.payload
  · rw [if_pos hcost] at hint
    rw [eval_failure hint (by decide), good_other hfunds hfrom hw (Int.le_refl 0)
      (by decide) (by decide)]
    exact ⟨fun _ h => absurd h (Int.not_le.2 hcost), fun _ => ⟨Int.natCast_nonneg _, .inl rfl⟩⟩
  · rw [if_neg hcost] at hint
    have hcost : (fn.gas tx.payload : Int) ≤ task.gas := Int.not_lt.1 hcost
    cases hrun : fn.run e tx.payload with
    | none =>
      rw [hrun] at hint
      rw [eval_none hint]
      exact ⟨fun h => absurd h not_good_none, fun h => nomatch (h hcost).1⟩
    | some result =>
      rw [hrun] at hint
      have h0 : 0 ≤ task.evm.gas - fn.gas tx.payload := Int.sub_nonneg.2 hcost
      have hle : task.evm.gas - fn.gas tx.payload ≤ tx.gasLimit :=
        Int.le_trans (Int.sub_le_self _ (Int.natCast_nonneg _)) hlimit
      rw [eval_quiet hint hsd hsd, good_success hfunds hprep hfrom hs0]
      refine ⟨?_, ?_⟩
      · intro h _
        exact ⟨rfl, h.2.2⟩
      · intro h
        exact ⟨h0, hle, (h hcost).2⟩

include hprep hsd hlimit in
/-- A frame that ends with a success. -/
theorem good_ended {evm2 : Evm} (hint : Evm.eval_internal e (Evm.loop e script) task.evm s0 = some
    (Evm.settle_frame e (.evmc_success, evm2, s1)))
    (hs1 : (s1.account (e.origin tx)).isSome = true) (hgr : Granted task.gas script.gas_left.toInt)
    (hgl : evm2.gas = script.gas_left.toInt) (hout : evm2.out = some script.output)
      (hkeep : task.evm.Keeps evm2) :
    Good e tx s s0 from_acc (Evm.eval e script task.evm s0) ↔
      EndFits e script tx task s s0 .evmc_success := by
  obtain ⟨hw, -, -⟩ := prepare_spec hprep
  have hgas2 : evm2.task.gas = task.gas := hkeep.gas
  unfold EndFits
  by_cases hpaid : (script.output.length * GCODEDEPOSIT : Int) < refunded task.gas script.gas_left.toInt
  · have hle := refunded_le hgr hlimit
      (Int.mul_nonneg (Int.natCast_nonneg _) (Int.natCast_nonneg _)) hpaid
    obtain ⟨evm3, hset, hg3⟩ := @settle_frame_paid e s1 evm2 _ hkeep.refund hout
      (by rw [hgas2, hgl]; exact hpaid)
    rw [hset] at hint
    rw [hgas2, hgl] at hg3
    have hrec : (∀ evm s1, Evm.eval_internal e (Evm.loop e script) task.evm s0 = some
      (.evmc_success, evm, s1) →
        evm.task.selfdestructs = []) ↔ evm3.task.selfdestructs = [] := by
      rw [hint]
      exact ⟨fun h => h evm3 s1 rfl, fun h evm s1 he => by cases he; exact h⟩
    rw [eval_success hint hsd, hrec]
    by_cases hno : evm3.task.selfdestructs = []
    · rw [if_pos hno, good_success hfunds hprep hfrom hs1, hg3]
      refine ⟨?_, ?_⟩
      · intro h _
        exact ⟨hno, h.2.2⟩
      · intro h
        exact ⟨Int.sub_nonneg.2 (Int.le_of_lt hpaid), hle, (h hpaid).2⟩
    · rw [if_neg hno]
      exact ⟨fun h => absurd h not_good_none, fun h => absurd (h hpaid).1 hno⟩
  · obtain ⟨evm3, hset, hg3⟩ := @settle_frame_unpaid e s1 evm2 _ hkeep.refund hout
      (by rw [hgas2, hgl]; exact hpaid)
    rw [hset] at hint
    rw [eval_failure hint (by decide), good_other hfunds hfrom hw (Int.le_of_eq hg3.symm)
      (by decide) (by decide), hg3]
    exact ⟨fun _ h => absurd h hpaid, fun _ => ⟨Int.natCast_nonneg _, .inl rfl⟩⟩

include hprep hsd hlimit in
/-- Code that runs. -/
theorem good_code (hc : task.code ≠ []) (hgr : Granted task.gas script.gas_left.toInt) :
    Good e tx s s0 from_acc (Evm.eval e script task.evm s0) ↔
      Runs e script task.evm s0 ∧ ∀ status, status_code script.ret_code.toInt = some status →
        EndFits e script tx task s s0 status := by
  obtain ⟨hw, hs0, -⟩ := prepare_spec hprep
  have hint := @eval_internal_code e s0 task (Evm.loop e script) hc
  by_cases hruns : Runs e script task.evm s0
  · obtain ⟨⟨status, evm2, s1⟩, hl⟩ := loop_some_iff.2 hruns
    obtain ⟨hst, hgl, hout, hkeep⟩ := loop_end script hl
    dsimp only at hst hgl hout hkeep
    have hs1 : (s1.account (e.origin tx)).isSome = true :=
      loop_relates (steady_isSome (e.origin tx)) script hl hs0
    rw [hl, Option.map_some] at hint
    have hcond : (∀ st, status_code script.ret_code.toInt = some st →
      EndFits e script tx task s s0 st) ↔
        EndFits e script tx task s s0 status := by
      rw [hst]
      exact ⟨fun h => h status rfl, fun h st hst => by cases hst; exact h⟩
    rw [hcond, and_iff_right hruns]
    by_cases h1 : status = .evmc_success
    · subst h1
      exact good_ended hfunds hprep hfrom hsd hlimit hint hs1 hgr hgl hout hkeep
    · have h0 : 0 ≤ evm2.gas := by
        rw [hgl]
        exact hgr.1
      rw [settle_frame_failure h1] at hint
      rw [eval_failure hint h1]
      by_cases h2 : status = .evmc_revert
      · subst h2
        rw [good_revert hfrom hw h0, hgl]
        rfl
      · rw [good_other hfunds hfrom hw h0 h1 h2, hgl]
        cases status <;> first | rfl | exact absurd rfl h1 | exact absurd rfl h2
  · have hl : Evm.loop e script task.evm s0 = none := by
      by_contra hne
      exact hruns (loop_some_iff.1 (Option.ne_none_iff_exists'.1 hne))
    rw [hl] at hint
    rw [eval_none hint]
    exact ⟨fun h => absurd h not_good_none, fun h => absurd h.1 hruns⟩

include hprep in
/-- **The run** gives a receipt that fits exactly under its conditions. -/
theorem good_iff {number : Nat} {static : Bool}
    (hg : (tx.task e s number static).code ≠ [] → Granted (tx.task e s number static).gas script.gas_left.toInt) :
    Good e tx s s0 from_acc (Evm.eval e script (tx.task e s number static).evm s0) ↔
      RunFits e script tx (tx.task e s number static) s s0 := by
  have hgas := task_gas e tx s number static
  have hlimit : (tx.task e s number static).gas ≤ tx.gasLimit := by
    rw [hgas]
    exact Int.sub_le_self _ (Int.natCast_nonneg _)
  unfold RunFits
  by_cases hc : (tx.task e s number static).code = []
  · rw [if_pos hc]
    have hint : Evm.eval_internal e (Evm.loop e script) (tx.task e s number static).evm s0 =
        match PreCompile.get (tx.to_address e).toNat with
        | none => some (.evmc_success, { (tx.task e s number static).evm with out := some [] }, s0)
        | some fn => (tx.task e s number static).evm.eval_internal_precompile e s0 fn := if_pos hc
    cases hfn : PreCompile.get (tx.to_address e).toNat with
    | none =>
      rw [hfn] at hint
      have hnonneg : 0 ≤ (tx.task e s number static).gas ↔ tx.intrinsic ≤ tx.gasLimit := by
        rw [hgas, Int.sub_nonneg, Int.ofNat_le]
      rw [good_plain hfunds hprep hfrom rfl hlimit hint, hnonneg]
    | some fn =>
      rw [hfn] at hint
      exact good_precompile hfunds hprep hfrom rfl hlimit hint rfl
  · rw [if_neg hc]
    exact good_code hfunds hprep hfrom rfl hlimit hc (hg hc)

end

/-! ## From the sender's record to the receipt -/

/-- A refused transaction has no receipt. -/
theorem accounted_of_refused {number : Nat} {static : Bool} {refusal : Refusal}
    (hch : tx.charged (s.ensure_account (e.origin tx)) = .error refusal) :
      Accounted e script tx number static s := by
  refine ⟨.error refusal, ?_, fun s' receipt h => ?_⟩
  · unfold Transaction.apply
    rw [hch]
  · cases h

theorem apply_charged {number : Nat} {static : Bool}
    (hch : tx.charged (s.ensure_account (e.origin tx)) = .ok from_acc) :
    tx.apply e script number static s = (tx.do_apply e script number static s from_acc).map .ok := by
  unfold Transaction.apply
  rw [hch]

/-- Writing back the sender's record raises. -/
theorem not_accounted {number : Nat} {static : Bool}
    (hch : tx.charged (s.ensure_account (e.origin tx)) = .ok from_acc)
    (hprep : tx.prepare e s from_acc = none) : ¬Accounted e script tx number static s := by
  intro h
  obtain ⟨r, hr, -⟩ := h
  rw [apply_charged hch, Transaction.do_apply, hprep] at hr
  cases hr

/-- Once the sender is charged, the run decides. -/
theorem accounted_iff_good {number : Nat} {static : Bool}
    (hch : tx.charged (s.ensure_account (e.origin tx)) = .ok from_acc)
    (hprep : tx.prepare e s from_acc = some s0) :
    Accounted e script tx number static s ↔
      Good e tx s s0 from_acc (Evm.eval e script (tx.task e s number static).evm s0) := by
  have hdo : tx.do_apply e script number static s from_acc =
      (Evm.eval e script (tx.task e s number static).evm s0).bind (tx.finish e from_acc) := by
    unfold Transaction.do_apply
    rw [hprep]
    rfl
  unfold Accounted
  rw [apply_charged hch, hdo]
  refine ⟨?_, ?_⟩
  · intro h
    obtain ⟨r, hr, hfit⟩ := h
    obtain ⟨⟨s', receipt⟩, hfin, rfl⟩ := Option.map_eq_some_iff.1 hr
    obtain ⟨⟨tag, evm, s1⟩, hev, hfin⟩ := Option.bind_eq_some_iff.1 hfin
    exact ⟨tag, evm, s1, s', receipt, hev, hfin, hfit s' receipt rfl from_acc s0 tag evm s1 hch hprep hev⟩
  · intro h
    obtain ⟨tag, evm, s1, s', receipt, hev, hfin, hfit⟩ := h
    refine ⟨.ok (s', receipt), ?_, ?_⟩
    · rw [hev, Option.bind_some, hfin]
      rfl
    · intro s'' receipt' hr from_acc' s0' tag' evm' s1' hch' hprep' hev'
      cases hr
      cases hch.symm.trans hch'
      cases hprep.symm.trans hprep'
      cases hev.symm.trans hev'
      exact hfit

/-- A sender with the nonce of the transaction and its funds is charged. -/
theorem charged_funds (hfunds : tx.value + tx.fee ≤ s.balance (e.origin tx))
    (hnonce : (s.ensure_account (e.origin tx)).nonce = tx.nonce) :
    ∃ from_acc, tx.charged (s.ensure_account (e.origin tx)) = .ok from_acc ∧
      from_acc.balance = s.balance (e.origin tx) - tx.value - tx.fee ∧
        (from_acc.Writable ↔ tx.nonce + 1 < 2 ^ 64) := by
  obtain ⟨⟨hb0, hn0⟩, -⟩ := State.ensure_account_bounds s (e.origin tx)
  have hbal := State.ensure_account_balance s (e.origin tx)
  refine ⟨_, (charged_ok hb0).2 ⟨hnonce, by rw [hbal]; exact_mod_cast hfunds, rfl⟩, ?_, ?_⟩
  · dsimp only
    rw [hbal]
  · refine ⟨fun hw => hw.2, fun hmax => ⟨?_, hmax⟩⟩
    dsimp only
    rw [hbal]
    omega

/-- **Gas accounting.** For a transaction that is paid for, run by an interpreter
that reports no more gas than it was given, gas and fee are accounted for
exactly under the conditions of `GasFits`. Nothing that `validate` asks is
needed. Balances are words, so where one overflows the fee is the receipt's
modulo 2^256 only. -/
theorem gas_accounting (e : Env) (script : Script) (tx : Transaction) (number : Nat)
    (static : Bool) (s : State)
    (hfunds : tx.value + tx.fee ≤ s.balance (e.origin tx))
    (hgas : (tx.task e s number static).code ≠ [] → Granted (tx.task e s number static).gas script.gas_left.toInt) :
    Accounted e script tx number static s ↔ GasFits e script tx number static s := by
  unfold GasFits
  by_cases hnonce : (s.ensure_account (e.origin tx)).nonce = tx.nonce
  · obtain ⟨from_acc, hch, hfrom, hwritable⟩ := charged_funds hfunds hnonce
    by_cases hmax : tx.nonce + 1 < 2 ^ 64
    · obtain ⟨s0, hprep⟩ := @prepare_some e tx from_acc s (hwritable.2 hmax)
      rw [accounted_iff_good hch hprep, good_iff hfunds hprep hfrom hgas]
      refine ⟨?_, ?_⟩
      · intro h _
        refine ⟨hmax, fun from_acc' s0' hch' hprep' => ?_⟩
        cases hch.symm.trans hch'
        cases hprep.symm.trans hprep'
        exact h
      · intro h
        exact (h hnonce).2 from_acc s0 hch hprep
    · have hprep : tx.prepare e s from_acc = none := by
        cases hp : tx.prepare e s from_acc with
        | none => rfl
        | some s0 => exact absurd (hwritable.1 (prepare_spec hp).1) hmax
      exact ⟨fun h => absurd h (not_accounted hch hprep), fun h => absurd (h hnonce).1 hmax⟩
  · refine ⟨fun _ h => absurd h hnonce, fun _ => ?_⟩
    obtain ⟨⟨hb0, -⟩, -⟩ := State.ensure_account_bounds s (e.origin tx)
    cases hc : tx.charged (s.ensure_account (e.origin tx)) with
    | error refusal => exact accounted_of_refused hc
    | ok acc => exact absurd ((charged_ok hb0).1 hc).1 hnonce

end

/-- Account 7 calls 5, whose code is run. -/
def callTransaction : Transaction := ⟨0, 0, 30000, some 5, 0, none, List.replicate 65 0, none, none⟩

theorem gas_accounting_call : Accounted { Env.plain with origin := fun _ => 7 }
    (.done [] 10 0 []) callTransaction 1 false (State.empty.place 5 ⟨1, 0, [0x00]⟩) ↔
    GasFits { Env.plain with origin := fun _ => 7 } (.done [] 10 0 []) callTransaction 1 false
      (State.empty.place 5 ⟨1, 0, [0x00]⟩) :=
  gas_accounting _ _ callTransaction 1 false (State.empty.place 5 ⟨1, 0, [0x00]⟩)
    (by decide) fun _ => ⟨by decide, .inl (by decide)⟩

/-- A transfer with too little gas for a transaction goes through, and its
receipt has used more than the limit. -/
theorem gas_above_limit : ∃ s' receipt,
    (⟨0, 0, 100, some 9, 0, none, List.replicate 65 0, none, none⟩ : Transaction).validate = true ∧
    (⟨0, 0, 100, some 9, 0, none, List.replicate 65 0, none, none⟩ : Transaction).apply
      { Env.plain with origin := fun _ => 7 }
      (.done [] 0 0 []) 1 false State.empty = some (.ok (s', receipt)) ∧ receipt.gas_used = 21000 :=
  ⟨_, _, by decide, rfl, rfl⟩

end Diode.L4
