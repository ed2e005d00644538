import Diode.L4Evm.Gas

/-!
# The gas a frame gives back

`eval_internal` hands back what the interpreter left, a refund, and what is to
be paid for the output. The refund is `min` of half of the gas used and of what
the interpreter reported, but it reports none: the field is `nil`, and `nil` is
above every number. A nested call is a frame of its own, so this is a law of
every depth.

* `frame_gas_iff`: a frame gives back what it should exactly when a refund was
  reported or less than two gas were used.
-/
namespace Diode.L4
open Diode.Core Diode.L3

/-- What a frame that was given `gas` should give back: what it left, the refund
up to half of what it used, less the deposit of its output. -/
def owed (gas gas_left : Int) (refund : Option Int) (output : Bytes) : Int :=
  gas_left + min ((gas - gas_left).tdiv 2) (refund.getD 0) - output.length * GCODEDEPOSIT

/-- The gas of a frame after its success is what it owes, and no more than it was given. -/
structure GasLaw (task : Task) (refund : Option Int) (script : Script) (evm' : Evm) : Prop where
  owed : evm'.gas = owed task.gas script.gas_left.toInt refund script.output
  le : evm'.gas ≤ task.gas

variable {e : Env} {script : Script} {s s' : State} {evm evm' : Evm}

/-- A frame that succeeds gives back what is left after the refund and the deposit. -/
theorem eval_internal_gas (hc : evm.task.code ≠ [])
    (h : Evm.eval_internal e (Evm.loop e script) evm s = some (.evmc_success, evm', s')) :
    evm'.gas = script.gas_left.toInt + minTerm ((evm.task.gas - script.gas_left.toInt).tdiv 2) evm.refund -
      script.output.length * GCODEDEPOSIT := by
  unfold Evm.eval_internal at h
  rw [if_neg hc] at h
  obtain ⟨⟨status, evm2, s2⟩, hl, hs⟩ := Option.map_eq_some_iff.1 h
  obtain ⟨-, hg, ho, hk⟩ := loop_end script hl
  dsimp only at hg ho
  by_cases ht : status = .evmc_success
  · subst ht
    have hleft : evm2.left = script.gas_left.toInt + minTerm
      ((evm.task.gas - script.gas_left.toInt).tdiv 2) evm.refund := by
      rw [Evm.left, hk.gas, hk.refund, hg]
    obtain ⟨evm3, h3⟩ := @settle_frame_out e s2 evm2 _ ho
    split at h3
    · rw [h3.1] at hs
      cases hs
      rw [h3.2, hleft]
    · rw [h3.1] at hs
      cases hs
  · rw [settle_frame_failure ht] at hs
    cases hs
    exact absurd rfl ht

/-- **The refund of a frame.** A frame that succeeds and was given as much gas
as it reports to have left gives back what it should exactly when a refund was
reported or it used less than two gas. It never gives back more than it was given. -/
theorem frame_gas_iff (e : Env) (script : Script) (task : Task) (refund : Option Int)
    (s s' : State) (evm' : Evm)
    (hc : task.code ≠ [])
    (h : Evm.eval_internal e (Evm.loop e script) { task.evm with refund } s = some
      (.evmc_success, evm', s'))
    (hle : script.gas_left.toInt ≤ task.gas) :
    GasLaw task refund script evm' ↔ refund ≠ none ∨ task.gas - script.gas_left.toInt < 2 := by
  have hgas : evm'.gas = script.gas_left.toInt + minTerm
    ((task.gas - script.gas_left.toInt).tdiv 2) refund -
      script.output.length * GCODEDEPOSIT := eval_internal_gas hc h
  have hhalf := @Int.tdiv_eq_ediv_of_nonneg _ 2 (Int.sub_nonneg.2 hle)
  have hdep : (0 : Int) ≤ script.output.length * GCODEDEPOSIT :=
    Int.mul_nonneg (Int.natCast_nonneg _) (Int.natCast_nonneg _)
  cases refund with
  | none =>
    have howed : owed task.gas script.gas_left.toInt none script.output =
        script.gas_left.toInt - script.output.length * GCODEDEPOSIT := by
      rw [owed, hhalf, Option.getD_none, min_eq_right (by omega), add_zero]
    rw [minTerm, hhalf] at hgas
    refine ⟨?_, ?_⟩
    · intro hl
      have := hl.owed
      right
      omega
    · intro hu
      have hu := hu.resolve_left (not_not.2 rfl)
      exact ⟨by omega, by omega⟩
  | some r =>
    refine iff_of_true ⟨hgas, ?_⟩ (.inl (Option.some_ne_none r))
    rw [minTerm, hhalf] at hgas
    omega

/-- A nested call of the code of account 5. -/
def callTask (gas : Nat) : Task where
  static := false
  source := 7
  tx := ⟨0, 0, gas, some 5, 0, none, List.replicate 65 0, none, none⟩
  code := [0x5b]
  number := 1
  internal := true
  selfdestructs := []

theorem frame_gas_jumpdest :
    GasLaw (callTask 100) none (.done [] 99 0 []) { (callTask 100).evm with gas := 99, out := some [] } :=
  (frame_gas_iff Env.plain (.done [] 99 0 []) (callTask 100) none State.empty State.empty _ (by decide) rfl (by decide)).2
    (.inr (by decide))

/-- **A refund nobody reported.** Of 100 gas the code used 40, and 80 come back. -/
theorem frame_keeps_half : ∃ evm' s',
    Evm.eval_internal Env.plain (Evm.loop Env.plain (.done [] 60 0 []))
      (callTask 100).evm State.empty = some (.evmc_success, evm', s') ∧
      evm'.gas = 80 ∧ ¬GasLaw (callTask 100) none (.done [] 60 0 []) evm' := by
  refine ⟨_, _, rfl, rfl, fun h => ?_⟩
  have := h.owed
  revert this
  decide

end Diode.L4
