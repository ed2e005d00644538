import Diode.L4Evm.Evm

/-!
# When the handler does not raise

`process_data` raises at some callbacks, `call_contract` at some calls, and a
frame ends with a raise when the status of the interpreter is not a known one.
Each has a condition on what is asked and the state it is asked in; a run that
meets them all goes to its end.

**Results.**
* `process_data_served` and its converse, `call_contract_handed`,
  `callable_of_call`: one callback, one call.
* `loop_some_iff`: a frame returns exactly when its run meets the conditions.
-/
namespace Diode.L4
open Diode.Core Diode.L1.Packet Diode.L3

/-! ## One callback -/

section
variable (e : Env)

/-- The handler has an answer. -/
def Callback.Served (evm : Evm) (s : State) : Callback → Prop
  | .copy_code addr offset _ => offset.toNat ≤ (s.ensure_account addr).code.length
  | .get_block_hash number =>
    max 0 ((evm.task.number : Int) - e.get_block_hash_limit evm.task.number) ≤ number.toInt →
      number.toInt ≤ evm.task.number →
      (e.blockhash number.toInt).isSome
  | .emit_log _ _ topics => topics ≠ []
  | _ => True

variable {e} {evm : Evm} {s : State} {m : Callback}

theorem process_data_served {replies : List Bytes} {evm' : Evm}
    (h : evm.process_data e s m = some (replies, evm')) :
    m.Served e evm s := by
  cases m with
  | copy_code addr offset size =>
    unfold Evm.process_data at h
    dsimp only at h
    split at h
    · rename_i hle
      show offset.toNat ≤ _
      omega
    · nomatch h
  | get_block_hash number =>
    intro h1 h2
    unfold Evm.process_data at h
    dsimp only at h
    rw [if_neg (by omega)] at h
    obtain ⟨hash, hh, -⟩ := Option.map_eq_some_iff.1 h
    rw [hh]
    rfl
  | emit_log addr data topics =>
    intro ht
    unfold Evm.process_data at h
    dsimp only at h
    rw [if_pos ht] at h
    nomatch h
  | _ => trivial

theorem process_data_of_served (h : m.Served e evm s) : ∃ replies evm', evm.process_data e s m =
    some (replies, evm') := by
  cases m with
  | copy_code addr offset size =>
    have hle : offset.toNat ≤ (s.ensure_account addr).code.length := h
    unfold Evm.process_data
    dsimp only
    rw [if_pos (by omega)]
    exact ⟨_, _, rfl⟩
  | get_block_hash number =>
    unfold Evm.process_data
    dsimp only
    split
    · exact ⟨_, _, rfl⟩
    · rename_i hr
      obtain ⟨hash, hh⟩ := Option.isSome_iff_exists.1 (h (by omega) (by omega))
      rw [hh]
      exact ⟨_, _, rfl⟩
  | emit_log addr data topics =>
    have ht : topics ≠ [] := h
    unfold Evm.process_data
    dsimp only
    rw [if_neg ht]
    exact ⟨_, _, rfl⟩
  | _ => exact ⟨_, _, rfl⟩

end

/-! ## Nested calls -/

namespace Task

/-- The frame a call goes on in, and the state it finds. -/
inductive Entered (e : Env) (s : State) (task : Task) (msg : Message) : Evm → State → Prop where
  | call (s1 : State) : msg.creates = false →
      (if Transfers e task msg.kind (parties e task msg).1 (parties e task msg).2 msg.value.toNat then
        transfer s (parties e task msg).1 (parties e task msg).2 msg.value.toNat =
          some s1 else s1 = s) →
      Entered e s task msg (callee e s task msg).evm s1
  | create (account : Record) (s1 s2 : State) : msg.creates = true →
      ((s.account (created e s task msg)).isSome = true →
        e.allow_contract_override task.number = true) →
      s.account (task.address e) = some account →
      s.set_account (created e s task msg) (Record.new 1 msg.value.toNat) = some s1 →
      s1.set_account (task.address e) { account with nonce := account.nonce + 1, balance :=
        account.balance - msg.value.toNat } = some s2 →
      Entered e s task msg (creation e s task msg).evm s2

/-- An interpreter is started for it. -/
def Started (e : Env) (s : State) (task : Task) (msg : Message) (evm1 : Evm) (s1 : State) : Prop :=
  Entered e s task msg evm1 s1 ∧ evm1.task.code ≠ []

/-- A precompile has its gas and takes its input. -/
def Prepared (e : Env) (task : Task) : Prop :=
  task.code = [] → ∀ fn, PreCompile.get (task.address e).toNat = some fn →
    (fn.gas task.tx.payload : Int) ≤ task.gas ∧ (fn.run e task.tx.payload).isSome = true

/-- The value of a call can be paid, or the creation is refused or can be made;
what runs is no precompile that fails. -/
def Callable (e : Env) (s : State) (task : Task) (msg : Message) : Prop :=
  if msg.creates then
    ((s.account (created e s task msg)).isSome = true ∧ e.allow_contract_override task.number = false) ∨
      ((∃ account, s.account (task.address e) = some account ∧ (msg.value.toNat : Int) ≤ account.balance ∧
        account.nonce + 1 < 2 ^ 64) ∧ (creation e s task msg).Prepared e)
  else
    (Transfers e task msg.kind (parties e task msg).1 (parties e task msg).2 msg.value.toNat →
      ∃ account, s.account (parties e task msg).1 = some account ∧
        (msg.value.toNat : Int) ≤ account.balance) ∧
    (callee e s task msg).Prepared e

end Task

/-- A frame hands over an output. -/
def Handed (ok : Bytes → Prop) (ret : Option Ret) : Prop := ∃ tag evm2 s2 out, ret = some
    (tag, evm2, s2) ∧ evm2.out = some out ∧ ok out

section
variable {e : Env} {s : State} {task : Task} {msg : Message} {ret : Ret}
    {do_eval : Evm → State → Option Ret} {ok : Bytes → Prop}

/-- Output and state are the interpreter's. -/
theorem settle_frame_keeps (ret : Ret) :
    (Evm.settle_frame e ret).2.1.out = ret.2.1.out ∧ (Evm.settle_frame e ret).2.2 = ret.2.2 := by
  obtain ⟨tag, ⟨task, gas, refund, selfdestruct, out, logs, msg, create_address⟩, s2⟩ := ret
  unfold Evm.settle_frame
  split
  · rename_i heq
    cases heq
    dsimp only
    cases selfdestruct with
    | none =>
      cases out with
      | none => exact ⟨rfl, rfl⟩
      | some bin =>
        dsimp only
        split <;> exact ⟨rfl, rfl⟩
    | some ben =>
      cases out with
      | none => exact ⟨rfl, rfl⟩
      | some bin =>
        dsimp only
        split <;> exact ⟨rfl, rfl⟩
  · exact ⟨rfl, rfl⟩

theorem eval_internal_code (hc : task.code ≠ []) : Evm.eval_internal e do_eval task.evm s =
    (do_eval task.evm s).map (Evm.settle_frame e) :=
  if_neg hc

/-- What `eval_internal` needs, and what it is then worth. -/
theorem eval_internal_handed (hok : ∀ out : Bytes, out.length ≤ 32 → ok out) (hp : task.Prepared e)
    (hdo : task.code ≠ [] → Handed ok (do_eval task.evm s)) :
      Handed ok (Evm.eval_internal e do_eval task.evm s) := by
  by_cases hc : task.code = []
  · rw [Evm.eval_internal, if_pos (show task.evm.task.code = [] from hc)]
    have hp := hp hc
    cases hfn : PreCompile.get (task.evm.task.address e).toNat with
    | none => exact ⟨_, _, _, [], rfl, rfl, hok _ (by decide)⟩
    | some fn =>
      obtain ⟨hg, hr⟩ := hp fn hfn
      obtain ⟨result, hr⟩ := Option.isSome_iff_exists.1 hr
      have hg' : ¬task.evm.gas < fn.gas task.evm.task.tx.payload := Int.not_lt.2 hg
      have hr' : fn.run e task.evm.task.tx.payload = some result := hr
      show Handed ok (Evm.eval_internal_precompile e task.evm s fn)
      unfold Evm.eval_internal_precompile
      dsimp only
      rw [if_neg hg', hr']
      refine ⟨_, _, _, _, rfl, rfl, hok _ ?_⟩
      rw [List.length_take]
      omega
  · obtain ⟨tag, evm2, s2, out, h1, h2, h3⟩ := hdo hc
    rw [eval_internal_code hc, h1]
    refine ⟨_, _, _, out, rfl, ?_, h3⟩
    show (Evm.settle_frame e (tag, evm2, s2)).2.1.out = some out
    rw [(settle_frame_keeps _).1, h2]

/-- A frame that ends well or has an output was prepared. -/
theorem prepared_of_some (h : Evm.eval_internal e do_eval task.evm s = some ret)
    (ho : ret.1 = .evmc_success ∨ ret.2.1.out.isSome = true) : task.Prepared e := by
  intro hc fn hfn
  unfold Evm.eval_internal at h
  rw [if_pos (show task.evm.task.code = [] from hc), show PreCompile.get
    (task.evm.task.address e).toNat = some fn from hfn] at h
  change Evm.eval_internal_precompile e task.evm s fn = some ret at h
  unfold Evm.eval_internal_precompile at h
  dsimp only at h
  split at h
  · cases h
    rcases ho with h | h <;> nomatch h
  · rename_i hg
    obtain ⟨result, hr, -⟩ := Option.map_eq_some_iff.1 h
    exact ⟨Int.not_lt.1 hg, by rw [show fn.run e task.tx.payload = some result from hr]; rfl⟩

namespace Task

theorem transfer_some {source target : Addr} {value : Nat} {s1 : State}
    (h : transfer s source target value = some s1) :
    ∃ account, s.account source = some account ∧ (value : Int) ≤ account.balance := by
  obtain ⟨account, ha, h⟩ := Option.bind_eq_some_iff.1 h
  obtain ⟨s2, h2, -⟩ := Option.bind_eq_some_iff.1 h
  have hw := (State.set_account_some.1 h2).1.1
  dsimp only at hw
  exact ⟨account, ha, by omega⟩

theorem transfer_of {source target : Addr} {value : Nat} {account : Record}
    (ha : s.account source = some account)
    (hle : (value : Int) ≤ account.balance) : ∃ s1, transfer s source target value = some s1 := by
  have hb := State.account_bounds ha
  have ht := State.ensure_account_bounds s target
  have h1 : ({ account with balance := account.balance - value } : Record).Writable :=
    ⟨by dsimp only; omega, hb.1.2⟩
  have h2 : ({ s.ensure_account target with balance := (s.ensure_account target).balance + value } :
    Record).Writable :=
    ⟨by have := ht.1.1; dsimp only; omega, ht.1.2⟩
  unfold transfer
  rw [ha, Option.bind_eq_bind, Option.bind_some]
  dsimp only
  rw [State.set_account_eq h1, Option.bind_eq_bind, Option.bind_some, State.set_account_eq h2]
  exact ⟨_, rfl⟩

/-- What a nested call needs. -/
theorem callable_of_call (h : call_contract e do_eval s task msg = some ret)
    (ho : ret.2.1.out.isSome) : Callable e s task msg := by
  unfold Callable
  cases call_contract_nested h with
  | call s1 _ hk ht h1 =>
    rw [if_neg (by rw [hk]; decide)]
    refine ⟨fun hT => ?_, prepared_of_some h1 (.inr ho)⟩
    rw [if_pos hT] at ht
    exact transfer_some ht
  | refused hk ha hover =>
    rw [if_pos hk]
    exact .inl ⟨ha, hover⟩
  | failed account s1 s2 _ hk _ ha h1 h2 h3 _ =>
    rw [if_pos hk]
    have hw := (State.set_account_some.1 h2).1
    exact .inr ⟨⟨account, ha, Int.sub_nonneg.1 hw.1, hw.2⟩, prepared_of_some h3 (.inr ho)⟩
  | deployed account s1 s2 s3 s4 evm2 hk _ ha h1 h2 h3 _ =>
    rw [if_pos hk]
    have hw := (State.set_account_some.1 h2).1
    exact .inr ⟨⟨account, ha, Int.sub_nonneg.1 hw.1, hw.2⟩, prepared_of_some h3 (.inl rfl)⟩

/-- What a nested call is worth when it has that, and its frame hands over. -/
theorem call_contract_handed (hok : ∀ out : Bytes, out.length ≤ 32 → ok out)
    (hc : Callable e s task msg)
    (hdo : ∀ evm1 s1, Started e s task msg evm1 s1 → Handed ok (do_eval evm1 s1)) :
    Handed ok (call_contract e do_eval s task msg) := by
  unfold Callable at hc
  cases hk : msg.creates with
  | false =>
    rw [if_neg (by rw [hk]; decide)] at hc
    obtain ⟨hpay, hp⟩ := hc
    have hs1 : ∃ s1, if Transfers e task msg.kind (parties e task msg).1 (parties e task msg).2
      msg.value.toNat then
        transfer s (parties e task msg).1 (parties e task msg).2 msg.value.toNat =
          some s1 else s1 = s := by
      split
      · rename_i hT
        obtain ⟨account, ha, hle⟩ := hpay hT
        exact transfer_of ha hle
      · exact ⟨s, rfl⟩
    obtain ⟨s1, hs1⟩ := hs1
    rw [call_contract_call hk hs1]
    exact eval_internal_handed hok hp fun hcode => hdo _ _ ⟨.call s1 hk hs1, hcode⟩
  | true =>
    rw [if_pos hk] at hc
    rw [call_contract_create hk]
    unfold do_create
    dsimp only
    split
    · exact ⟨_, _, _, [], rfl, rfl, hok _ (by decide)⟩
    · rename_i hn
      rcases hc with hc | ⟨⟨account, ha, hle, hnonce⟩, hp⟩
      · exact absurd hc hn
      · have hover : (s.account (created e s task msg)).isSome = true →
          e.allow_contract_override task.number = true := by
          intro hs
          by_contra hf
          exact hn ⟨hs, by simpa using hf⟩
        have hw1 : (Record.new 1 msg.value.toNat).Writable :=
          ⟨Int.natCast_nonneg _, by show 1 < 2 ^ 64; decide⟩
        have hw2 : ({ account with nonce := account.nonce + 1, balance := account.balance - msg.value.toNat } : Record).Writable :=
          ⟨Int.sub_nonneg.2 hle, hnonce⟩
        obtain ⟨tag, evm2, s3, out, h3, ho, hlt⟩ := eval_internal_handed hok hp fun hcode =>
          hdo _ _ ⟨.create account _ _ hk hover ha (State.set_account_eq hw1) (State.set_account_eq hw2), hcode⟩
        have h3' : Evm.eval_internal e do_eval ({ task with
            tx := { task.tx with value := msg.value.toNat, data := none, to_addr := some (created e s task msg), gasLimit := msg.gas.toNat }
            code := msg.input, source := task.address e } : Task).evm _ = some (tag, evm2, s3) := h3
        rw [ha, Option.bind_eq_bind, Option.bind_some, State.set_account_eq hw1,
          Option.bind_eq_bind, Option.bind_some,
          State.set_account_eq hw2, Option.bind_eq_bind, Option.bind_some, h3', Option.bind_some]
        dsimp only
        split
        · cases hto : s3.account (created e s task msg) with
          | none =>
            dsimp only
            exact ⟨_, _, _, [], rfl, rfl, hok _ (by decide)⟩
          | some to_account =>
            dsimp only
            have hw3 : ({ to_account with code := evm2.out.getD [] } : Record).Writable :=
              (State.account_bounds hto).1
            rw [State.set_account_eq hw3]
            exact ⟨_, _, _, [], rfl, rfl, hok _ (by decide)⟩
        · exact ⟨_, _, _, out, rfl, ho, hlt⟩

/-- A call that returns has run the frame it started. -/
theorem started_of_call (h : call_contract e do_eval s task msg = some ret) {evm1 : Evm} {s1 : State}
    (hst : Started e s task msg evm1 s1) : ∃ r, do_eval evm1 s1 = some r := by
  obtain ⟨hst, hc⟩ := hst
  cases hst with
  | call _ hk ht =>
    have hc : (callee e s task msg).code ≠ [] := hc
    rw [call_contract_call hk ht, eval_internal_code hc] at h
    obtain ⟨r, hr, -⟩ := Option.map_eq_some_iff.1 h
    exact ⟨r, hr⟩
  | create account s0 _ hk hover ha h1 h2 =>
    have hc : (creation e s task msg).code ≠ [] := hc
    rw [call_contract_create hk] at h
    unfold do_create at h
    dsimp only at h
    split at h
    · rename_i hn
      have := hover hn.1
      rw [hn.2] at this
      cases this
    · rw [ha, Option.bind_eq_bind, Option.bind_some, h1, Option.bind_eq_bind, Option.bind_some, h2,
        Option.bind_eq_bind,
        Option.bind_some] at h
      obtain ⟨r1, hr, -⟩ := Option.bind_eq_some_iff.1 h
      change Evm.eval_internal e do_eval (creation e s task msg).evm s1 = some r1 at hr
      rw [eval_internal_code hc] at hr
      obtain ⟨r, hr, -⟩ := Option.map_eq_some_iff.1 hr
      exact ⟨r, hr⟩

end Task

/-! ## Runs -/

/-- Every callback and call of a run is one that is served, in the state it is
made in. -/
def Runs (e : Env) : Script → Evm → State → Prop
  | .done _ _ ret_code _, _, _ => (status_code ret_code.toInt).isSome = true
  | .callback m next, evm, s => m.Served e evm s ∧ ∀ replies evm', evm.process_data e s m = some
      (replies, evm') → Runs e next evm' s
  | .call msg updates child next, evm, s =>
    Task.Callable e (s.process_updates updates) evm.task msg ∧
      (∀ evm1 s1, Task.Started e (s.process_updates updates) evm.task msg evm1 s1 →
        Runs e child evm1 s1) ∧
      ∀ tag evm2 s2, evm.task.call_contract e (Evm.loop e child) (s.process_updates updates) msg =
        some (tag, evm2, s2) →
        Runs e next (evm.after_call evm2) s2

theorem handed_of_runs : ∀ (script : Script) {evm : Evm} {s : State}, Runs e script evm s →
    Handed (fun _ => True) (Evm.loop e script evm s)
  | .done updates gas_left ret_code output, evm, s, h => by
    obtain ⟨status, hs⟩ := Option.isSome_iff_exists.1 h
    unfold Evm.loop
    dsimp only
    rw [hs]
    exact ⟨_, _, _, output, rfl, rfl, trivial⟩
  | .callback m next, evm, s, h => by
    obtain ⟨h1, h2⟩ := h
    obtain ⟨replies, evm', hp⟩ := process_data_of_served h1
    unfold Evm.loop
    rw [hp]
    exact handed_of_runs next (h2 replies evm' hp)
  | .call msg updates child next, evm, s, h => by
    obtain ⟨h1, h2, h3⟩ := h
    obtain ⟨tag, evm2, s2, out, hcall, hout, -⟩ :=
      Task.call_contract_handed (fun _ _ => trivial) h1 fun evm1 s1 hst => handed_of_runs child
        (h2 evm1 s1 hst)
    unfold Evm.loop
    dsimp only
    rw [hcall, Option.bind_eq_bind, Option.bind_some, hout]
    exact handed_of_runs next (h3 tag evm2 s2 hcall)

theorem runs_of_some : ∀ (script : Script) {evm : Evm} {s : State} {ret : Ret},
    Evm.loop e script evm s = some ret → Runs e script evm s
  | .done updates gas_left ret_code output, evm, s, ret, h => by
    obtain ⟨status, hs, -⟩ := Option.bind_eq_some_iff.1 h
    exact Option.isSome_of_eq_some hs
  | .callback m next, evm, s, ret, h => by
    obtain ⟨⟨replies, evm'⟩, hp, h⟩ := Option.bind_eq_some_iff.1 h
    refine ⟨process_data_served hp, fun replies' evm'' hp' => ?_⟩
    rw [hp] at hp'
    cases hp'
    exact runs_of_some next h
  | .call msg updates child next, evm, s, ret, h => by
    obtain ⟨⟨tag, evm2, s2⟩, hcall, h⟩ := Option.bind_eq_some_iff.1 h
    obtain ⟨out, hout, h⟩ := Option.bind_eq_some_iff.1 h
    refine ⟨Task.callable_of_call hcall (Option.isSome_of_eq_some hout), ?_, ?_⟩
    · intro evm1 s1 hst
      obtain ⟨r, hr⟩ := Task.started_of_call hcall hst
      exact runs_of_some child hr
    · intro tag' evm2' s2' hcall'
      rw [hcall] at hcall'
      cases hcall'
      exact runs_of_some next h

/-- **A frame returns** exactly when everything it asks for is served. -/
theorem loop_some_iff {script : Script} {evm : Evm} : (∃ ret, Evm.loop e script evm s = some ret) ↔
    Runs e script evm s := by
  refine ⟨?_, ?_⟩
  · intro h
    obtain ⟨ret, h⟩ := h
    exact runs_of_some script h
  · intro h
    obtain ⟨tag, evm2, s2, -, h, -⟩ := handed_of_runs script h
    exact ⟨_, h⟩

end
end Diode.L4
