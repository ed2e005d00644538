import Diode.L4Evm.Evm

/-!
# Settlement of destroyed accounts

A frame that ends well hands the beneficiary of its `selfdestruct` to the list
of its task, and `eval` settles the list after a successful run. The beneficiary
is the 20 bytes of the callback; `eval_timed` compares it with `0` and puts it
into `<<benefector::160>>`, as if it were a number. A binary in that segment
raises, so no account is ever settled.

**Results.**
* `loop_recorded`: every record a run collects has a binary beneficiary, for
  any nesting of calls and creations.
* `settle_records`: a list of such records is settled when it is empty, and
  raises otherwise.
* `selfdestruct_settlement`: a successful run is settled as it should be when,
  and only when, it has collected no record.
-/
namespace Diode.L4
open Diode.Core Diode.L3

/-! ## What a settlement is for -/

/-- The record of an account and its beneficiary, as the callback leaves it. -/
def destroyed (d : Addr × Addr) : Addr × Term := (d.1, .ofAddr d.2)

/-- The destroyed accounts are gone, the balance of each went to a beneficiary
it named, or was burned where that is the zero address or destroyed too, and
nobody else's balance is another. -/
structure Settled (s s' : State) (l : List (Addr × Addr)) : Prop where
  gone : ∀ a ∈ l.map Prod.fst, s'.account a = none
  paid : ∃ beneficiary : Addr → Addr, (∀ a ∈ l.map Prod.fst, (a, beneficiary a) ∈ l) ∧
    ∀ b ∉ l.map Prod.fst, s'.balance b = s.balance b +
      if b = 0 then 0 else (((l.map Prod.fst).dedup.filter fun a => beneficiary a = b).map s.balance).sum

theorem Settled.nil (s : State) : Settled s s [] where
  gone _ h := nomatch h
  paid := ⟨id, fun _ h => (nomatch h), fun b _ => by simp⟩

/-! ## The records of a run -/

/-- Beneficiaries are binaries of 20 bytes. -/
structure Evm.Recorded (evm : Evm) : Prop where
  task : ∀ r ∈ evm.task.selfdestructs, ∃ ben, r.2 = .ofAddr ben
  frame : ∀ t ∈ evm.selfdestruct, ∃ ben, t = .ofAddr ben

section
variable {e : Env} {evm : Evm} {s : State} {task : Task} {msg : Message} {ret : Ret}
    {do_eval : Evm → State → Option Ret}

theorem Task.evm_recorded (h : ∀ r ∈ task.selfdestructs, ∃ ben, r.2 = .ofAddr ben) :
    task.evm.Recorded where
  task := h
  frame _ ht := nomatch ht

theorem Evm.Recorded.answered {m : Callback} {packets : List Bytes} {evm' : Evm} (h : evm.Recorded)
    (hm : evm.process_data e s m = some (packets, evm')) : evm'.Recorded := by
  cases m with
  | selfdestruct _ ben =>
    cases hm
    exact ⟨h.task, fun t ht => ⟨ben, by cases ht; rfl⟩⟩
  | emit_log addr data topics =>
    unfold process_data at hm
    dsimp only at hm
    split at hm
    · cases hm
    · cases hm
      exact ⟨h.task, h.frame⟩
  | copy_code addr offset size =>
    unfold process_data at hm
    dsimp only at hm
    split at hm
    · cases hm
      exact h
    · cases hm
  | get_block_hash number =>
    unfold process_data at hm
    dsimp only at hm
    split at hm
    · cases hm
      exact h
    · obtain ⟨hash, -, hm⟩ := Option.map_eq_some_iff.1 hm
      cases hm
      exact h
  | get_storage | account_exists | get_balance | get_code_size | get_code_hash =>
    cases hm
    exact h

theorem Evm.settle_frame_recorded (h : ret.2.1.Recorded) : (settle_frame e ret).2.1.Recorded := by
  obtain ⟨tag, evm2, s2⟩ := ret
  obtain ⟨ht, hf⟩ := h
  dsimp only at ht hf
  unfold settle_frame
  split
  · rename_i _ evm3 s3 heq
    cases heq
    dsimp only
    -- the frame's own record joins those of its task
    have hnew : ∀ ben ∈ evm2.selfdestruct, ∀ r ∈ (evm2.task.address e, ben) :: evm2.task.selfdestructs,
        ∃ b, r.2 = Term.ofAddr b := by
      intro ben hb r hr
      rcases List.mem_cons.1 hr with rfl | hr
      · exact hf ben hb
      · exact ht r hr
    cases hsd : evm2.selfdestruct with
    | none =>
      dsimp only
      split
      · exact ⟨ht, fun _ h => nomatch h⟩
      · split <;> exact ⟨ht, fun _ h => nomatch h⟩
    | some ben =>
      dsimp only
      split
      · exact ⟨hnew ben hsd, fun t h => hf t (by rw [hsd]; exact h)⟩
      · split <;> exact ⟨hnew ben hsd, fun t h => hf t (by rw [hsd]; exact h)⟩
  · exact ⟨ht, hf⟩

theorem Evm.eval_internal_recorded (hdo : ∀ {evm s ret}, evm.Recorded → do_eval evm s = some ret →
    ret.2.1.Recorded)
    (h : evm.Recorded) (hr : eval_internal e do_eval evm s = some ret) : ret.2.1.Recorded := by
  unfold eval_internal at hr
  split at hr
  · split at hr
    · cases hr
      exact ⟨h.task, h.frame⟩
    · unfold eval_internal_precompile at hr
      dsimp only at hr
      split at hr
      · cases hr
        exact ⟨h.task, h.frame⟩
      · obtain ⟨_, -, hr⟩ := Option.map_eq_some_iff.1 hr
        cases hr
        exact ⟨h.task, h.frame⟩
  · obtain ⟨ret1, h1, rfl⟩ := Option.map_eq_some_iff.1 hr
    exact settle_frame_recorded (hdo h h1)

/-- A nested frame starts with the records of its caller. -/
theorem Task.call_contract_recorded (hdo : ∀ {evm s ret}, evm.Recorded → do_eval evm s = some ret →
    ret.2.1.Recorded)
    (h : ∀ r ∈ task.selfdestructs, ∃ ben, r.2 = .ofAddr ben)
      (hr : call_contract e do_eval s task msg = some ret) :
    ret.2.1.Recorded := by
  have hcall : (callee e s task msg).evm.Recorded := evm_recorded h
  have hcreate : (creation e s task msg).evm.Recorded := evm_recorded h
  cases call_contract_nested hr with
  | call s1 _ _ _ h1 => exact Evm.eval_internal_recorded hdo hcall h1
  | refused => exact ⟨h, fun _ ht => nomatch ht⟩
  | failed account s1 s2 _ _ _ _ _ _ h3 => exact Evm.eval_internal_recorded hdo hcreate h3
  | deployed account s1 s2 s3 s4 evm2 _ _ _ _ _ h3 =>
    have h2 := Evm.eval_internal_recorded hdo hcreate h3
    exact ⟨h2.task, h2.frame⟩

/-- **Every record is one of 20 bytes**, by induction on what the interpreter does. -/
theorem Evm.loop_recorded : ∀ (script : Script) {evm : Evm} {s : State} {ret : Ret}, evm.Recorded →
    loop e script evm s = some ret → ret.2.1.Recorded
  | .done updates gas_left ret_code output, evm, s, ret, h, hr => by
    obtain ⟨status, -, hr⟩ := Option.bind_eq_some_iff.1 hr
    cases hr
    exact ⟨h.task, h.frame⟩
  | .callback m next, evm, s, ret, h, hr => by
    obtain ⟨⟨packets, evm'⟩, hm, hr⟩ := Option.bind_eq_some_iff.1 hr
    exact loop_recorded next (h.answered hm) hr
  | .call msg updates child next, evm, s, ret, h, hr => by
    obtain ⟨⟨tag, evm2, s2⟩, h1, hr⟩ := Option.bind_eq_some_iff.1 hr
    obtain ⟨_, -, hr⟩ := Option.bind_eq_some_iff.1 hr
    have h2 := Task.call_contract_recorded (loop_recorded child) h.task h1
    refine loop_recorded next ?_ hr
    unfold after_call
    split
    · exact ⟨h2.task, h.frame⟩
    · exact h

theorem recorded_list : ∀ {l : List (Addr × Term)}, (∀ r ∈ l, ∃ ben, r.2 = Term.ofAddr ben) →
    ∃ ds : List (Addr × Addr), l = ds.map destroyed
  | [], _ => ⟨[], rfl⟩
  | (a, t) :: l, h => by
    obtain ⟨ben, hb⟩ := h _ (List.mem_cons_self ..)
    obtain ⟨ds, rfl⟩ := recorded_list fun r hr => h r (List.mem_cons_of_mem _ hr)
    dsimp only at hb
    subst hb
    exact ⟨(a, ben) :: ds, rfl⟩

/-! ## Settling them -/

/-- A binary does not fit a segment of an integer. -/
theorem settle_one_destroyed (s : State) (d : Addr × Addr) :
    Evm.settle_one s (destroyed d) = none := rfl

theorem settle_records (s : State) (ds : List (Addr × Addr)) :
    Evm.settle s (ds.map destroyed) = if ds = [] then some s else none := by
  cases ds with
  | nil => rfl
  | cons d ds => rfl

/-- **Settlement.** A successful run of a transaction, with any script at any
depth, is settled exactly when it has collected no record of a destroyed
account. -/
theorem selfdestruct_settlement (e : Env) (script : Script) (task : Task) (s s1 : State) (evm2 : Evm)
    (h0 : task.selfdestructs = []) (h : Evm.eval_internal e (Evm.loop e script) task.evm s = some
      (.evmc_success, evm2, s1)) :
    ∃ ds : List (Addr × Addr), evm2.task.selfdestructs = ds.map destroyed ∧
      ((∃ s', Evm.eval e script task.evm s = some (.evmc_success, evm2, s') ∧ Settled s1 s' ds) ↔
        ds = []) := by
  have hrec : evm2.Recorded :=
    Evm.eval_internal_recorded (Evm.loop_recorded script)
      (Task.evm_recorded (by rw [h0]; exact fun _ h => nomatch h)) h
  obtain ⟨ds, hds⟩ := recorded_list hrec.task
  have heval : Evm.eval e script task.evm s = (Evm.settle s1 evm2.task.selfdestructs).map fun s' =>
    (.evmc_success, evm2, s') := by
    unfold Evm.eval
    rw [h, Option.bind_eq_bind, Option.bind_some]
    dsimp only
    rw [if_pos rfl]
    cases Evm.settle s1 evm2.task.selfdestructs <;> rfl
  refine ⟨ds, hds, ?_⟩
  rw [heval, hds, settle_records]
  refine ⟨?_, ?_⟩
  · intro hx
    obtain ⟨s', h1, -⟩ := hx
    by_contra hne
    rw [if_neg hne] at h1
    cases h1
  · rintro rfl
    exact ⟨s1, rfl, .nil s1⟩

end

/-- Account 5 runs code and names 9 as its beneficiary. -/
def selfdestructTask : Task where
  static := false
  source := 7
  tx := ⟨0, 0, 100, some 5, 0, none, [], none, some []⟩
  code := [0x60, 0x09, 0xFF]
  number := 1
  internal := true
  selfdestructs := []

/-- The contract reads a balance, destroys itself and writes a slot. -/
def selfdestructScript : Script :=
  .callback (.get_balance 9) (.callback (.selfdestruct 5 9) (.done [((5, 1), 8)] 40 0 []))

theorem selfdestruct_settlement_recorded :
    let s := State.empty.place 5 ⟨1, 30, selfdestructTask.code⟩
    ∃ evm2 s1, Evm.eval_internal Env.plain (Evm.loop Env.plain selfdestructScript) selfdestructTask.evm s =
        some (.evmc_success, evm2, s1) ∧
      evm2.task.selfdestructs = [destroyed (5, 9)] ∧
      ∃ ds : List (Addr × Addr), evm2.task.selfdestructs = ds.map destroyed ∧
        ((∃ s', Evm.eval Env.plain selfdestructScript selfdestructTask.evm s = some (.evmc_success, evm2, s') ∧
          Settled s1 s' ds) ↔ ds = []) := by
  intro s
  exact ⟨_, _, rfl, rfl, selfdestruct_settlement Env.plain selfdestructScript selfdestructTask s _ _ rfl rfl⟩

/-- The run ends well with one record, and its settlement raises. -/
theorem selfdestruct_raises :
    ∃ evm2, Evm.eval_internal Env.plain
      (Evm.loop Env.plain (.callback (.selfdestruct 5 9) (.done [] 40 0 [])))
        selfdestructTask.evm State.empty = some (.evmc_success, evm2, State.empty) ∧
      evm2.task.selfdestructs = [destroyed (5, 9)] ∧
      Evm.eval Env.plain (.callback (.selfdestruct 5 9) (.done [] 40 0 [])) selfdestructTask.evm
        State.empty = none :=
  ⟨_, rfl, rfl, rfl⟩

end Diode.L4
