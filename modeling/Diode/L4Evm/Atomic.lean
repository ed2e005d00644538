import Diode.L4Evm.Conservation
import Diode.L4Evm.Static

/-!
# Frames and transactions that fail

Every frame works on the one native map, and nothing of it is put back when a
frame fails: the handle the caller still has is the handle of the map that was
written to. A failed frame is undone only as far as it wrote nothing, and so is
a failed transaction, whose sender alone gets a record written over its own.

* `nested_iff`: no failing frame of a run writes exactly when the run is
  `Contained`; then every call that fails leaves the state it was made in.
* `failed_iff`: the same for the transaction.
-/
namespace Diode.L4
open Diode.Core Diode.L3

section
variable (e : Env)

/-! ## Nested calls -/

/-- A failure restores all but the nonce of a creator, a success keeps what the
frame has left and gives a new contract its code. -/
def Resolved (do_eval : Evm → State → Option Ret) (s : State) (task : Task) (msg : Message)
    (ret : Ret) : Prop :=
  if ret.1 = .evmc_success then
    ∃ evm1 s1 evm2 s2, Task.Entered e s task msg evm1 s1 ∧ Evm.eval_internal e do_eval evm1 s1 =
      some (.evmc_success, evm2, s2) ∧
      ∀ a, ret.2.2.storage a = s2.storage a ∧ ret.2.2.account a =
        if msg.creates = true ∧ a = Task.created e s task msg then (s2.account a).map fun r =>
          { r with code := evm2.out.getD [] }
        else s2.account a
  else ∀ a, ret.2.2.storage a = s.storage a ∧
    if msg.creates = true ∧ a = task.address e then
      (ret.2.2.account a).map (fun r => (r.balance, r.code)) = (s.account a).map fun r =>
        (r.balance, r.code)
    else ret.2.2.account a = s.account a

/-- Every nested call of a run, at any depth, is resolved. -/
def Atomic : Script → Evm → State → Prop
  | .done .., _, _ => True
  | .callback m next, evm, s => ∀ replies evm', evm.process_data e s m = some (replies, evm') →
      Atomic next evm' s
  | .call msg updates child next, evm, s =>
    ∀ ret, evm.task.call_contract e (Evm.loop e child) (s.process_updates updates) msg = some ret →
      Resolved e (Evm.loop e child) (s.process_updates updates) evm.task msg ret ∧
      (∀ evm1 s1, Task.Entered e (s.process_updates updates) evm.task msg evm1 s1 →
        evm1.task.code ≠ [] → Atomic child evm1 s1) ∧
      Atomic next (evm.after_call ret.2.1) ret.2.2

/-- No step of a nested call that fails changes the state. -/
def Unwritten : Script → Evm → State → Prop
  | .done .., _, _ => True
  | .callback m next, evm, s => ∀ replies evm', evm.process_data e s m = some (replies, evm') →
      Unwritten next evm' s
  | .call msg updates child next, evm, s =>
    ∀ ret, evm.task.call_contract e (Evm.loop e child) (s.process_updates updates) msg = some ret →
      (∀ evm1 s1, Task.Entered e (s.process_updates updates) evm.task msg evm1 s1 →
        if ret.1 = .evmc_success then evm1.task.code ≠ [] → Unwritten child evm1 s1
        else s1 = s.process_updates updates ∧ (evm1.task.code ≠ [] → Untouched e true child evm1 s1)) ∧
      Unwritten next (evm.after_call ret.2.1) ret.2.2

/-- A nested call that fails neither creates an account nor moves a value, and
its frames send nothing new. -/
def Contained : Script → Evm → State → Prop
  | .done .., _, _ => True
  | .callback m next, evm, s => ∀ replies evm', evm.process_data e s m = some (replies, evm') →
      Contained next evm' s
  | .call msg updates child next, evm, s =>
    ∀ ret, evm.task.call_contract e (Evm.loop e child) (s.process_updates updates) msg = some ret →
      (∀ evm1 s1, Task.Entered e (s.process_updates updates) evm.task msg evm1 s1 →
        if ret.1 = .evmc_success then evm1.task.code ≠ [] → Contained child evm1 s1
        else (msg.creates = false ∧
            ¬Task.Transfers e evm.task msg.kind (Task.parties e evm.task msg).1
              (Task.parties e evm.task msg).2 msg.value.toNat) ∧
          (evm1.task.code ≠ [] → Harmless e true child evm1 s1)) ∧
      Contained next (evm.after_call ret.2.1) ret.2.2

/-! ## Transactions -/

/-- All but the sender's record. -/
def Elsewhere (o : Addr) (s t : State) : Prop :=
    (∀ b, b ≠ o → t.accounts.get b = s.accounts.get b) ∧ t.storage o = s.storage o

/-- The state before, with the sender's nonce and what it pays. -/
def OnlyCharged (s : State) (x : Application) (s' : State) (receipt : Receipt) : Prop :=
  let from_acc := s.ensure_account (e.origin x.tx)
  let paid : Int := if receipt.msg = .evmc_revert then x.tx.gasPrice * receipt.gas_used else x.tx.fee
  s' = s.place (e.origin x.tx) { from_acc with nonce := from_acc.nonce + 1, balance :=
    from_acc.balance - paid }

/-- The state the frame of a transaction that is charged starts in. -/
def Starts (s : State) (x : Application) (s0 : State) : Prop :=
  ∃ from_acc, x.tx.charged (s.ensure_account (e.origin x.tx)) = .ok from_acc ∧
    x.tx.prepare e s from_acc = some s0

/-- No step of the transaction changes the state but for the sender's record. -/
def Traceless (s : State) (x : Application) : Prop :=
  ∀ s0, Starts e s x s0 → Elsewhere (e.origin x.tx) s s0 ∧
    ((x.tx.task e s x.number x.static).code ≠ [] → Untouched e true x.script
      (x.tx.task e s x.number x.static).evm s0)

/-- The recipient is the sender, or is there and gets nothing, or is created as
it is already; and the frames neither create, nor pay, nor send anything new. -/
def Inert (s : State) (x : Application) : Prop :=
  (x.tx.to_address e = e.origin x.tx ∨
    if x.tx.contract_creation = true then s.account (x.tx.to_address e) = some (Record.new 1 x.tx.value)
    else x.tx.value = 0 ∧ (s.account (x.tx.to_address e)).isSome = true) ∧
  ∀ s0, Starts e s x s0 → (x.tx.task e s x.number x.static).code ≠ [] →
    Harmless e true x.script (x.tx.task e s x.number x.static).evm s0

end

section
variable {e : Env} {do_eval : Evm → State → Option Ret} {evm evm1 : Evm} {s s0 s1 : State}
    {task : Task} {msg : Message} {ret : Ret}
  {tx : Transaction} {from_acc r : Record} {a : Addr}

theorem resolved_same (h : ret.2.2 = s) (hf : ret.1 ≠ .evmc_success) :
    Resolved e do_eval s task msg ret := by
  unfold Resolved
  rw [if_neg hf, h]
  intro a
  refine ⟨rfl, ?_⟩
  split <;> rfl

/-- What a call that succeeds has done is kept. -/
theorem resolved_success (h : Task.call_contract e do_eval s task msg = some ret)
    (hs : ret.1 = .evmc_success) :
    Resolved e do_eval s task msg ret := by
  unfold Resolved
  rw [if_pos hs]
  cases Task.call_contract_nested h with
  | call s1 _ hk ht h1 =>
    obtain ⟨tag, evm2, s2⟩ := ret
    cases hs
    refine ⟨_, s1, evm2, s2, .call s1 hk ht, h1, fun a => ⟨rfl, ?_⟩⟩
    rw [if_neg fun hc => by rw [hk] at hc; exact absurd hc.1 Bool.false_ne_true]
  | refused => cases hs
  | failed account s1 s2 _ _ _ _ _ _ _ hne => exact absurd hs hne
  | deployed account s1 s2 s3 s4 evm2 hk hover ha h1 h2 h3 h4 =>
    refine ⟨_, s2, evm2, s3, .create account s1 s2 hk hover ha h1 h2, h3, fun a => ?_⟩
    cases hacc : s3.account (Task.created e s task msg) with
    | none =>
      rw [hacc] at h4
      subst h4
      refine ⟨rfl, ?_⟩
      split
      · rename_i hc
        rw [hc.2, hacc]
        rfl
      · rfl
    | some to_account =>
      rw [hacc] at h4
      obtain ⟨hw, rfl⟩ := State.set_account_some.1 h4
      refine ⟨State.storage_place .., ?_⟩
      rw [State.account_place]
      by_cases hc : a = Task.created e s task msg
      · rw [if_pos hc.symm, if_pos ⟨hk, hc⟩, hc, hacc, State.toRecord_toAccount hw
          (State.account_bounds hacc).2]
        rfl
      · rw [if_neg (Ne.symm hc), if_neg fun h => hc h.2]

/-- A call that neither creates nor pays, to a frame that sends nothing new. -/
theorem call_harmless {child : Script}
    (hcall : task.call_contract e (Evm.loop e child) s msg = some ret)
    (hin : ∀ evm1 s1, Task.Entered e s task msg evm1 s1 →
      (msg.creates = false ∧ ¬Task.Transfers e task msg.kind (Task.parties e task msg).1
        (Task.parties e task msg).2 msg.value.toNat) ∧
        (evm1.task.code ≠ [] → Harmless e true child evm1 s1)) : ret.2.2 = s :=
  call_contract_state hcall fun evm1 s1 hen =>
    ⟨(hin evm1 s1 hen).1, fun hc _ h1 => harmless_end child ((hin evm1 s1 hen).2 hc) rfl h1⟩

theorem atomic_of_harmless : ∀ (script : Script) {evm : Evm} {s : State},
    Harmless e true script evm s → Atomic e script evm s
  | .done .., _, _, _ => trivial
  | .callback m next, evm, s, h => fun replies evm' hp => atomic_of_harmless next (h replies evm' hp)
  | .call msg updates child next, evm, s, h => by
    obtain ⟨-, hin, hnext⟩ := h
    intro ret hcall
    have hframe := fun evm1 s1 hen => And.imp_left (fun hT => hT rfl) (hin evm1 s1 hen)
    refine ⟨?_, fun evm1 s1 hen hc => atomic_of_harmless child ((hframe evm1 s1 hen).2 hc),
      atomic_of_harmless next (hnext _ _ _ hcall)⟩
    by_cases hs : ret.1 = .evmc_success
    · exact resolved_success hcall hs
    · exact resolved_same (call_harmless hcall hframe) hs

theorem atomic_of_contained : ∀ (script : Script) {evm : Evm} {s : State},
    Contained e script evm s → Atomic e script evm s
  | .done .., _, _, _ => trivial
  | .callback m next, evm, s, h => fun replies evm' hp => atomic_of_contained next (h replies evm' hp)
  | .call msg updates child next, evm, s, h => by
    intro ret hcall
    obtain ⟨hin, hnext⟩ := h ret hcall
    by_cases hs : ret.1 = .evmc_success
    · refine ⟨resolved_success hcall hs, fun evm1 s1 hen hc => ?_, atomic_of_contained next hnext⟩
      have hchild := hin evm1 s1 hen
      rw [if_pos hs] at hchild
      exact atomic_of_contained child (hchild hc)
    · have hframe := fun evm1 s1 hen => (if_neg hs).mp (hin evm1 s1 hen)
      exact ⟨resolved_same (call_harmless hcall hframe) hs, fun evm1 s1 hen hc =>
        atomic_of_harmless child ((hframe evm1 s1 hen).2 hc),
        atomic_of_contained next hnext⟩

theorem contained_of_unwritten : ∀ (script : Script) {evm : Evm} {s : State},
    Unwritten e script evm s → Contained e script evm s
  | .done .., _, _, _ => trivial
  | .callback m next, evm, s, h => fun replies evm' hp => contained_of_unwritten next
      (h replies evm' hp)
  | .call msg updates child next, evm, s, h => by
    intro ret hcall
    obtain ⟨hin, hnext⟩ := h ret hcall
    refine ⟨fun evm1 s1 hen => ?_, contained_of_unwritten next hnext⟩
    have hchild := hin evm1 s1 hen
    split
    · rename_i hs
      rw [if_pos hs] at hchild
      exact fun hc => contained_of_unwritten child (hchild hc)
    · rename_i hs
      rw [if_neg hs] at hchild
      exact ⟨entered_same hen hchild.1, fun hc => harmless_of_untouched child (hchild.2 hc)⟩

theorem unwritten_of_contained : ∀ (script : Script) {evm : Evm} {s : State},
    Contained e script evm s → Unwritten e script evm s
  | .done .., _, _, _ => trivial
  | .callback m next, evm, s, h => fun replies evm' hp => unwritten_of_contained next
      (h replies evm' hp)
  | .call msg updates child next, evm, s, h => by
    intro ret hcall
    obtain ⟨hin, hnext⟩ := h ret hcall
    refine ⟨fun evm1 s1 hen => ?_, unwritten_of_contained next hnext⟩
    have hchild := hin evm1 s1 hen
    split
    · rename_i hs
      rw [if_pos hs] at hchild
      exact fun hc => unwritten_of_contained child (hchild hc)
    · rename_i hs
      rw [if_neg hs] at hchild
      exact ⟨entered_of hen hchild.1, fun hc => untouched_of_harmless child (hchild.2 hc)⟩

/-! ## A transaction that fails -/

theorem state_ext {t : State} (h : ∀ b, t.accounts.get b = s.accounts.get b) : t = s := by
  have hacc : t.accounts = s.accounts := SMap.ext h
  obtain ⟨m, w⟩ := s
  obtain ⟨m', w'⟩ := t
  cases hacc
  rfl

theorem get_place (s : State) (a b : Addr) (r : Record) :
    (s.place a r).accounts.get b = if a = b then some (r.toAccount (s.storage a))
      else s.accounts.get b := SMap.get_put ..

/-- Writing one record over two states makes them the same exactly if they are
elsewhere. -/
theorem place_eq_iff {t : State} {o : Addr} {r : Record} : t.place o r = s.place o r ↔
    Elsewhere o s t := by
  refine ⟨?_, ?_⟩
  · intro h
    refine ⟨fun b hb => ?_, ?_⟩
    · have hget : (t.place o r).accounts.get b = (s.place o r).accounts.get b := by rw [h]
      rw [get_place, get_place, if_neg (Ne.symm hb), if_neg (Ne.symm hb)] at hget
      exact hget
    · rw [← State.storage_place t o o r, ← State.storage_place s o o r, h]
  · intro h
    obtain ⟨hoff, hst⟩ := h
    refine state_ext fun b => ?_
    rw [get_place, get_place, hst]
    split
    · rfl
    · rename_i hb
      exact hoff b (Ne.symm hb)

theorem Elsewhere.place {t : State} {o : Addr} (r : Record) : Elsewhere o s (t.place o r) ↔
    Elsewhere o s t := by
  rw [← place_eq_iff (r := r), ← place_eq_iff (r := r)]
  have htwice : (t.place o r).place o r = t.place o r := by
    refine state_ext fun b => ?_
    rw [get_place, get_place, State.storage_place]
    split <;> rfl
  rw [htwice]

theorem Elsewhere.refl (o : Addr) (s : State) : Elsewhere o s s := ⟨fun _ _ => rfl, rfl⟩

theorem get_of_account (h : s.account a = some r) : s.accounts.get a = some
    (r.toAccount (s.storage a)) := by
  rw [← State.place_self h, get_place, if_pos rfl, State.storage_place]

theorem account_of_get {t : Tree} (h : s.accounts.get a = some (r.toAccount t)) :
    s.account a = some (toRecord (r.toAccount t)) := by
  unfold State.account
  rw [h, Option.map_some]

/-- Two writes to different accounts leave the second as it was. -/
theorem elsewhere_second {o : Addr} (ht : a ≠ o) (f : Record) :
    Elsewhere o s ((s.place o f).place a r) ↔ s.accounts.get a = some (r.toAccount (s.storage a)) := by
  refine ⟨?_, ?_⟩
  · intro h
    have hget := h.1 a ht
    rw [get_place, if_pos rfl, State.storage_place] at hget
    exact hget.symm
  · intro h
    refine ⟨fun b hb => ?_, by rw [State.storage_place, State.storage_place]⟩
    rw [get_place, State.storage_place]
    split
    · rename_i hab
      rw [← h, hab]
    · rw [get_place, if_neg (Ne.symm hb)]

/-- What the credit of the recipient changes. -/
theorem prepare_elsewhere (hc : tx.charged (s.ensure_account (e.origin tx)) = .ok from_acc)
    (h : tx.prepare e s from_acc = some s0) :
    Elsewhere (e.origin tx) s s0 ↔ (tx.to_address e = e.origin tx ∨
      if tx.contract_creation = true then s.account (tx.to_address e) = some (Record.new 1 tx.value)
      else tx.value = 0 ∧ (s.account (tx.to_address e)).isSome = true) := by
  obtain ⟨s2, h1, h2⟩ := Option.bind_eq_some_iff.1 h
  obtain ⟨-, rfl⟩ := State.set_account_some.1 h1
  obtain ⟨hw, rfl⟩ := State.set_account_some.1 h2
  obtain ⟨-, hfunds, -⟩ := charged_balance 0 hc
  have hlt := s.balance_lt (e.origin tx)
  by_cases ht : tx.to_address e = e.origin tx
  · rw [ht, Elsewhere.place, Elsewhere.place]
    exact ⟨fun _ => .inl rfl, fun _ => .refl _ s⟩
  · rw [elsewhere_second ht, or_iff_right ht]
    unfold Transaction.destination at hw ⊢
    by_cases hcr : tx.contract_creation = true
    · rw [if_pos hcr] at hw ⊢
      have hnew : ({ Record.new 1 0 with balance := (Record.new 1 0).balance + tx.value } :
        Record) = Record.new 1 tx.value := by
        unfold Record.new
        rw [Int.zero_add]
      rw [hnew] at hw ⊢
      rw [if_pos hcr]
      refine ⟨fun hget => ?_, get_of_account⟩
      rw [account_of_get hget, State.toRecord_toAccount hw (by show (tx.value : Int) < 2 ^ 256; omega)]
    · rw [if_neg hcr, if_neg hcr]
      refine ⟨?_, ?_⟩
      · intro hget
        have hacc := account_of_get hget
        refine ⟨?_, by rw [hacc]; rfl⟩
        have hbal := State.balance_of_account hacc
        have hword : ((BitVec.ofInt 256 ((s.ensure_account (tx.to_address e)).balance + tx.value)).toNat : Int) =
            s.balance (tx.to_address e) := hbal
        rw [word_toNat, State.ensure_account_balance] at hword
        have hlt' := s.balance_lt (tx.to_address e)
        omega
      · intro h
        obtain ⟨h0, hsome⟩ := h
        obtain ⟨d, hd⟩ := Option.isSome_iff_exists.1 hsome
        refine get_of_account ?_
        rw [State.ensure_account, hd, Option.getD_some, h0]
        show some d = some { d with balance := d.balance + ((0 : Nat) : Int) }
        rw [Int.natCast_zero, Int.add_zero]

/-- A run that fails is not settled. -/
theorem eval_failed {script : Script} (h : Evm.eval e script evm s = some ret)
    (hf : ret.1 ≠ .evmc_success) :
    Evm.eval_internal e (Evm.loop e script) evm s = some ret := by
  obtain ⟨⟨tag, evm2, s1⟩, hint, h⟩ := Option.bind_eq_some_iff.1 h
  dsimp only at h
  split at h
  · rename_i ht
    obtain ⟨s2, -, h⟩ := Option.bind_eq_some_iff.1 h
    cases h
    exact absurd ht hf
  · cases h
    exact hint

section
variable {s' : State} {x : Application} {receipt : Receipt}

/-- A failure writes the sender's record over what the run has left. -/
theorem apply_failed (h : x.apply e s = some (.ok (s', receipt))) (hf : receipt.msg ≠ .evmc_success) :
    ∃ s0 ret, Ends e s x s0 ret ∧ ret.1 ≠ .evmc_success ∧ s' = ret.2.2.place (e.origin x.tx)
      { s.ensure_account (e.origin x.tx) with
      nonce := (s.ensure_account (e.origin x.tx)).nonce + 1
      balance := (s.ensure_account (e.origin x.tx)).balance -
        (if receipt.msg = .evmc_revert then x.tx.gasPrice * receipt.gas_used else x.tx.fee : Int) } := by
  obtain ⟨from_acc, s0, ⟨tag, evm, s1⟩, hc, h0, h1, h2⟩ := apply_ok h
  have htag : tag ≠ .evmc_success := by
    intro ht
    subst ht
    obtain ⟨-, -, -, -, -, -, hmsg⟩ := finish_succeeds h2
    exact hf hmsg
  obtain ⟨hs, hgas, hmsg⟩ := finish_fails htag h2
  obtain ⟨-, rfl⟩ := State.set_account_some.1 hs
  obtain ⟨⟨hb, -⟩, -⟩ := State.ensure_account_bounds s (e.origin x.tx)
  obtain ⟨hn, -, hacc⟩ := (charged_ok hb).1 hc
  obtain ⟨-, -, hprice⟩ := charged_balance evm.gas hc
  refine ⟨s0, _, ⟨from_acc, hc, h0, h1⟩, htag, ?_⟩
  congr 1
  rw [hacc, Record.mk.injEq, hmsg, hgas, hprice]
  refine ⟨by rw [hn], ?_, rfl⟩
  dsimp only
  split <;> omega

theorem Ends.starts (h : Ends e s x s0 ret) : Starts e s x s0 := by
  obtain ⟨from_acc, hc, hp, -⟩ := h
  exact ⟨from_acc, hc, hp⟩

theorem Starts.elsewhere (h : Starts e s x s0) : Elsewhere (e.origin x.tx) s s0 ↔
    (x.tx.to_address e = e.origin x.tx ∨
    if x.tx.contract_creation = true then s.account (x.tx.to_address e) = some (Record.new 1 x.tx.value)
    else x.tx.value = 0 ∧ (s.account (x.tx.to_address e)).isSome = true) := by
  obtain ⟨from_acc, hc, hp⟩ := h
  exact prepare_elsewhere hc hp

/-- An inert transaction leaves no trace but for its sender. -/
theorem inert_elsewhere (hi : Inert e s x) (h : Ends e s x s0 ret) (hf : ret.1 ≠ .evmc_success) :
    Elsewhere (e.origin x.tx) s ret.2.2 := by
  have hstart := h.starts
  obtain ⟨-, -, -, hr⟩ := h
  have hsame : ret.2.2 = s0 := eval_internal_state (eval_failed hr hf) fun hcode ret1 h1 =>
    harmless_end x.script (hi.2 s0 hstart hcode) rfl h1
  rw [hsame]
  exact hstart.elsewhere.2 hi.1

/-- **A failed transaction** is undone exactly if the run has left all but the
sender's record as it was. No step changes more than that record exactly if the
transaction is inert, and then it is undone. -/
theorem failed_iff (e : Env) (s s' : State) (x : Application) (receipt : Receipt)
    (h : x.apply e s = some (.ok (s', receipt)))
    (hf : receipt.msg ≠ .evmc_success) :
    (OnlyCharged e s x s' receipt ↔ ∀ s0 ret, Ends e s x s0 ret → Elsewhere (e.origin x.tx) s ret.2.2) ∧
      (Traceless e s x ↔ Inert e s x) ∧ (Inert e s x → OnlyCharged e s x s' receipt) := by
  obtain ⟨s0, ret, hends, hret, rfl⟩ := apply_failed h hf
  have hstart := hends.starts
  have hcharged : OnlyCharged e s x _ receipt ↔ Elsewhere (e.origin x.tx) s ret.2.2 := place_eq_iff
  refine ⟨?_, ⟨fun ht => ?_, fun hi s0' hs' => ?_⟩, fun hi =>
    hcharged.2 (inert_elsewhere hi hends hret)⟩
  · rw [hends.forall_iff]
    exact hcharged
  · refine ⟨hstart.elsewhere.1 (ht s0 hstart).1, fun s0' hs' hcode => ?_⟩
    exact harmless_of_untouched x.script ((ht s0' hs').2 hcode)
  · exact ⟨hs'.elsewhere.2 hi.1, fun hcode => untouched_of_harmless x.script (hi.2 s0' hs' hcode)⟩

end

/-- **Nested frames.** No frame that fails, and none below it, writes exactly
when the run is contained, and then every call is atomic. -/
theorem nested_iff (e : Env) (script : Script) (evm : Evm) (s : State) :
    (Unwritten e script evm s ↔ Contained e script evm s) ∧
      (Contained e script evm s → Atomic e script evm s) :=
  ⟨⟨contained_of_unwritten script, unwritten_of_contained script⟩, atomic_of_contained script⟩

end
/-- Account 5 has 10, account 9 nothing. -/
def payingState : State := (State.empty.place 5 ⟨1, 10, [0xFA]⟩).place 9 ⟨1, 0, [0x55]⟩

/-- A call from 5 to 9 with a value of 3. -/
def payingCall : Message := ⟨.call, false, 5, 9, 3, [], 100, 0⟩

/-- The called frame reverts, and its contract keeps the value. -/
theorem reverted_call_pays :
    ¬Atomic Env.plain (.call payingCall [] (.done [] 50 2 []) (.done [] 50 0 [])) staticCaller.evm
    payingState := by
  intro h
  have hrun : (staticCaller.call_contract Env.plain (Evm.loop Env.plain (.done [] 50 2 [])) payingState payingCall).map
      (fun ret => (ret.1, ret.2.2.balance 9)) = some (.evmc_revert, 3) := by decide +kernel
  obtain ⟨ret, hcall, he⟩ := Option.map_eq_some_iff.1 hrun
  obtain ⟨htag, hbal⟩ := Prod.mk.inj he
  obtain ⟨hres, -⟩ := h ret hcall
  unfold Resolved at hres
  rw [if_neg (by rw [htag]; decide)] at hres
  obtain ⟨-, hacc⟩ := hres 9
  rw [if_neg (by decide)] at hacc
  have h0 : payingState.balance 9 = 0 := by decide +kernel
  have hsame : ret.2.2.balance 9 = payingState.balance 9 := by
    have h1 := State.ensure_account_balance ret.2.2 9
    have h2 := State.ensure_account_balance payingState 9
    unfold State.ensure_account at h1 h2
    rw [hacc] at h1
    exact_mod_cast h1.symm.trans h2
  omega

/-- Account 7 calls account 9, which reads a slot and its balance and reverts. -/
def revertedCall (value : Nat) : Application :=
  ⟨.callback (.get_storage 9 1) (.callback (.get_balance 9) (.done [] 0 2 [])), ⟨0, 0, 21000, some 9, value, none, List.replicate 65 0, none, none⟩, 1, false⟩

def revertState : State := funded.place 9 ⟨1, 0, [0x60, 0x00, 0x60, 0x00, 0xFD]⟩

theorem reverted_call_undone : ∃ s' receipt, (revertedCall 0).apply senderEnv revertState = some
    (.ok (s', receipt)) ∧
    OnlyCharged senderEnv revertState (revertedCall 0) s' receipt :=
  ⟨_, _, rfl, (failed_iff senderEnv revertState _ (revertedCall 0) _ rfl (by decide)).2.2
    ⟨.inr ⟨rfl, rfl⟩, fun s0 _ _ _ _ _ _ _ _ _ _ => idle_nil s0⟩⟩

/-- The recipient keeps the value of a call that reverts. -/
theorem reverted_value_stays : ∃ s' receipt, (revertedCall 5).apply senderEnv revertState = some
    (.ok (s', receipt)) ∧
    receipt.msg = .evmc_revert ∧ ¬OnlyCharged senderEnv revertState (revertedCall 5) s' receipt := by
  refine ⟨_, _, rfl, rfl, fun h => ?_⟩
  have hbal := congrArg (fun u : State => u.balance 9) h
  exact absurd hbal (by decide +kernel)

end Diode.L4
