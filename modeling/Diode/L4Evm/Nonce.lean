import Diode.L4Evm.Gas

/-!
# Nonces over a run of transactions

`Transaction.apply` refuses a transaction whose nonce is not its sender's, and
hands the sender's record on with the next one. The recipient's record is read
before that and written after it, so a transaction that its sender sends to
itself puts the old nonce back; only a failure writes the sender's record once
more.

* `nonce_ok`: the nonce of an account after one transaction.
* `nonce_iff`: along a run a sender's nonce counts its transactions exactly when
  no step writes an older record over it (`Kept`); then none is applied twice.
-/
namespace Diode.L4
open Diode.Core

def State.nonce (s : State) (a : Addr) : Nat := (s.ensure_account a).nonce

/-- The arguments of `apply`. -/
structure Application where
  script : Script
  tx : Transaction
  number : Nat
  static : Bool

section
variable (e : Env)

def Application.apply (x : Application) (s : State) : Option (Except Refusal (State × Receipt)) :=
  x.tx.apply e x.script x.number x.static s

/-- The transactions of a run that are applied. A refused one leaves the state
as it is, a raise ends the run. -/
def accepted : State → List Application → List Transaction
  | _, [] => []
  | s, x :: xs =>
    match x.apply e s with
    | none => []
    | some (.error _) => accepted s xs
    | some (.ok (s', _)) => x.tx :: accepted s' xs

/-- Holds of every transaction that is applied, with the states around it. -/
def Each (P : State → Application → State → Prop) : State → List Application → Prop
  | _, [] => True
  | s, x :: xs =>
    match x.apply e s with
    | none => True
    | some (.error _) => Each P s xs
    | some (.ok (s', _)) => P s x s' ∧ Each P s' xs

/-- What the frame of a transaction that is charged runs on and ends with. -/
def Ends (s : State) (x : Application) (s0 : State) (ret : Ret) : Prop :=
  ∃ from_acc, x.tx.charged (s.ensure_account (e.origin x.tx)) = .ok from_acc ∧
    x.tx.prepare e s from_acc = some s0 ∧
    Evm.eval e x.script (x.tx.task e s x.number x.static).evm s0 = some ret

/-- No code that is run changes the nonce of the account or deletes it. -/
def Quiet (a : Addr) (s : State) (x : Application) : Prop :=
  ∀ s0 ret, Ends e s x s0 ret → (ret.2.2.account a).map Record.nonce = (s0.account a).map Record.nonce

/-- The nonce goes up with a transaction of the account and with no other. -/
def Counts (a : Addr) (s : State) (x : Application) (s' : State) : Prop :=
  s'.nonce a = if e.origin x.tx = a then x.tx.nonce + 1 else s.nonce a

/-- A transaction to its own sender fails; a contract is created at an account
only where the nonce is as it would be anyway. -/
def Kept (a : Addr) (s : State) (x : Application) : Prop :=
  x.tx.to_address e = a →
    if e.origin x.tx = a then (x.tx.contract_creation = true ∧ x.tx.nonce = 0) ∨
      ∀ s0 ret, Ends e s x s0 ret → ret.1 ≠ .evmc_success
    else x.tx.contract_creation = true → s.nonce a = 1

/-- The transactions of one sender that are applied. -/
def own (a : Addr) (s : State) (xs : List Application) : List Transaction :=
    (accepted e s xs).filter fun tx => e.origin tx = a

end

section
variable {e : Env} {a b : Addr} {s s0 s1 s' : State} {x : Application} {xs : List Application}
    {tx : Transaction} {r from_acc : Record}
  {ret : Ret} {receipt : Receipt} {P Q : State → Application → State → Prop}

/-! ## One transaction -/

theorem nonce_place (h : r.Writable) : (s.place b r).nonce a = if b = a then r.nonce
    else s.nonce a := by
  unfold State.nonce State.ensure_account
  rw [State.account_place]
  split
  · show (BitVec.ofNat 64 r.nonce).toNat = r.nonce
    rw [BitVec.toNat_ofNat, Nat.mod_eq_of_lt h.2]
  · rfl

theorem nonce_of_account (h : s.account a = some r) : s.nonce a = r.nonce := by
  rw [State.nonce, State.ensure_account, h, Option.getD_some]

/-- Writing back what was read, with the nonce it had. -/
theorem nonce_place_same {r' : Record} (hw : r'.Writable) (h : s.account b = some r)
    (hn : r'.nonce = r.nonce) :
    (s.place b r').nonce a = s.nonce a := by
  rw [nonce_place hw]
  split
  · rename_i he
    rw [← he, nonce_of_account h, hn]
  · rfl

theorem nonce_prepare (h : tx.prepare e s from_acc = some s0) : s0.nonce a =
    if tx.to_address e = a then (tx.destination e s).nonce else if e.origin tx =
      a then from_acc.nonce else s.nonce a := by
  obtain ⟨s2, h1, h2⟩ := Option.bind_eq_some_iff.1 h
  obtain ⟨hw1, rfl⟩ := State.set_account_some.1 h1
  obtain ⟨hw2, rfl⟩ := State.set_account_some.1 h2
  rw [nonce_place hw2, nonce_place hw1]

theorem nonce_deploy {evm : Evm} (h : tx.deploy e evm s = some s') : s'.nonce a = s.nonce a := by
  unfold Transaction.deploy at h
  cases hacc : s.account (tx.to_address e) with
  | none =>
    rw [hacc] at h
    cases h
    rfl
  | some acc =>
    rw [hacc] at h
    obtain ⟨hw, rfl⟩ := State.set_account_some.1 h
    exact nonce_place_same hw hacc rfl

/-- A failure writes the sender's record, a success keeps the nonces of the run. -/
theorem nonce_finish (h : tx.finish e from_acc ret = some (s', receipt)) :
    s'.nonce a = if e.origin tx = a ∧
      ret.1 ≠ .evmc_success then from_acc.nonce else ret.2.2.nonce a := by
  obtain ⟨tag, evm, s1⟩ := ret
  by_cases h1 : tag = .evmc_success
  · subst h1
    obtain ⟨acc, s2, ha, h2, h3, -, -⟩ := finish_succeeds h
    obtain ⟨hw, rfl⟩ := State.set_account_some.1 h2
    rw [nonce_deploy h3, nonce_place_same hw ha rfl, if_neg fun hf => hf.2 rfl]
  · obtain ⟨hs, -, -⟩ := finish_fails h1 h
    obtain ⟨hw, rfl⟩ := State.set_account_some.1 hs
    rw [nonce_place hw]
    dsimp only
    by_cases ho : e.origin tx = a
    · rw [if_pos ho, if_pos ⟨ho, h1⟩]
    · rw [if_neg ho, if_neg fun hf => ho hf.1]

theorem nonce_account (s : State) (a : Addr) : s.nonce a = ((s.account a).map Record.nonce).getD 0 := by
  unfold State.nonce State.ensure_account
  cases s.account a <;> rfl

theorem nonce_destination (e : Env) (tx : Transaction) (s : State) :
    (tx.destination e s).nonce = if tx.contract_creation then 1 else s.nonce (tx.to_address e) := by
  unfold Transaction.destination
  split <;> rfl

/-- The parts of an application are determined by its start. -/
theorem Ends.unique {s0' : State} {ret' : Ret} (h : Ends e s x s0 ret) (h' : Ends e s x s0' ret') :
    s0 = s0' ∧ ret = ret' := by
  obtain ⟨from_acc, hc, hp, hr⟩ := h
  obtain ⟨from_acc', hc', hp', hr'⟩ := h'
  cases hc.symm.trans hc'
  cases hp.symm.trans hp'
  cases hr.symm.trans hr'
  exact ⟨rfl, rfl⟩

/-- **The nonce of an account after one transaction.** -/
theorem nonce_ok (h : x.apply e s = some (.ok (s', receipt))) (hq : Quiet e a s x) :
    Counts e a s x s' ↔ Kept e a s x := by
  obtain ⟨from_acc, s0, ret, hc, h0, h1, h2⟩ := apply_ok h
  obtain ⟨⟨hb, -⟩, -⟩ := State.ensure_account_bounds s (e.origin x.tx)
  obtain ⟨hn, -, hacc⟩ := (charged_ok hb).1 hc
  have hends : Ends e s x s0 ret := ⟨from_acc, hc, h0, h1⟩
  have hfrom : from_acc.nonce = x.tx.nonce + 1 := by rw [hacc]
  have hrun : ret.2.2.nonce a = s0.nonce a := by rw [nonce_account, nonce_account, hq s0 ret hends]
  have hfails : (∀ s0 ret, Ends e s x s0 ret → ret.1 ≠ .evmc_success) ↔ ret.1 ≠ .evmc_success := by
    refine ⟨fun hf => hf s0 ret hends, fun hf s0' ret' h' => ?_⟩
    obtain ⟨-, rfl⟩ := hends.unique h'
    exact hf
  unfold Counts Kept
  rw [hfails, nonce_finish h2, hrun, nonce_prepare h0, nonce_destination, hfrom]
  by_cases ho : e.origin x.tx = a
  · have hna : s.nonce a = x.tx.nonce := by rw [← ho]; exact hn
    by_cases ht : x.tx.to_address e = a
    · rw [ht, hna]
      by_cases hr : ret.1 = .evmc_success
      · cases x.tx.contract_creation <;> simp [ho, hr, eq_comm]
      · simp [ho, hr]
    · simp [ho, ht]
  · by_cases ht : x.tx.to_address e = a
    · rw [ht]
      cases x.tx.contract_creation <;> simp [ho]
      exact eq_comm
    · simp [ho, ht]

/-- A transfer to an account without code runs nothing. -/
theorem Ends.plain (h : Ends e s x s0 ret) (hc : (x.tx.task e s x.number x.static).code = [])
    (hp : PreCompile.get (x.tx.to_address e).toNat = none) : ret.1 = .evmc_success ∧ ret.2.2 = s0 := by
  obtain ⟨from_acc, -, -, hr⟩ := h
  have hint : Evm.eval_internal e (Evm.loop e x.script) (x.tx.task e s x.number x.static).evm s0 =
      some (.evmc_success, { (x.tx.task e s x.number x.static).evm with out := some [] }, s0) := by
    have hp' : PreCompile.get ((x.tx.task e s x.number x.static).evm.task.address e).toNat = none := hp
    refine (if_pos hc).trans ?_
    rw [hp']
  rw [eval_quiet hint rfl rfl] at hr
  cases hr
  exact ⟨rfl, rfl⟩

theorem quiet_plain (hc : (x.tx.task e s x.number x.static).code = [])
    (hp : PreCompile.get (x.tx.to_address e).toNat = none) :
    Quiet e a s x := fun s0 ret h => by rw [(h.plain hc hp).2]

/-! ## Runs -/

theorem each_ok (h : x.apply e s = some (.ok (s', receipt))) : Each e P s (x :: xs) ↔ P s x s' ∧
    Each e P s' xs := by rw [Each, h]

theorem each_error {refusal : Refusal} (h : x.apply e s = some (.error refusal)) :
    Each e P s (x :: xs) ↔ Each e P s xs := by
  rw [Each, h]

theorem each_none (h : x.apply e s = none) : Each e P s (x :: xs) ↔ True := by rw [Each, h]

/-- What holds of each step, given what else does, holds along the run. -/
theorem each_iff {R : State → Application → State → Prop}
    (hPQ : ∀ {s x s' receipt}, x.apply e s = some (.ok (s', receipt)) → R s x s' →
      (P s x s' ↔ Q s x s')) (hR : Each e R s xs) :
    Each e P s xs ↔ Each e Q s xs := by
  induction xs generalizing s with
  | nil => exact Iff.rfl
  | cons x xs ih =>
    cases h : x.apply e s with
    | none => rw [each_none h, each_none h]
    | some r =>
      cases r with
      | error refusal =>
        rw [each_error h] at hR ⊢
        rw [each_error h]
        exact ih hR
      | ok r =>
        obtain ⟨s', receipt⟩ := r
        rw [each_ok h] at hR ⊢
        rw [each_ok h, hPQ h hR.1, ih hR.2]

theorem own_none (h : x.apply e s = none) : own e a s (x :: xs) = [] := by rw [own, accepted, h]; rfl

theorem own_error {refusal : Refusal} (h : x.apply e s = some (.error refusal)) :
    own e a s (x :: xs) = own e a s xs := by
  rw [own, accepted, h]
  rfl

theorem own_ok (h : x.apply e s = some (.ok (s', receipt))) :
    own e a s (x :: xs) = if e.origin x.tx = a then x.tx :: own e a s' xs else own e a s' xs := by
  rw [own, accepted, h]
  dsimp only
  rw [List.filter_cons]
  simp only [decide_eq_true_eq]
  rfl

/-- A nonce that counts makes the sender's transactions consecutive. -/
theorem own_range (h : Each e (Counts e a) s xs) : (own e a s xs).map Transaction.nonce =
    List.range' (s.nonce a) (own e a s xs).length := by
  induction xs generalizing s with
  | nil => rfl
  | cons x xs ih =>
    cases hx : x.apply e s with
    | none =>
      rw [own_none hx]
      rfl
    | some r =>
      cases r with
      | error refusal =>
        rw [own_error hx]
        exact ih ((each_error hx).1 h)
      | ok r =>
        obtain ⟨s', receipt⟩ := r
        obtain ⟨hc, hrest⟩ := (each_ok hx).1 h
        unfold Counts at hc
        rw [own_ok hx]
        by_cases ho : e.origin x.tx = a
        · rw [if_pos ho] at hc ⊢
          obtain ⟨from_acc, -, -, hch, -⟩ := apply_ok hx
          obtain ⟨⟨hb, -⟩, -⟩ := State.ensure_account_bounds s (e.origin x.tx)
          have hn : s.nonce a = x.tx.nonce := by
            rw [← ho]
            exact ((charged_ok hb).1 hch).1
          rw [List.map_cons, List.length_cons, List.range'_succ, ih hrest, hc, hn]
        · rw [if_neg ho] at hc ⊢
          rw [ih hrest, hc]

/-- **Replay protection.** When no code that is run touches the sender's nonce,
it counts the sender's transactions exactly if each step is `Kept`; then their
nonces are consecutive and none is applied twice. -/
theorem nonce_iff (e : Env) (a : Addr) (s : State) (xs : List Application)
    (hq : Each e (fun s x _ => Quiet e a s x) s xs) :
    (Each e (Counts e a) s xs ↔ Each e (fun s x _ => Kept e a s x) s xs) ∧
      (Each e (fun s x _ => Kept e a s x) s xs →
        (own e a s xs).map Transaction.nonce = List.range' (s.nonce a) (own e a s xs).length ∧
          (own e a s xs).Nodup) := by
  have hiff : Each e (Counts e a) s xs ↔ Each e (fun s x _ => Kept e a s x) s xs := each_iff nonce_ok hq
  refine ⟨hiff, fun hk => ?_⟩
  have hrange := own_range (hiff.2 hk)
  refine ⟨hrange, List.Nodup.of_map Transaction.nonce ?_⟩
  rw [hrange]
  exact List.nodup_range'

end

def senderEnv : Env := { Env.plain with origin := fun _ => 7 }

/-- A free transfer of account 7. -/
def pay (nonce : Nat) (to_addr : Addr) : Application :=
  ⟨.done [] 0 0 [], ⟨nonce, 0, 21000, some to_addr, 0, none, List.replicate 65 0, none, none⟩, 1, false⟩

theorem nonce_two_transfers : Each senderEnv (Counts senderEnv 7) State.empty [pay 0 9, pay 1 9] :=
  (nonce_iff senderEnv 7 State.empty [pay 0 9, pay 1 9]
    ((each_ok rfl).2 ⟨quiet_plain rfl rfl, (each_ok rfl).2 ⟨quiet_plain rfl rfl, trivial⟩⟩)).1.2
    ((each_ok rfl).2 ⟨fun h => absurd h (by decide),
      (each_ok rfl).2 ⟨fun h => absurd h (by decide), trivial⟩⟩)

/-- A transaction to its own sender goes through twice. -/
theorem self_replayed : ∃ s1 s2 r1 r2, (pay 0 7).apply senderEnv State.empty = some (.ok (s1, r1)) ∧
    (pay 0 7).apply senderEnv s1 = some (.ok (s2, r2)) ∧ s1.nonce 7 = 0 ∧
      Quiet senderEnv 7 State.empty (pay 0 7) ∧
    Quiet senderEnv 7 s1 (pay 0 7) :=
  ⟨_, _, _, _, rfl, rfl, rfl, quiet_plain rfl rfl, quiet_plain rfl rfl⟩

end Diode.L4
