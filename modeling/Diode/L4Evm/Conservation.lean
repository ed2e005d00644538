import Diode.Core.Total
import Diode.L4Evm.Nonce

/-!
# The sum of the balances

A transaction writes four records: the sender's, the recipient's, and after the
run the sender's once or twice more. They are read at different times, so money
is made or lost when the recipient is the sender or already has what a creation
takes for nothing, when a failure writes the sender's record over a state in
which the recipient keeps the value, and when a balance has no room.

* `value_iff`: value and fee are conserved exactly under `Balanced`.
-/
namespace Diode.L4
open Diode.Core Diode.L3

/-- The sum of all balances. -/
def State.total (s : State) : Nat := s.accounts.total fun acc => acc.balance.toNat

section
variable (e : Env)

/-- The recipient's balance as the frame finds it. -/
def Transaction.landed (tx : Transaction) (s : State) : Int :=
    ((tx.destination e s).balance + tx.value) % 2 ^ 256

/-- The run of the frame itself only moves value. -/
def OnlyMoves (s : State) (x : Application) : Prop := ∀ s0 ret, Ends e s x s0 ret →
    ret.2.2.total = s0.total

/-- Apart from what the run moves, the sender loses value and fee, and the
recipient gets the value. -/
def Moved (tx : Transaction) (s s0 s1 s' : State) (gas_used : Int) : Prop :=
  let change (a : Addr) : Int := s'.balance a - (s1.balance a - s0.balance a) - s.balance a
  if tx.to_address e = e.origin tx then change (e.origin tx) = -(tx.gasPrice * gas_used)
  else change (e.origin tx) = -tx.value - tx.gasPrice * gas_used ∧ change (tx.to_address e) = tx.value

/-- The sum goes down by the fee, and a success has moved the value. -/
def Conserved (s : State) (x : Application) (s' : State) (receipt : Receipt) : Prop :=
  (s'.total : Int) = s.total - x.tx.gasPrice * receipt.gas_used ∧
    (receipt.msg = .evmc_success → ∀ s0 ret, Ends e s x s0 ret →
      Moved e x.tx s s0 ret.2.2 s' receipt.gas_used)

/-- What a failure gives back of the price of the gas that is left. -/
def Transaction.refund (tx : Transaction) (ret : Ret) : Int :=
  if ret.1 = .evmc_revert then ret.2.1.gas * tx.gasPrice else 0

/-- What a success and a failure need. A failure leaves the recipient what it
was given, so the run must have moved as much to the sender, less what the gas
is worth that is neither used nor given back. -/
def Balanced (s : State) (x : Application) : Prop :=
  ∀ s0 ret, Ends e s x s0 ret →
    let dest := (x.tx.destination e s).balance
    let price : Int := ret.2.1.gas * x.tx.gasPrice
    let gained : Int := ret.2.2.balance (e.origin x.tx) - s0.balance (e.origin x.tx)
    if ret.1 = .evmc_success then
      dest + x.tx.value < 2 ^ 256 ∧ ret.2.2.balance (e.origin x.tx) + price < 2 ^ 256 ∧
        if x.tx.to_address e = e.origin x.tx then
          dest + x.tx.value + x.tx.fee = s.balance (e.origin x.tx)
        else dest = s.balance (x.tx.to_address e)
    else s.balance (e.origin x.tx) - x.tx.fee + x.tx.refund ret < 2 ^ 256 ∧
      gained + (price - x.tx.refund ret) =
        if x.tx.to_address e = e.origin x.tx then 0
        else x.tx.landed e s - s.balance (x.tx.to_address e)

end

section
variable {e : Env} {a b : Addr} {s s0 s1 s' : State} {tx : Transaction}
    {r from_acc : Record} {evm : Evm}

/-! ## Sums after a write -/

theorem word_toNat (n : Int) : ((BitVec.ofInt 256 n).toNat : Int) = n % 2 ^ 256 := by
  rw [BitVec.toNat_ofInt, Int.toNat_of_nonneg (Int.emod_nonneg _ (by decide))]
  rfl

theorem balance_place_int (s : State) (a b : Addr) (r : Record) :
    ((s.place a r).balance b : Int) = if a = b then r.balance % 2 ^ 256 else (s.balance b : Int) := by
  rw [State.balance_place]
  split
  · exact word_toNat _
  · rfl

theorem total_place (s : State) (a : Addr) (r : Record) :
    ((s.place a r).total : Int) = s.total - s.balance a + r.balance % 2 ^ 256 := by
  have h := SMap.total_put (fun acc : Account => acc.balance.toNat) s.accounts a
    (r.toAccount (s.storage a))
  have hput : (s.place a r).total + s.balance a = s.total + (BitVec.ofInt 256 r.balance).toNat := h
  rw [← word_toNat]
  omega

/-- Writing back what was read, with the balance it had. -/
theorem total_place_same {r' : Record} (h : s.account a = some r) (hb : r'.balance = r.balance) :
    (s.place a r').total = s.total := by
  have hbal := State.balance_of_account h
  have hlt := (State.account_bounds h).2
  have htot := total_place s a r'
  rw [hb, hbal, Int.emod_eq_of_lt (Int.natCast_nonneg _) (by rw [← hbal]; exact hlt)] at htot
  omega

theorem deploy_keeps (h : tx.deploy e evm s = some s') : s'.total = s.total ∧
    ∀ b, s'.balance b = s.balance b := by
  unfold Transaction.deploy at h
  cases hacc : s.account (tx.to_address e) with
  | none =>
    rw [hacc] at h
    cases h
    exact ⟨rfl, fun _ => rfl⟩
  | some acc =>
    rw [hacc] at h
    obtain ⟨-, rfl⟩ := State.set_account_some.1 h
    exact ⟨total_place_same hacc rfl, fun b => State.balance_place_same hacc rfl⟩

/-! ## The writes of a transaction -/

theorem prepare_total (h : tx.prepare e s from_acc = some s0)
    (hfrom : from_acc.balance = s.balance (e.origin tx) - tx.value - tx.fee) :
    (s0.total : Int) = s.total + tx.landed e
      s - (if tx.to_address e = e.origin tx then (s.balance (e.origin tx) : Int)
      else s.balance (tx.to_address e) + tx.value + tx.fee) := by
  obtain ⟨s2, h1, h2⟩ := Option.bind_eq_some_iff.1 h
  obtain ⟨hw, rfl⟩ := State.set_account_some.1 h1
  obtain ⟨-, rfl⟩ := State.set_account_some.1 h2
  have hlt := s.balance_lt (e.origin tx)
  have hmod : from_acc.balance % 2 ^ 256 = from_acc.balance := by
    refine Int.emod_eq_of_lt hw.1 ?_
    rw [hfrom]
    omega
  rw [total_place, total_place, balance_place_int, hmod, hfrom, Transaction.landed]
  dsimp only
  by_cases ht : tx.to_address e = e.origin tx
  · rw [if_pos ht.symm, if_pos ht]
    omega
  · rw [if_neg (Ne.symm ht), if_neg ht]
    omega

theorem prepare_balance (h : tx.prepare e s from_acc = some s0)
    (hfrom : from_acc.balance = s.balance (e.origin tx) - tx.value - tx.fee) :
    (s0.balance (tx.to_address e) : Int) = tx.landed e s ∧
      (tx.to_address e ≠ e.origin tx → (s0.balance (e.origin tx) : Int) = s.balance
        (e.origin tx) - tx.value - tx.fee) := by
  obtain ⟨s2, h1, h2⟩ := Option.bind_eq_some_iff.1 h
  obtain ⟨hw, rfl⟩ := State.set_account_some.1 h1
  obtain ⟨-, rfl⟩ := State.set_account_some.1 h2
  have hlt := s.balance_lt (e.origin tx)
  refine ⟨?_, fun ht => ?_⟩
  · rw [balance_place_int, if_pos rfl]
    rfl
  · rw [balance_place_int, if_neg ht, balance_place_int, if_pos rfl, ← hfrom]
    refine Int.emod_eq_of_lt hw.1 ?_
    rw [hfrom]
    omega

theorem finish_total_success {receipt : Receipt}
    (h : tx.finish e from_acc (.evmc_success, evm, s1) = some (s', receipt)) :
    0 ≤ (s1.balance (e.origin tx) : Int) + evm.gas * tx.gasPrice ∧
      (s'.total : Int) = s1.total - s1.balance (e.origin tx) +
        (s1.balance (e.origin tx) + evm.gas * tx.gasPrice) % 2 ^ 256 ∧
      (s'.balance (e.origin tx) : Int) = (s1.balance (e.origin tx) + evm.gas * tx.gasPrice) % 2 ^ 256 ∧
      ∀ b, e.origin tx ≠ b → s'.balance b = s1.balance b := by
  obtain ⟨acc, s2, ha, h2, h3, -, -⟩ := finish_succeeds h
  obtain ⟨hw, rfl⟩ := State.set_account_some.1 h2
  obtain ⟨htot, hbal⟩ := deploy_keeps h3
  rw [htot, hbal, total_place, balance_place_int, if_pos rfl, ← State.balance_of_account ha]
  refine ⟨hw.1, rfl, rfl, fun b hb => ?_⟩
  rw [hbal, State.balance_place, if_neg hb]

theorem finish_total_failure {receipt : Receipt} {tag : Status} (ht : tag ≠ .evmc_success)
    (hfrom : from_acc.balance = s.balance (e.origin tx) - tx.value - tx.fee)
    (h : tx.finish e from_acc (tag, evm, s1) = some (s', receipt)) :
    0 ≤ s.balance (e.origin tx) - tx.fee + tx.refund (tag, evm, s1) ∧
      (s'.total : Int) = s1.total - s1.balance (e.origin tx) +
        (s.balance (e.origin tx) - tx.fee + tx.refund (tag, evm, s1)) % 2 ^ 256 := by
  obtain ⟨hs, -, -⟩ := finish_fails ht h
  obtain ⟨hw, rfl⟩ := State.set_account_some.1 hs
  have hsum : from_acc.balance + (if tag = .evmc_revert then evm.gas * tx.gasPrice else 0) +
      tx.value = s.balance (e.origin tx) - tx.fee + tx.refund (tag, evm, s1) := by
    unfold Transaction.refund
    dsimp only
    rw [hfrom]
    omega
  rw [total_place, ← hsum]
  exact ⟨hw.1, rfl⟩

/-! ## Arithmetic -/

variable {x : Application} {receipt : Receipt}

theorem dest_balance (e : Env) (tx : Transaction) (s : State) :
    (tx.destination e s).balance = if tx.contract_creation then 0
      else (s.balance (tx.to_address e) : Int) := by
  unfold Transaction.destination
  cases tx.contract_creation
  · exact State.ensure_account_balance s (tx.to_address e)
  · rfl

theorem dest_bounds (e : Env) (tx : Transaction) (s : State) :
    0 ≤ (tx.destination e s).balance ∧
      ((tx.destination e s).balance = 0 ∨ (tx.destination e s).balance = s.balance
      (tx.to_address e)) := by
  rw [dest_balance]
  cases tx.contract_creation
  · exact ⟨Int.natCast_nonneg _, .inr rfl⟩
  · exact ⟨Int.le_refl 0, .inl rfl⟩

/-- The changes of two accounts are right when nothing is cut off and the
recipient's record is the recipient's. -/
theorem changes_apart {B T D V F G X : Int} (hD : D = 0 ∨ D = T) (hT : 0 ≤ T) (hV : 0 ≤ V)
    (hlt : V < 2 ^ 256) (hX : 0 ≤ X + G) :
    ((X + G) % 2 ^ 256 - (X - (B - V - F)) - B = -V - (F - G) ∧ (D + V) % 2 ^ 256 - T = V) ↔
      D + V < 2 ^ 256 ∧ X + G < 2 ^ 256 ∧ D = T := by
  refine ⟨?_, ?_⟩
  · intro h
    obtain ⟨h1, h2⟩ := h
    have hx : X + G < 2 ^ 256 := by omega
    rcases hD with rfl | rfl <;> omega
  · intro h
    obtain ⟨h1, h2, rfl⟩ := h
    rw [Int.emod_eq_of_lt hX h2, Int.emod_eq_of_lt (by omega) h1]
    omega

/-- An account that is both is charged what it should be only if its two records
agree. -/
theorem changes_self {B D V F G X : Int} (hD : D = 0 ∨ D = B) (hV : 0 ≤ V) (hF : 0 ≤ F)
    (hfunds : V + F ≤ B) (hB : B < 2 ^ 256)
    (hX : 0 ≤ X + G) :
    (X + G) % 2 ^ 256 - (X - (D + V) % 2 ^ 256) - B = -(F - G) ↔ D + V < 2 ^ 256 ∧ X + G < 2 ^ 256 ∧
      D + V + F = B := by
  refine ⟨?_, ?_⟩
  · intro h
    rcases hD with rfl | rfl <;> omega
  · intro h
    obtain ⟨h1, h2, h3⟩ := h
    rw [Int.emod_eq_of_lt hX h2, Int.emod_eq_of_lt (by omega) h1]
    omega

/-- A failure puts `B - F + R` where the run has left `X` of the `S` it found. This
is what is due if the run has moved the `K` that stays elsewhere. -/
theorem restored {B F R G X S K : Int} (hR : R = G ∨ R = 0) (h0 : 0 ≤ B - F + R)
    (hB : B - F < 2 ^ 256) (hX : 0 ≤ X) (hS : S + K < 2 ^ 256) :
    (B - F + R) % 2 ^ 256 = B - F + G + (X - S) - K ↔
      B - F + R < 2 ^ 256 ∧ X - S + (G - R) = K := by
  refine ⟨?_, ?_⟩
  · intro h
    have hroom : B - F + R < 2 ^ 256 := by omega
    rw [Int.emod_eq_of_lt h0 hroom] at h
    exact ⟨hroom, by omega⟩
  · intro h
    obtain ⟨hroom, h⟩ := h
    rw [Int.emod_eq_of_lt h0 hroom]
    omega

/-! ## Conservation -/

theorem Ends.forall_iff {ret : Ret} {p : State → Ret → Prop} (h : Ends e s x s0 ret) :
    (∀ s0 ret, Ends e s x s0 ret → p s0 ret) ↔ p s0 ret := by
  refine ⟨fun hp => hp s0 ret h, fun hp s0' ret' h' => ?_⟩
  obtain ⟨rfl, rfl⟩ := h.unique h'
  exact hp

/-- What was charged, and the price of the gas that was used. -/
theorem charged_balance (gas : Int) (hc : tx.charged (s.ensure_account (e.origin tx)) = .ok from_acc) :
    from_acc.balance = s.balance (e.origin tx) - tx.value - tx.fee ∧
      (tx.value + tx.fee : Int) ≤ s.balance (e.origin tx) ∧
      tx.gasPrice * (tx.gasLimit - gas) = tx.fee - gas * tx.gasPrice := by
  obtain ⟨⟨hb, -⟩, -⟩ := State.ensure_account_bounds s (e.origin tx)
  obtain ⟨-, hfunds, hacc⟩ := (charged_ok hb).1 hc
  rw [State.ensure_account_balance] at hfunds hacc
  refine ⟨by rw [hacc], hfunds, ?_⟩
  rw [cast_fee]
  ring

theorem moved_iff {gas_used : Int} (hprep : tx.prepare e s from_acc = some s0)
    (hc : tx.charged (s.ensure_account (e.origin tx)) = .ok from_acc)
      (hgas : gas_used = tx.gasLimit - evm.gas)
    (hfin : tx.finish e from_acc (.evmc_success, evm, s1) = some (s', receipt)) :
    Moved e tx s s0 s1 s' gas_used ↔ (tx.destination e s).balance + tx.value < 2 ^ 256 ∧
      s1.balance (e.origin tx) + evm.gas * tx.gasPrice < 2 ^ 256 ∧
        if tx.to_address e = e.origin tx then (tx.destination e s).balance + tx.value + tx.fee =
          s.balance (e.origin tx)
        else (tx.destination e s).balance = s.balance (tx.to_address e) := by
  obtain ⟨hfrom, hfunds, hprice⟩ := charged_balance evm.gas hc
  obtain ⟨hlanded, hapart⟩ := prepare_balance hprep hfrom
  obtain ⟨hX, -, hown, hother⟩ := finish_total_success hfin
  obtain ⟨-, hdest⟩ := dest_bounds e tx s
  have hlt := s.balance_lt (e.origin tx)
  unfold Moved
  dsimp only
  rw [hgas, hprice]
  by_cases ht : tx.to_address e = e.origin tx
  · rw [ht] at hlanded hdest
    rw [if_pos ht, if_pos ht, hown, hlanded]
    exact changes_self hdest (Int.natCast_nonneg _) (Int.natCast_nonneg _) hfunds
      (by exact_mod_cast hlt) hX
  · rw [if_neg ht, if_neg ht, hown, hapart ht, hlanded, hother _ (Ne.symm ht)]
    rw [← changes_apart (B := s.balance (e.origin tx)) (F := tx.fee) hdest (Int.natCast_nonneg _)
      (Int.natCast_nonneg _) (by omega) hX]
    rw [Transaction.landed, show ∀ m n k : Int, m - (m - n) - k = n - k from fun m n k => by omega]

theorem refund_eq (tx : Transaction) (ret : Ret) :
    tx.refund ret = ret.2.1.gas * tx.gasPrice ∨ tx.refund ret = 0 := by
  unfold Transaction.refund
  split
  · exact .inl rfl
  · exact .inr rfl

theorem kept_iff {tag : Status} (htag : tag ≠ .evmc_success)
    (hprep : tx.prepare e s from_acc = some s0)
    (hc : tx.charged (s.ensure_account (e.origin tx)) = .ok from_acc)
    (hrun : s1.total = s0.total)
    (hfin : tx.finish e from_acc (tag, evm, s1) = some (s', receipt)) :
    (s'.total : Int) = s.total - tx.gasPrice * (tx.gasLimit - evm.gas) ↔
      s.balance (e.origin tx) - tx.fee + tx.refund (tag, evm, s1) < 2 ^ 256 ∧
        (s1.balance (e.origin tx) : Int) - s0.balance (e.origin tx) +
          (evm.gas * tx.gasPrice - tx.refund (tag, evm, s1)) =
          if tx.to_address e = e.origin tx then 0
          else tx.landed e s - s.balance (tx.to_address e) := by
  obtain ⟨hfrom, hfunds, hprice⟩ := charged_balance evm.gas hc
  obtain ⟨hback, htot⟩ := finish_total_failure htag hfrom hfin
  obtain ⟨hlanded, hapart⟩ := prepare_balance hprep hfrom
  obtain ⟨hdest0, hdest⟩ := dest_bounds e tx s
  have hR : tx.refund (tag, evm, s1) = evm.gas * tx.gasPrice ∨ tx.refund (tag, evm, s1) = 0 :=
    refund_eq tx (tag, evm, s1)
  have hX := Int.natCast_nonneg (s1.balance (e.origin tx))
  have hlt := s.balance_lt (e.origin tx)
  have hwritten := s0.balance_lt (e.origin tx)
  rw [htot, hrun, prepare_total hprep hfrom, hprice]
  by_cases ht : tx.to_address e = e.origin tx
  · rw [ht] at hlanded
    rw [if_pos ht, if_pos ht, ← restored hR hback (by omega) hX (by omega)]
    omega
  · have hsent := hapart ht
    have hle : tx.landed e s ≤ (tx.destination e s).balance + tx.value := by
      unfold Transaction.landed
      omega
    rw [if_neg ht, if_neg ht, ← restored hR hback (by omega) hX (by omega)]
    omega

/-- **Value conservation.** When the run itself only moves value, value and fee
are conserved exactly under `Balanced`. -/
theorem value_iff (e : Env) (s s' : State) (x : Application) (receipt : Receipt)
    (h : x.apply e s = some (.ok (s', receipt)))
    (hm : OnlyMoves e s x) : Conserved e s x s' receipt ↔ Balanced e s x := by
  obtain ⟨from_acc, s0, ⟨tag, evm, s1⟩, hc, h0, h1, h2⟩ := apply_ok h
  have hends : Ends e s x s0 (tag, evm, s1) := ⟨from_acc, hc, h0, h1⟩
  obtain ⟨hfrom, hfunds, hprice⟩ := charged_balance evm.gas hc
  have htotal := prepare_total h0 hfrom
  have hrun : s1.total = s0.total := hm s0 _ hends
  unfold Conserved Balanced
  rw [hends.forall_iff, hends.forall_iff]
  dsimp only
  by_cases htag : tag = .evmc_success
  · subst htag
    obtain ⟨-, -, -, -, -, hgas, hmsg⟩ := finish_succeeds h2
    obtain ⟨hX, htot, -, -⟩ := finish_total_success h2
    rw [if_pos rfl, ← moved_iff h0 hc hgas h2]
    refine ⟨fun hcons => hcons.2 hmsg, fun hmoved => ⟨?_, fun _ => hmoved⟩⟩
    obtain ⟨hroom, hleft, hrec⟩ := (moved_iff h0 hc hgas h2).1 hmoved
    have hlanded : x.tx.landed e s = (x.tx.destination e s).balance + x.tx.value :=
      Int.emod_eq_of_lt (Int.add_nonneg (dest_bounds e x.tx s).1 (Int.natCast_nonneg _)) hroom
    rw [htot, hrun, htotal, hlanded, hgas, hprice, Int.emod_eq_of_lt hX hleft]
    by_cases ht : x.tx.to_address e = e.origin x.tx
    · rw [if_pos ht] at hrec ⊢
      omega
    · rw [if_neg ht] at hrec ⊢
      omega
  · obtain ⟨-, hgas, hmsg⟩ := finish_fails htag h2
    rw [if_neg htag, ← kept_iff htag h0 hc hrun h2, hgas, hmsg]
    exact and_iff_left fun hs => absurd hs htag

end

theorem onlyMoves_plain {e : Env} {s : State} {x : Application}
    (hc : (x.tx.task e s x.number x.static).code = [])
    (hp : PreCompile.get (x.tx.to_address e).toNat = none) : OnlyMoves e s x := fun s0 ret h => by
      rw [(h.plain hc hp).2]

/-- Account 7 sends 5 of its 10. -/
def transfer5 (to_addr : Addr) : Application :=
  ⟨.done [] 0 0 [], ⟨0, 0, 21000, some to_addr, 5, none, List.replicate 65 0, none, none⟩, 1, false⟩

def funded : State := State.empty.place 7 ⟨0, 10, []⟩

theorem value_transfer5 : ∃ s' receipt, (transfer5 9).apply senderEnv funded = some
    (.ok (s', receipt)) ∧
    (Conserved senderEnv funded (transfer5 9) s' receipt ↔ Balanced senderEnv funded (transfer5 9)) :=
  ⟨_, _, rfl, value_iff senderEnv funded _ (transfer5 9) _ rfl (onlyMoves_plain rfl rfl)⟩

/-- Sent to itself the value is made, and so it is by a call that reverts: the
recipient keeps it. -/
theorem value_made : (∃ s' receipt, (transfer5 7).apply senderEnv funded = some
    (.ok (s', receipt)) ∧ OnlyMoves senderEnv funded (transfer5 7) ∧
      funded.total = 10 ∧ s'.total = 15 ∧ receipt.gas_used = 21000 ∧ (transfer5 7).tx.gasPrice = 0) ∧
    ∃ s' receipt, ({ transfer5 9 with script := .done [] 0 2 [] } : Application).apply senderEnv
      (funded.place 9 ⟨1, 0, [0xFD]⟩) = some (.ok (s', receipt)) ∧
      receipt.msg = .evmc_revert ∧ (funded.place 9 ⟨1, 0, [0xFD]⟩).total = 10 ∧ s'.total = 15 :=
  ⟨⟨_, _, rfl, onlyMoves_plain rfl rfl, rfl, rfl, rfl, rfl⟩, _, _, rfl, rfl, rfl, rfl⟩

end Diode.L4
