import Diode.L4Evm.Transaction

/-!
# The relay of transactions

`TxRelay` sends its transactions to the chain again at every ping, until the
chain has them. It asks the chain for the account's transaction count, which is
the nonce of the next transaction, and takes it for the nonce of the last: a
transaction with exactly that nonce is forgotten, though the chain still waits
for it. `NonceProvider` reads the same number the other way and hands it out as
the nonce to use (`fresh_nonce_dropped`).

* `relays_iff`: a run relays every transaction until its nonce is behind the
  count exactly if no count meets the nonce of a pending transaction.
-/
namespace Diode.L6.TxRelay
open Diode.Core Diode.L4

/-- A transaction with its payload, the entries of `txlist`. -/
abbrev Listed := Transaction × Bytes

inductive Action where
  | done (metatx : Transaction)
  | low_gas_price (metatx : Transaction) (gas_price : Nat)
  | send_raw_transaction (payload : Bytes)
  deriving DecidableEq

/-- mirrors lib/remote_chain/tx_relay.ex:47-78 -/
def process : List Listed → Nat → Nat → List Action × List Listed
  | [], _, _ => ([], [])
  | (metatx, payload) :: rest, nonce, gas_price =>
    let (actions, kept) := process rest nonce gas_price
    if metatx.nonce ≤ nonce then (.done metatx :: actions, kept)
    else if metatx.gasPrice < gas_price then
      (.low_gas_price metatx gas_price :: .send_raw_transaction payload :: actions,
        (metatx, payload) :: kept)
    else (.send_raw_transaction payload :: actions, (metatx, payload) :: kept)

/-- A submission, or a ping with the gas price and the count the chain reports. -/
inductive Event where
  | tx (metatx : Transaction) (payload : Bytes)
  | ping (gas_price count : Nat)

/-- mirrors lib/remote_chain/tx_relay.ex:29-45 -/
def handle (txlist : List Listed) : Event → List Action × List Listed
  | .tx metatx payload => ([], (metatx, payload) :: txlist)
  | .ping gas_price count =>
    if txlist = [] then ([], []) else process txlist count gas_price

/-- `txlist` after the events. -/
def run (evs : List Event) : List Listed := evs.foldl (fun l e => (handle l e).2) []

def resubmitted (actions : List Action) : List Bytes :=
  actions.filterMap fun | .send_raw_transaction payload => some payload | _ => none

/-! ## What is to be relayed -/

def Event.count? : Event → Option Nat
  | .tx _ _ => none
  | .ping _ count => some count

/-- The submissions that no count reported since has left behind, newest first. -/
def pending : List Event → List Listed
  | [] => []
  | .ping _ _ :: later => pending later
  | .tx metatx payload :: later =>
    pending later ++ if (later.filterMap Event.count?).all
      (· ≤ metatx.nonce) then [(metatx, payload)] else []

/-- The payloads an event makes go out. -/
def due (listed : List Listed) : Event → List Bytes
  | .tx _ _ => []
  | .ping _ count => (listed.filter fun l => count ≤ l.1.nonce).map Prod.snd

/-- Every event sends what is pending and leaves what is pending after it. -/
def Relays (evs : List Event) : Prop :=
  ∀ before e after, evs = before ++ e :: after →
    (handle (run before) e).2 = pending (before ++ [e]) ∧
      resubmitted (handle (run before) e).1 = due (pending before) e

/-- No count is the nonce of a transaction pending when it is reported. -/
def NeverMet (evs : List Event) : Prop :=
  ∀ before gas_price count after, evs = before ++ .ping gas_price count :: after →
    ∀ l ∈ pending before, l.1.nonce ≠ count

theorem pending_tx (evs : List Event) (metatx : Transaction) (payload : Bytes) :
    pending (evs ++ [.tx metatx payload]) = (metatx, payload) :: pending evs := by
  induction evs with
  | nil => simp [pending]
  | cons e evs ih => cases e <;> simp [pending, ih, Event.count?]

theorem pending_ping (evs : List Event) (gas_price count : Nat) :
    pending (evs ++ [.ping gas_price count]) = (pending evs).filter fun l => count ≤ l.1.nonce := by
  induction evs with
  | nil => rfl
  | cons e evs ih =>
    cases e with
    | ping _ _ => simpa [pending] using ih
    | tx metatx payload =>
      simp only [List.cons_append, pending, ih, List.filter_append, List.filterMap_append,
        List.all_append]
      congr 1
      by_cases hall : (evs.filterMap Event.count?).all (· ≤ metatx.nonce)
      · by_cases hc : count ≤ metatx.nonce <;> simp [hall, hc, Event.count?]
      · simp [hall]

/-! ## What is relayed -/

theorem process_spec (l : List Listed) (nonce gas_price : Nat) :
    (process l nonce gas_price).2 = (l.filter fun x => nonce < x.1.nonce) ∧
      resubmitted (process l nonce gas_price).1 = (l.filter fun x => nonce < x.1.nonce).map
        Prod.snd := by
  induction l with
  | nil => exact ⟨rfl, rfl⟩
  | cons x l ih =>
    obtain ⟨hkept, hsent⟩ := ih
    unfold resubmitted at hsent ⊢
    by_cases hn : x.1.nonce ≤ nonce
    · simp [process, hn, Nat.not_lt.2 hn, hkept, hsent]
    · have hlt : nonce < x.1.nonce := by omega
      by_cases hg : x.1.gasPrice < gas_price <;> simp [process, hn, hg, hlt, hkept, hsent]

theorem handle_ping (l : List Listed) (gas_price count : Nat) :
    (handle l (.ping gas_price count)).2 = (l.filter fun x => count < x.1.nonce) ∧
      resubmitted (handle l (.ping gas_price count)).1 = (l.filter fun x => count < x.1.nonce).map
        Prod.snd := by
  by_cases h : l = []
  · simp [handle, h, resubmitted]
  · simpa [handle, h] using process_spec l count gas_price

theorem filter_lt_eq_iff (l : List Listed) (count : Nat) :
    ((l.filter fun x => count < x.1.nonce) = l.filter fun x => count ≤ x.1.nonce) ↔
      ∀ x ∈ l, x.1.nonce ≠ count := by
  refine ⟨?_, ?_⟩
  · intro h x hx heq
    have hmem : x ∈ l.filter fun x => count < x.1.nonce := by
      rw [h]
      simp [hx, heq]
    simp [heq] at hmem
  · intro h
    refine List.filter_congr fun x hx => ?_
    have := h x hx
    simp only [decide_eq_decide]
    omega

theorem run_snoc (evs : List Event) (e : Event) : run (evs ++ [e]) = (handle (run evs) e).2 := by
  simp [run]

/-- In a run that relays, the list is what is pending. -/
theorem Relays.run_eq {evs before after : List Event} (h : Relays evs) (he : evs = before ++ after) :
    run before = pending before := by
  induction before using List.reverseRecOn with
  | nil => rfl
  | append_singleton before e _ =>
    rw [run_snoc]
    exact (h before e after (by simpa using he)).1

theorem NeverMet.run_eq {evs before after : List Event} (h : NeverMet evs)
    (he : evs = before ++ after) :
    run before = pending before := by
  induction before using List.reverseRecOn generalizing after with
  | nil => rfl
  | append_singleton before e ih =>
    have he' : evs = before ++ e :: after := by simpa using he
    rw [run_snoc, ih he']
    cases e with
    | tx metatx payload => exact (pending_tx before metatx payload).symm
    | ping gas_price count =>
      rw [pending_ping, (handle_ping _ gas_price count).1]
      exact (filter_lt_eq_iff _ count).2 (h before gas_price count after he')

theorem relays_iff (evs : List Event) : Relays evs ↔ NeverMet evs := by
  refine ⟨?_, ?_⟩
  · intro h before gas_price count after he
    obtain ⟨hkept, -⟩ := h before _ after he
    rw [h.run_eq he, pending_ping, (handle_ping _ gas_price count).1] at hkept
    exact (filter_lt_eq_iff _ count).1 hkept
  · intro h before e after he
    rw [h.run_eq he]
    cases e with
    | tx metatx payload => exact ⟨(pending_tx before metatx payload).symm, rfl⟩
    | ping gas_price count =>
      obtain ⟨hkept, hsent⟩ := handle_ping (pending before) gas_price count
      have heq := (filter_lt_eq_iff _ count).2 (h before gas_price count after he)
      exact ⟨by rw [hkept, heq, pending_ping], by rw [hsent, heq, due]⟩

/-- A transaction with nonce 5, when the chain still waits for nonce 5. -/
theorem next_nonce_forgotten :
    ¬Relays [.tx ⟨5, 1, 21000, none, 0, none, [], none, none⟩ [7], .ping 1 5] := by
  intro h
  exact absurd (h [_] _ [] rfl).1 (by decide)

/-! ## Where the nonces come from -/

structure NonceProvider where
  nonce : Option Nat
  fetched_nonce : Option Nat
  deriving DecidableEq

namespace NonceProvider

/-- The reply, where `fetched` is what `fetch_nonce` returns.
mirrors lib/remote_chain/nonce_provider.ex:30-39 -/
def handle_call (s : NonceProvider) (fetched : Nat) : Nat × NonceProvider :=
  match s.nonce with
  | none => (fetched, ⟨some (fetched + 1), some fetched⟩)
  | some nonce => (nonce, { s with nonce := some (nonce + 1) })

/-- mirrors lib/remote_chain/nonce_provider.ex:59-67: no number is above `nil`. -/
def new_nonce (s : NonceProvider) (n : Nat) : NonceProvider :=
  if s.nonce.any (· < n) then { s with nonce := some n } else s

/-- mirrors lib/remote_chain/nonce_provider.ex:42-57 -/
def check_stale_nonce (s : NonceProvider) (n : Nat) : NonceProvider :=
  if some n = s.fetched_nonce then ⟨some n, some n⟩
  else if s.nonce.any (· < n) then ⟨some n, some n⟩
  else { s with fetched_nonce := some n }

end NonceProvider

/-- The first nonce of a provider is the count itself, so the transaction that
uses it is forgotten at a ping that reports the same count. -/
theorem fresh_nonce_dropped (s : NonceProvider) (hs : s.nonce = none) (count gas_price : Nat)
    (metatx : Transaction)
    (payload : Bytes) (hn : metatx.nonce = (s.handle_call count).1) :
    run [.tx metatx payload, .ping gas_price count] = [] := by
  have hcount : metatx.nonce = count := by simpa [NonceProvider.handle_call, hs] using hn
  have hlist : run [.tx metatx payload, .ping gas_price count] =
      (handle [(metatx, payload)] (.ping gas_price count)).2 := rfl
  rw [hlist, (handle_ping _ gas_price count).1]
  simp [hcount]

end Diode.L6.TxRelay
