import Diode.L4Evm.Evm

/-!
# Writes that change nothing

A flush changes nothing when every account it names is there and every slot has
the value it is sent; a transfer and a creation that go through always change
something.

**Results.**
* `process_updates_eq_iff`: `Idle` is exact.
* `transfer_changes`, `create_changes`.
-/
namespace Diode.L4
open Diode.Core Pairs Diode.L3

section
variable {s s1 s2 : State}

/-! ## Flushes -/

theorem putItem_isSome {a b : Addr} {kvs : List (Word × Word)} (h : (s.account b).isSome = true) :
    ((s.putItem a kvs).account b).isSome = true := by
  unfold State.account State.putItem at *
  dsimp only
  rw [SMap.get_put]
  split
  · rfl
  · exact h

theorem storage_put_map_isSome {b : Addr} : ∀ (l : List (Addr × List (Word × Word))) {s : State},
    (s.account b).isSome = true →
    ((s.storage_put_map l).account b).isSome = true
  | [], _, h => h
  | u :: l, s, h => @storage_put_map_isSome b l (s.putItem u.1 u.2) (putItem_isSome h)

theorem storage_put_map_named {a : Addr} {kvs : List (Word × Word)} :
    ∀ {l : List (Addr × List (Word × Word))} {s : State}, (a, kvs) ∈ l →
    ((s.storage_put_map l).account a).isSome = true
  | u :: l, s, h => by
    show (((s.putItem u.1 u.2).storage_put_map l).account a).isSome = true
    rcases List.mem_cons.1 h with rfl | h
    · refine storage_put_map_isSome l ?_
      unfold State.account State.putItem
      dsimp only
      rw [SMap.get_put_self]
      rfl
    · exact storage_put_map_named h

theorem putAll_read {t : Tree} : ∀ {kvs : List (Word × Word)},
    (∀ kv ∈ kvs, t.read (Word.bytes kv.1) = kv.2) → Tree.putAll t kvs = t
  | [], _ => rfl
  | kv :: kvs, h => by
    show Tree.putAll (t.insertItem (Word.bytes kv.1) kv.2) kvs = t
    rw [Tree.insertItem_read (h kv (List.mem_cons_self ..))]
    exact putAll_read fun kv hkv => h kv (List.mem_cons_of_mem _ hkv)

theorem putItem_read {a : Addr} {kvs : List (Word × Word)} (ha : (s.account a).isSome = true)
    (h : ∀ kv ∈ kvs, s.read (a, kv.1) = kv.2) :
    s.putItem a kvs = s := by
  obtain ⟨r, hr⟩ := Option.isSome_iff_exists.1 ha
  obtain ⟨acc, hacc, -⟩ := Option.map_eq_some_iff.1 hr
  have hs : s.storage a = acc.storage := by
    unfold State.storage
    rw [hacc, Option.elim_some]
  have ht : Tree.putAll acc.storage kvs = acc.storage := by
    refine putAll_read fun kv hkv => ?_
    rw [← hs]
    exact h kv hkv
  have he : (s.putItem a kvs).accounts = s.accounts := by
    unfold State.putItem
    dsimp only
    rw [hacc, Option.getD_some, ht]
    exact SMap.put_get_self _ hacc
  cases hp : s.putItem a kvs
  rw [hp] at he
  cases s
  cases he
  rfl

/-- Every account a flush names is there, and every slot has the value it is
sent. -/
def Idle (s : State) (l : Updates) : Prop :=
  ∀ p ∈ (State.parse_map l).entries, (s.account p.1).isSome = true ∧ ∀ kv ∈ p.2.entries, s.read
    (p.1, kv.1) = kv.2

theorem storage_put_map_idle : ∀ {l : List (Addr × List (Word × Word))} {s : State},
    (∀ u ∈ l, (s.account u.1).isSome = true ∧ ∀ kv ∈ u.2, s.read (u.1, kv.1) = kv.2) →
      s.storage_put_map l = s
  | [], _, _ => rfl
  | u :: l, s, h => by
    obtain ⟨ha, hk⟩ := h u (List.mem_cons_self ..)
    show (s.putItem u.1 u.2).storage_put_map l = s
    rw [putItem_read ha hk]
    exact storage_put_map_idle fun u hu => h u (List.mem_cons_of_mem _ hu)

/-- **A flush changes nothing** exactly when it is idle. -/
theorem process_updates_eq_iff {l : Updates} : s.process_updates l = s ↔ Idle s l := by
  refine ⟨?_, ?_⟩
  · intro h p hp
    have hmem : (p.1, p.2.entries) ∈ (State.parse_map l).entries.map fun p => (p.1, p.2.entries) :=
      List.mem_map_of_mem hp
    have hnodup : (((State.parse_map l).entries.map fun p => (p.1, p.2.entries)).map Prod.fst).Nodup := by
      rw [List.map_map]
      exact (State.parse_map l).keys_nodup
    refine ⟨?_, ?_⟩
    · have hnamed := @storage_put_map_named p.1 p.2.entries _ s hmem
      rw [show s.storage_put_map _ = s from h] at hnamed
      exact hnamed
    · intro kv hkv
      have hread := State.read_storage_put_map (p.1, kv.1) _ s hnodup fun u hu => by
        obtain ⟨q, -, rfl⟩ := List.mem_map.1 hu
        exact q.2.keys_nodup
      rw [show s.storage_put_map _ = s from h, lookup_of_mem hnodup hmem, Option.bind_some,
        lookup_of_mem p.2.keys_nodup hkv,
        Option.getD_some] at hread
      exact hread
  · intro h
    refine storage_put_map_idle fun u hu => ?_
    obtain ⟨p, hp, rfl⟩ := List.mem_map.1 hu
    exact h p hp

theorem idle_nil (s : State) : Idle s [] := process_updates_eq_iff.1 rfl

/-! ## Transfers and creations -/

/-- A value that changes hands is missing where it was. -/
theorem transfer_changes {source target : Addr} {value : Nat} (hne : source ≠ target) (hv : value ≠ 0)
    (h : Task.transfer s source target value = some s1) : s1 ≠ s := by
  obtain ⟨account, ha, h⟩ := Option.bind_eq_some_iff.1 h
  obtain ⟨s2, h2, h3⟩ := Option.bind_eq_some_iff.1 h
  obtain ⟨hw, rfl⟩ := State.set_account_some.1 h2
  obtain ⟨-, rfl⟩ := State.set_account_some.1 h3
  have hlt := (State.account_bounds ha).2
  have h0 := hw.1
  dsimp only at h0
  intro he
  have hsource : s.account source = some { account with balance := account.balance - value } := by
    rw [← he, State.account_place_ne hne.symm]
    exact State.account_place_self hw (by dsimp only; omega)
  rw [ha] at hsource
  have hb := congrArg Record.balance (Option.some.inj hsource)
  dsimp only at hb
  omega

/-- A creation counts up the nonce of its creator. -/
theorem create_changes {a : Addr} {account : Record} {value : Nat} (ha : s.account a = some account)
    (h : s1.set_account a { account with nonce := account.nonce + 1, balance :=
      account.balance - value } = some s2) : s2 ≠ s := by
  obtain ⟨hw, rfl⟩ := State.set_account_some.1 h
  have hlt := (State.account_bounds ha).2
  intro he
  have hself : s.account a = some { account with nonce := account.nonce + 1, balance :=
    account.balance - value } := by
    rw [← he]
    exact State.account_place_self hw (by dsimp only; omega)
  rw [ha] at hself
  have hn := congrArg Record.nonce (Option.some.inj hself)
  dsimp only at hn
  omega

end
end Diode.L4
