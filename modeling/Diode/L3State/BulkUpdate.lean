import Diode.L3State.Coherence

/-!
# Bulk updates that fail

`account_map_apply_difference` and `account_map_storage_put_map` write as they
walk their argument and have no way back, so a failing call leaves what it wrote
before the fault. `failed_bulk_update` says exactly when that is nothing: no
account was made, and writing for each account what the walked part lists for
it, unchecked, ends with the record and the leaf the account had.
-/
namespace Diode.L3
open Diode.Core Diode.L1.Ext Function Heap

/-- The two bulk updates. -/
inductive Op.Bulk : Op → Prop where
  | storagePutMap (m : Nat) (updates : Term) : Bulk (.storagePutMap m updates)
  | applyDifference (m : Nat) (delta : Term) : Bulk (.applyDifference m delta)

/-- An edit a bulk update makes. -/
def Edit.Bulk (e : Edit) : Prop := ∃ a, Touches a e ∨ e = .seal a

/-- An edit without its check, on the record and the leaf of the account `a`. -/
def Edit.onAccount (sha : Bytes → Word) (a : Addr) (s : Account × Word) : Edit → Account × Word
  | .nonce b _ new => if b = a then ({ s.1 with nonce := new }, s.2) else s
  | .balance b _ new => if b = a then ({ s.1 with balance := new }, s.2) else s
  | .code b _ new => if b = a then ({ s.1 with code := new }, s.2) else s
  | .slot b key _ new => if b = a then ({ s.1 with storage := s.1.storage.insertItem key new }, s.2) else s
  | .seal b => if b = a then (s.1, s.1.hash sha) else s
  | _ => s

/-- The part of the argument that is walked before the fault makes no account
and brings every account back to the record and the leaf it had. -/
structure Restores (sha : Bytes → Word) (v : View) (es : List Edit) : Prop where
  present : ∀ a, .ensure a ∈ es → v.accounts.get a ≠ none
  same : ∀ a acc, v.accounts.get a = some acc →
    es.foldl (Edit.onAccount sha a) (acc, v.trie.read (Addr.bytes a)) =
      (acc, v.trie.read (Addr.bytes a))

variable {sha : Bytes → Word} {v w : View} {es : List Edit} {e : Edit}

/-! ## The edits of a bulk update -/

theorem bulk_flatMap {α : Type} {l : List α} {f : α → List Edit}
    (hf : ∀ x, (∃ y, f x = [.fail y]) ∨ ∃ a fs, f x = fs ++ [.seal a] ∧ ∀ e ∈ fs, Touches a e) :
    ∀ e ∈ l.flatMap f, e.Bulk := by
  intro e he
  obtain ⟨x, -, hx⟩ := List.mem_flatMap.1 he
  rcases hf x with ⟨y, hy⟩ | ⟨a, fs, hy, ht⟩
  · rw [hy, List.mem_singleton] at hx
    exact ⟨0, .inl (by rw [hx]; exact .fail y)⟩
  · rw [hy, List.mem_append, List.mem_singleton] at hx
    rcases hx with hx | hx
    · exact ⟨a, .inl (ht e hx)⟩
    · exact ⟨a, .inr hx⟩

theorem bulk_edits {op : Op} (hb : op.Bulk) : ∀ e ∈ op.edits, e.Bulk := by
  intro e he
  cases hb with
  | storagePutMap m updates =>
    unfold Op.edits putMapEdits at he
    dsimp only at he
    split at he
    · exact bulk_flatMap putItemEdits_cases e he
    · rw [List.mem_singleton] at he
      exact ⟨0, .inl (by rw [he]; exact .fail _)⟩
  | applyDifference m delta =>
    unfold Op.edits deltaEdits at he
    dsimp only at he
    split at he
    · exact bulk_flatMap itemEdits_cases e he
    · rw [List.mem_singleton] at he
      exact ⟨0, .inl (by rw [he]; exact .fail _)⟩

/-! ## What one edit does to one account -/

/-- The record and the leaf of `a`. -/
def View.at (v : View) (a : Addr) : Option (Account × Word) :=
  (v.accounts.get a).map fun acc => (acc, v.trie.read (Addr.bytes a))

theorem at_update (v : View) (a b : Addr) (f : Account → Account) :
    (v.update b f).at a = (v.at a).map fun s => if b = a then (f s.1, s.2) else s := by
  unfold View.at
  rw [View.get_update, View.update_trie]
  by_cases h : b = a
  · subst h
    rw [if_pos rfl]
    cases v.accounts.get b with
    | none => rfl
    | some acc => simp
  · rw [if_neg h]
    cases v.accounts.get a with
    | none => rfl
    | some acc => simp [h]

/-- **One edit.** An account that is there changes as `onAccount` says; one that
is not there stays away unless the edit makes it. -/
theorem edit_at (hb : e.Bulk) (he : v.edit sha e = .ok w) (a : Addr) :
    w.at a = (v.at a).map (Edit.onAccount sha a · e) ∨
      (v.at a = none ∧ e = .ensure a ∧ w.at a ≠ none) := by
  have hupd : ∀ {b : Addr} {f : Account → Account} {g : Account × Word → Account × Word},
      (∀ s, g s = if b = a then (f s.1, s.2) else s) → (v.update b f).at a = (v.at a).map g := by
    intro b f g hg
    rw [at_update]
    exact congrArg (fun k => (v.at a).map k) (funext fun s => (hg s).symm)
  obtain ⟨b, ht | rfl⟩ := hb
  · cases ht with
    | ensure =>
      simp only [View.edit, Except.ok.injEq] at he
      subst he
      have hid : (v.at a).map (Edit.onAccount sha a · (.ensure b)) = v.at a := Option.map_id'
      rw [hid]
      by_cases hs : (v.accounts.get b).isSome = true
      · rw [if_pos hs]
        exact .inl rfl
      · rw [if_neg hs]
        by_cases h : b = a
        · subst h
          refine .inr ⟨?_, rfl, ?_⟩
          · unfold View.at
            rw [Option.map_eq_none_iff, ← Option.not_isSome_iff_eq_none]
            exact hs
          · unfold View.at
            rw [SMap.get_put_self]
            exact Option.some_ne_none _
        · left
          unfold View.at
          rw [SMap.get_put_ne _ _ h]
    | nonce old new =>
      left
      simp only [View.edit] at he
      split at he
      · cases he; exact hupd fun _ => rfl
      · cases he
    | balance old new =>
      left
      simp only [View.edit] at he
      split at he
      · cases he; exact hupd fun _ => rfl
      · cases he
    | code old new =>
      left
      simp only [View.edit] at he
      split at he
      · cases he; exact hupd fun _ => rfl
      · cases he
    | slot key old new =>
      left
      simp only [View.edit] at he
      split at he
      · cases he; exact hupd fun _ => rfl
      · cases he
    | fail f => cases he
  · left
    simp only [View.edit, Except.ok.injEq] at he
    subst he
    unfold View.at
    cases hg : v.accounts.get b with
    | none =>
      by_cases h : b = a
      · subst h
        rw [hg]
        rfl
      · cases v.accounts.get a with
        | none => rfl
        | some acc => simp [Edit.onAccount, h]
    | some acc =>
      dsimp only
      by_cases h : b = a
      · subst h
        rw [hg, Tree.read_insertItem, if_pos rfl]
        simp [Edit.onAccount]
      · rw [Tree.read_insertItem, if_neg fun e => h (Addr.bytes_inj e)]
        cases v.accounts.get a with
        | none => rfl
        | some acc => simp [Edit.onAccount, h]

/-- Leaves of accounts that are not there, and keys that are no addresses. -/
theorem edit_rest (hb : e.Bulk) (he : v.edit sha e = .ok w) {k : Bytes}
    (hk : ∀ a, Addr.bytes a = k → w.accounts.get a = none) : w.trie.read k = v.trie.read k := by
  obtain ⟨b, ht | rfl⟩ := hb
  · cases ht <;> simp only [View.edit] at he
    all_goals repeat' split at he
    all_goals cases he
    all_goals first | rfl | rw [View.update_trie]
  · simp only [View.edit, Except.ok.injEq] at he
    subst he
    cases hg : v.accounts.get b with
    | none => rfl
    | some acc =>
      rw [hg] at hk
      dsimp only at hk ⊢
      rw [Tree.read_insertItem, if_neg fun e => by
        have := hk b e
        rw [hg] at this
        cases this]

/-! ## Runs of edits -/

theorem executed_run : ∀ (es : List Edit) (v : View), v.run sha (v.executed sha es) =
    ((v.run sha es).1, none)
  | [], _ => rfl
  | e :: es, v => by
    unfold View.executed View.run
    cases he : v.edit sha e with
    | error f => rfl
    | ok w =>
      dsimp only
      rw [he]
      exact executed_run es w

theorem run_at {es : List Edit} {v : View} (hb : ∀ e ∈ es, e.Bulk) (hr : (v.run sha es).2 = none) (a : Addr) :
    (v.at a ≠ none → (v.run sha es).1.at a = (v.at a).map fun s => es.foldl (Edit.onAccount sha a) s) ∧
      (v.at a = none → ((v.run sha es).1.at a = none ↔ .ensure a ∉ es)) := by
  induction es generalizing v with
  | nil => exact ⟨fun _ => (Option.map_id').symm, fun h => ⟨fun _ => by simp, fun _ => h⟩⟩
  | cons e es ih =>
    unfold View.run at hr ⊢
    cases he : v.edit sha e with
    | error f => rw [he] at hr; cases hr
    | ok w =>
      rw [he] at hr
      dsimp only at hr ⊢
      obtain ⟨h1, h2⟩ := ih (fun x hx => hb x (List.mem_cons_of_mem _ hx)) hr
      have hstep := edit_at (hb e List.mem_cons_self) he a
      refine ⟨?_, ?_⟩
      · intro hv
        rcases hstep with hs | ⟨hn, -, -⟩
        · have hw : w.at a ≠ none := by
            rw [hs]
            exact fun e => hv (Option.map_eq_none_iff.1 e)
          rw [h1 hw, hs, Option.map_map]
          rfl
        · exact absurd hn hv
      · intro hv
        rcases hstep with hs | ⟨-, rfl, hw⟩
        · rw [hv, Option.map_none] at hs
          rw [h2 hs, List.mem_cons, not_or]
          refine ⟨fun h => ⟨fun e' => ?_, h⟩, fun h => h.2⟩
          subst e'
          simp only [View.edit, Except.ok.injEq] at he
          have hnone : v.accounts.get a = none := Option.map_eq_none_iff.1 hv
          rw [hnone, Option.isSome_none, if_neg Bool.false_ne_true] at he
          rw [← he] at hs
          unfold View.at at hs
          rw [SMap.get_put_self] at hs
          cases hs
        · rw [h1 hw]
          refine ⟨fun h => absurd (Option.map_eq_none_iff.1 h) hw, fun h => absurd List.mem_cons_self h⟩

theorem get_run_mono : ∀ {es : List Edit} {v : View}, (∀ e ∈ es, e.Bulk) → (v.run sha es).2 = none → ∀ {a : Addr},
    (v.run sha es).1.accounts.get a = none → v.accounts.get a = none := by
  intro es v hb hr a ha
  by_contra hv
  have hva : v.at a ≠ none := fun e => hv (Option.map_eq_none_iff.1 e)
  have h1 := (run_at hb hr a).1 hva
  have h2 : (v.run sha es).1.at a = none := Option.map_eq_none_iff.2 ha
  rw [h2] at h1
  exact hva (Option.map_eq_none_iff.1 h1.symm)

theorem run_rest : ∀ {es : List Edit} {v : View}, (∀ e ∈ es, e.Bulk) → (v.run sha es).2 = none →
    ∀ {k : Bytes},
    (∀ a, Addr.bytes a = k → (v.run sha es).1.accounts.get a = none) →
      (v.run sha es).1.trie.read k = v.trie.read k
  | [], _, _, _, _, _ => rfl
  | e :: es, v, hb, hr, k, hk => by
    unfold View.run at hr hk ⊢
    cases he : v.edit sha e with
    | error f => rw [he] at hr
    | ok w =>
      rw [he] at hr hk
      dsimp only at hr hk ⊢
      have hb' : ∀ x ∈ es, x.Bulk := fun x hx => hb x (List.mem_cons_of_mem _ hx)
      rw [run_rest hb' hr hk, edit_rest (hb e List.mem_cons_self) he fun a ha =>
        get_run_mono hb' hr (hk a ha)]

/-- A run of bulk edits ends where it began exactly when it restores. -/
theorem run_restores (hb : ∀ e ∈ es, e.Bulk) (hr : (v.run sha es).2 = none) :
    (v.run sha es).1 = v ↔ Restores sha v es := by
  refine ⟨?_, ?_⟩
  · intro h
    refine ⟨fun a ha hn => ?_, fun a acc hacc => ?_⟩
    · have hva : v.at a = none := Option.map_eq_none_iff.2 hn
      have := ((run_at hb hr a).2 hva).1 (by rw [h]; exact hva)
      exact this ha
    · have hva : v.at a = some (acc, v.trie.read (Addr.bytes a)) := by
        unfold View.at
        rw [hacc, Option.map_some]
      have h1 := (run_at hb hr a).1 (by rw [hva]; nofun)
      rw [h, hva, Option.map_some, Option.some.injEq] at h1
      exact h1.symm
  · intro hx
    obtain ⟨hp, hs⟩ := hx
    have hat : ∀ a, (v.run sha es).1.at a = v.at a := by
      intro a
      cases hg : v.accounts.get a with
      | none =>
        have hva : v.at a = none := Option.map_eq_none_iff.2 hg
        rw [((run_at hb hr a).2 hva).2 fun he => hp a he hg, hva]
      | some acc =>
        have hva : v.at a = some (acc, v.trie.read (Addr.bytes a)) := by
          unfold View.at
          rw [hg, Option.map_some]
        rw [(run_at hb hr a).1 (by rw [hva]; nofun), hva, Option.map_some, hs a acc hg]
    have hacc : ∀ a, (v.run sha es).1.accounts.get a = v.accounts.get a := by
      intro a
      have := congrArg (Option.map Prod.fst) (hat a)
      unfold View.at at this
      rw [Option.map_map, Option.map_map] at this
      exact (Option.map_id').symm.trans (this.trans (Option.map_id'))
    have htrie : (v.run sha es).1.trie = v.trie := by
      apply Tree.ext
      intro k
      by_cases hk : ∀ a, Addr.bytes a = k → (v.run sha es).1.accounts.get a = none
      · exact run_rest hb hr hk
      · simp only [not_forall] at hk
        obtain ⟨a, rfl, hn⟩ := hk
        obtain ⟨acc, hg⟩ := Option.ne_none_iff_exists'.1 hn
        have := hat a
        unfold View.at at this
        rw [hg, ← hacc a, hg, Option.map_some, Option.map_some, Option.some.injEq,
          Prod.mk.injEq] at this
        exact this.2
    have hf := @View.run_frozen sha v es
    have ha := SMap.ext hacc
    cases hv : (v.run sha es).1
    rw [hv] at ha htrie hf
    cases v
    simp_all

namespace Heap
variable {h : Heap} {op : Op} {m : Nat}

/-- **Failed bulk updates.** A call that fails leaves the account table, the
storages and the state trie as they were exactly when what it walked restores
them. -/
theorem failed_bulk_update (hk : Ok sha h) (hb : op.Bulk) (hw : op.writes = some m)
    (hv : h.view m = some v)
    (_hf : (h.step sha op).2.isFault = true) :
    (h.step sha op).1.view m = some v ↔ Restores sha v (v.executed sha (v.writable op.edits)) := by
  obtain ⟨hm, -⟩ := write_performs hk hv hw
  have hrun := @executed_run sha (v.writable op.edits) v
  have hbulk : ∀ e ∈ v.executed sha (v.writable op.edits), e.Bulk := by
    intro e he
    have he' := executed_subset e he
    unfold View.writable at he'
    split at he'
    · rw [List.mem_singleton] at he'
      exact ⟨0, .inl (by rw [he']; exact .fail _)⟩
    · exact bulk_edits hb e he'
  rw [hm.view, Option.some.injEq, ← run_restores hbulk (by rw [hrun]), hrun]

/-- A malformed item after one that changes a nonce. -/
theorem failed_bulk_update_malformed :
    let h := Heap.init.run Sha256.sha256 [.new, .put 0 (.ofAddr 1) (.int 3) (.int 5) (.atom .nil) (.atom .nil)]
    let op : Op := .applyDifference 0 (.ofList [.tuple [.ofAddr 1, .map [(.atom .nonce, .tuple [.int 3, .int 4])]],
      .atom .nil])
    ∃ v, h.view 0 = some v ∧ ((h.step Sha256.sha256 op).1.view 0 = some v ↔
      Restores Sha256.sha256 v (v.executed Sha256.sha256 (v.writable op.edits))) := by
  intro h op
  have hc : Heap.init.CarefulRun Sha256.sha256 [.new, .put 0 (.ofAddr 1) (.int 3) (.int 5) (.atom .nil)
      (.atom .nil)] := ⟨careful_of_no_slots nofun nofun, careful_put .., trivial⟩
  have hv : (h.view 0).isSome = true := by
    unfold h
    rw [Sha256.sha256_eq]; decide +kernel
  have hf : (h.step Sha256.sha256 op).2.isFault = true := by
    unfold h
    rw [Sha256.sha256_eq]; decide +kernel
  exact ⟨_, (Option.some_get hv).symm,
    failed_bulk_update (run_ok ok_init hc) (.applyDifference ..) rfl (Option.some_get hv).symm hf⟩

/-- **Where a failing call writes.** The nonce in the difference fits, the
balance does not: the call reports a mismatch and leaves a new account behind. -/
theorem mismatch_leaves_account :
    let h := Heap.init.run Sha256.sha256 [.new]
    let r := h.step Sha256.sha256 (.applyDifference 0 (.ofList [.tuple [.ofAddr 1, .map [
      (.atom .nonce, .tuple [.int 0, .int 5]), (.atom .balance, .tuple [.int 1, .int 2])]]]))
    (match r.2 with | .fault .mismatch => true | _ => false) = true ∧
      ((h.view 0).map fun v => (v.accounts.get 1).map (·.nonce)) = some none ∧
      ((r.1.view 0).map fun v => (v.accounts.get 1).map (·.nonce)) = some (some 5) := by
  intro h r
  exact ⟨by decide +kernel, by decide +kernel, by decide +kernel⟩

end Heap
end Diode.L3
