import Diode.L3State.Difference
import Diode.Core.Sha256

/-!
# Handles

The calls a process can make on account maps (`Op`), as a step function on the
heap, and what a step does to the views.

* `step_effect`: a step keeps `Ok` and changes only the map it writes, provided
  the storages it writes have one owner (`Careful`).
* `answers_kept`: in a run of such steps no map sees the writes on another
  one, and a locked map shows the same for ever.

`Careful` can only fail after `account_map_uncompact_state` on a handle: the new
map then holds the live storages of the old one, not clones of them.
-/
namespace Diode.L3
open Diode.Core Diode.L1.Ext Function Heap

inductive Op where
  | new
  | clone (m : Nat)
  | lock (m : Nat)
  | destroy (m : Nat)
  | compact (m : Nat)
  | uncompactTerm (t : Term)
  | uncompactHandle (m : Nat)
  | put (m : Nat) (addr nonce balance storage code : Term)
  | delete (m : Nat) (addr : Term)
  | storagePutMap (m : Nat) (updates : Term)
  | applyDifference (m : Nat) (delta : Term)
  | difference (a b : Nat)
  | ask (m : Nat) (q : Query)

inductive Reply where
  | fault (f : Fault)
  | ok
  | handle (m : Nat)
  | term (t : Term)
  | difference (l : List DiffEntry)
  | answer (a : Answer)

def Reply.isFault : Reply → Bool
  | .fault _ => true
  | _ => false

namespace Op

/-- The map a call writes. -/
def writes : Op → Option Nat
  | put m _ _ _ _ _ => some m
  | delete m _ => some m
  | storagePutMap m _ => some m
  | applyDifference m _ => some m
  | _ => none

/-- The edits of a write. -/
def edits : Op → List Edit
  | put _ addr nonce balance storage code => putEdits addr nonce balance storage code
  | delete _ addr => deleteEdits addr
  | storagePutMap _ updates => putMapEdits updates
  | applyDifference _ delta => deltaEdits delta
  | _ => []

end Op

namespace Heap
variable (sha : Bytes → Word)

/-- The reply of a routine that returns the handle or fails. -/
def replyOf (r : Heap × Option Fault) : Heap × Reply := (r.1, r.2.elim .ok .fault)

/-- The reply of a routine that makes a map. -/
def replyHandle (h : Heap) : Option (Nat × Heap) → Heap × Reply
  | none => (h, .fault .badarg)
  | some (n, h) => (h, .handle n)

def step (h : Heap) : Op → Heap × Reply
  | .new => replyHandle h (some h.accountMapNew)
  | .clone m => replyHandle h (h.accountMapClone m)
  | .lock m =>
    match h.accountMapLock m with
    | none => (h, .fault .badarg)
    | some h => (h, .ok)
  | .destroy m => (h.destructAccountmap m, .ok)
  | .compact m =>
    match h.accountMapCompact sha m with
    | (h, none) => (h, .fault .badarg)
    | (h, some t) => (h, .term t)
  | .uncompactTerm t => replyHandle h (h.uncompactTerm sha t)
  | .uncompactHandle m => replyHandle h (h.uncompactHandle sha m)
  | .put m addr nonce balance storage code =>
      replyOf (accountMapPut sha m addr nonce balance storage code h)
  | .delete m addr => replyOf (accountMapDelete m addr h)
  | .storagePutMap m updates => replyOf (Diode.L3.storagePutMap sha m updates h)
  | .applyDifference m delta => replyOf (Diode.L3.applyDifference sha m delta h)
  | .difference a b =>
    match h.differenceFull sha a b with
    | (h, none) => (h, .fault .badarg)
    | (h, some l) => (h, .difference l)
  | .ask m q =>
    match h.ask sha m q with
    | (h, a) => (h, .answer a)

def run (h : Heap) : List Op → Heap
  | [] => h
  | op :: ops => (h.step sha op).1.run ops

/-- No call of the run fails. -/
def successful (h : Heap) : List Op → Bool
  | [] => true
  | op :: ops => !(h.step sha op).2.isFault && (h.step sha op).1.successful ops

/-- The slots a write reaches belong to accounts whose storage nobody shares,
and a term to uncompact is one that `account_map_compact` could have made. -/
structure Careful (h : Heap) (op : Op) : Prop where
  alone : ∀ m v, op.writes = some m → h.view m = some v →
    ∀ a ∈ slotTargets (v.executed sha (v.writable op.edits)), h.Alone m a
  term : ∀ t l, op = .uncompactTerm t → parseCompactState t = some l → (l.map Prod.fst).Nodup ∧
    ∀ p ∈ l, p.2.Honest sha

def CarefulRun (h : Heap) : List Op → Prop
  | [] => True
  | op :: ops => h.Careful sha op ∧ CarefulRun (h.step sha op).1 ops

end Heap

namespace Heap
variable {sha : Bytes → Word} {h : Heap} {m : Nat} {v : View} {op : Op}

/-! ## One step -/

/-- A write of any of the four kinds performs its edits. -/
theorem write_performs (hk : Ok sha h) (hv : h.view m = some v) (hw : op.writes = some m) :
    Moves sha m (slotTargets (v.executed sha (v.writable op.edits))) h (h.step sha op).1
      (v.run sha (v.writable op.edits)).1 ∧
      (h.step sha op).2 = (v.run sha (v.writable op.edits)).2.elim .ok .fault := by
  have hreply : ∀ {f : Run} {es : List Edit}, PerformsAt sha m h v f es →
      Moves sha m (slotTargets (v.executed sha (v.writable es))) h (replyOf (f h)).1
        (v.run sha (v.writable es)).1 ∧
        (replyOf (f h)).2 = (v.run sha (v.writable es)).2.elim .ok .fault := by
    intro f es hp
    refine ⟨hp.1, ?_⟩
    unfold replyOf
    rw [← hp.2]
  cases op with
  | put n addr nonce balance storage code =>
    cases hw
    exact hreply (accountMapPut_performs hk hv addr nonce balance storage code)
  | delete n addr =>
    cases hw
    exact hreply (accountMapDelete_performs hk hv addr)
  | storagePutMap n updates =>
    cases hw
    exact hreply (storagePutMap_performs hk hv updates)
  | applyDifference n delta =>
    cases hw
    exact hreply (applyDifference_performs hk hv delta)
  | _ => cases hw

/-- A call on a handle that is gone. -/
theorem write_gone (hv : h.view m = none) (hw : op.writes = some m) :
    h.step sha op = (h, .fault .badarg) := by
  have hs : h.maps m = none := by
    cases hs : h.maps m with
    | none => rfl
    | some s => rw [view_of_map hs] at hv; cases hv
  have hfail : ∀ f : Run, makeWriteableAccountmap m f h = (h, some .badarg) := fun f => by
    unfold makeWriteableAccountmap
    rw [hs]
  have hreply : ∀ f : Run, f h = (h, some .badarg) → replyOf (f h) = (h, .fault .badarg) :=
    fun f hf => by
    rw [hf]
    rfl
  cases op with
  | put n addr nonce balance storage code =>
    cases hw
    refine hreply (accountMapPut sha m addr nonce balance storage code) ?_
    unfold accountMapPut
    cases addr.getAddress with
    | none => rfl
    | some a =>
      cases nonce.getUint64 with
      | none => rfl
      | some n =>
        cases balance.getBalance with
        | none => rfl
        | some b =>
          cases code.getCode with
          | none => rfl
          | some c =>
            dsimp only
            split
            · exact hfail _
            · cases storage.storagePayload with
              | none => rfl
              | some t => exact hfail _
  | delete n addr =>
    cases hw
    refine hreply (accountMapDelete m addr) ?_
    unfold accountMapDelete
    cases addr.getAddress with
    | none => rfl
    | some a => exact hfail _
  | storagePutMap n updates =>
    cases hw
    refine hreply (Diode.L3.storagePutMap sha m updates) ?_
    unfold Diode.L3.storagePutMap
    split
    · exact hfail _
    · rfl
  | applyDifference n delta =>
    cases hw
    refine hreply (Diode.L3.applyDifference sha m delta) ?_
    unfold Diode.L3.applyDifference
    split
    · exact hfail _
    · rfl
  | _ => cases hw

/-- A view a new map can have. -/
inductive Born (sha : Bytes → Word) (h : Heap) (v : View) : Prop where
  | fresh (e : v = View.empty)
  | fork (m : Nat) (w : View) (hw : h.view m = some w) (ht : v.trie = w.trie)
      (ha : v.accounts = w.accounts)
  | built (l : List (Addr × Account)) (e : v = View.ofAccounts sha l)

/-- What a step does to the heap. -/
inductive Effect (sha : Bytes → Word) (h h' : Heap) (op : Op) : Prop where
  | stays (hk : Ok sha h) (e : h' = h)
  | fills (hf : Fills sha h h')
  | builds (v : View) (hb : Builds sha h.nextMap h h' v) (hv : Born sha h v)
  /-- a call on map `n` that shows the same afterwards, frozen perhaps -/
  | shows (n : Nat) (v w : View) (hv : h.view n = some v) (hm : Moves sha n [] h h' w)
      (ht : w.trie = v.trie)
      (ha : w.accounts = v.accounts) (hf : v.frozen = true → w.frozen = true)
  | writes (n : Nat) (v w : View) (W : List Addr) (hw : op.writes = some n) (hv : h.view n = some v)
      (hm : Moves sha n W h h' w) (hW : ∀ a ∈ W, h.Alone n a)
  | destroys (n : Nat) (e : op = .destroy n) (hk : Ok sha h') (hb : Beside h h' n)
      (hn : h'.view n = none)

/-- **One step.** -/
theorem step_effect (hk : Ok sha h) (hc : h.Careful sha op) : Effect sha h (h.step sha op).1 op := by
  have hgone : ∀ n, h.view n = none → h.maps n = none := fun n hu => by
    cases hs : h.maps n with
    | none => rfl
    | some s => rw [view_of_map hs] at hu; cases hu
  have hwrite : ∀ n, op.writes = some n → Effect sha h (h.step sha op).1 op := by
    intro n hw
    cases hu : h.view n with
    | none => exact .stays hk (congrArg Prod.fst (write_gone hu hw))
    | some u => exact .writes n u _ _ hw hu (write_performs hk hu hw).1 (hc.alone n u hw hu)
  cases op with
  | put n addr nonce balance storage code => exact hwrite n rfl
  | delete n addr => exact hwrite n rfl
  | storagePutMap n updates => exact hwrite n rfl
  | applyDifference n delta => exact hwrite n rfl
  | new => exact .builds _ (accountMapNew_builds hk).2.1 (.fresh rfl)
  | clone n =>
    unfold step
    dsimp only
    cases hu : h.view n with
    | none =>
      unfold accountMapClone
      rw [hgone n hu]
      exact .stays hk rfl
    | some u =>
      obtain ⟨h', he, hb, -⟩ := accountMapClone_builds hk hu
      rw [he]
      exact .builds _ hb (.fork n u hu rfl rfl)
  | lock n =>
    unfold step
    dsimp only
    cases hu : h.view n with
    | none =>
      unfold accountMapLock
      rw [hgone n hu]
      exact .stays hk rfl
    | some u =>
      obtain ⟨h', he, -, hm⟩ := accountMapLock_moves hk hu
      rw [he]
      exact .shows n u _ hu hm rfl rfl fun _ => rfl
  | destroy n =>
    unfold step
    dsimp only
    cases hu : h.view n with
    | none =>
      unfold destructAccountmap
      rw [hgone n hu]
      exact .stays hk rfl
    | some u =>
      obtain ⟨h1, h2, h3, -⟩ := destructAccountmap_spec hk hu
      refine .destroys n rfl h1 h3 ?_
      unfold view
      rw [h2, Option.map_none]
  | compact n =>
    unfold step
    dsimp only
    cases hu : h.view n with
    | none =>
      have : h.accountMapCompact sha n = (h, none) := by
        unfold accountMapCompact
        rw [hgone n hu]
      simp only [this]
      exact .stays hk rfl
    | some u =>
      obtain ⟨hm, t, l, ht, -⟩ := compact_spec hk hu
      generalize hr : h.accountMapCompact sha n = r at hm ht
      obtain ⟨h', o⟩ := r
      cases ht
      exact .shows n u u hu hm rfl rfl fun hf => hf
  | uncompactTerm t =>
    unfold step
    dsimp only
    cases hl : parseCompactState t with
    | none =>
      unfold uncompactTerm
      rw [hl]
      exact .stays hk rfl
    | some l =>
      obtain ⟨hnd, hon⟩ := hc.term t l rfl hl
      obtain ⟨h', he, hb, -⟩ := uncompactTerm_builds hk hl hnd hon
      rw [he]
      exact .builds _ hb (.built _ rfl)
  | uncompactHandle n =>
    unfold step
    dsimp only
    cases hu : h.view n with
    | none =>
      unfold uncompactHandle
      rw [hgone n hu]
      exact .stays hk rfl
    | some u =>
      obtain ⟨h', he, hb⟩ := uncompactHandle_builds hk hu
      rw [he]
      exact .builds _ hb (.built _ rfl)
  | difference a b =>
    unfold step
    dsimp only
    have hnone : h.view a = none ∨ h.view b = none → h.differenceFull sha a b = (h, none) := by
      intro hu
      unfold differenceFull
      rcases hu with hu | hu
      · rw [hgone a hu]
      · rw [hgone b hu]
        cases h.maps a <;> rfl
    cases hu : h.view a with
    | none =>
      rw [hnone (.inl hu)]
      exact .stays hk rfl
    | some u =>
      cases hw : h.view b with
      | none =>
        rw [hnone (.inr hw)]
        exact .stays hk rfl
      | some w =>
        obtain ⟨h1, h2⟩ := differenceFull_spec hk hu hw
        generalize hr : h.differenceFull sha a b = r at h1 h2
        obtain ⟨h', o⟩ := r
        cases h1
        exact .fills h2
  | ask n q =>
    unfold step
    dsimp only
    cases hu : h.view n with
    | none =>
      have : h.ask sha n q = (h, .badarg) := by
        unfold ask
        rw [hgone n hu]
      rw [this]
      exact .stays hk rfl
    | some u => exact .shows n u u hu (ask_moves hk hu q).2 rfl rfl fun hf => hf

namespace Effect
variable {h' : Heap}

theorem ok (he : Effect sha h h' op) : Ok sha h' := by
  cases he with
  | stays hk e => rw [e]; exact hk
  | fills hf => exact hf.ok
  | builds v hb _ => exact hb.ok
  | shows n v w _ hm => exact hm.ok
  | writes n v w W _ _ hm => exact hm.ok
  | destroys n _ hk => exact hk

/-- A map that is not written keeps its table and its trie. -/
theorem keeps (hk : Ok sha h) (he : Effect sha h h' op) (hv : h.view m = some v)
    (hw : op.writes ≠ some m)
    (hd : op ≠ .destroy m) : ∃ v', h'.view m = some v' ∧ v'.trie = v.trie ∧ v'.accounts = v.accounts ∧
      (v.frozen = true → v'.frozen = true) := by
  have hself : h'.view m = h.view m → ∃ v', h'.view m = some v' ∧ v'.trie = v.trie ∧
    v'.accounts = v.accounts ∧
      (v.frozen = true → v'.frozen = true) := fun e => ⟨v, e.trans hv, rfl, rfl, fun hf => hf⟩
  cases he with
  | stays _ e => exact hself (by rw [e])
  | fills hf => exact hself (hf.view hk m)
  | builds u hb _ => exact hself (hb.beside.frame hk (Nat.ne_of_lt (view_lt hk hv)))
  | shows n u w hu hm ht ha hf =>
    by_cases e : m = n
    · subst e
      rw [hu, Option.some.injEq] at hv
      subst hv
      exact ⟨w, hm.view, ht, ha, hf⟩
    · exact hself (hm.within.frame hk e nofun)
  | writes n u w W hn hu hm hW => exact hself (hm.within.frame hk (fun e => hw (by rw [hn, e])) hW)
  | destroys n e _ hb => exact hself (hb.frame hk fun e' => hd (by rw [e, e']))

/-- A map that was not there before. -/
theorem born (hk : Ok sha h) (he : Effect sha h h' op) (hn : h.view m = none)
    (hv : h'.view m = some v) : Born sha h v := by
  have hsame : h'.view m ≠ h.view m := by
    rw [hn, hv]
    nofun
  cases he with
  | stays _ e => exact absurd (by rw [e]) hsame
  | fills hf => exact absurd (hf.view hk m) hsame
  | builds u hb hu =>
    by_cases e : m = h.nextMap
    · subst e
      rw [hb.view, Option.some.injEq] at hv
      rw [← hv]
      exact hu
    · exact absurd (hb.beside.frame hk e) hsame
  | shows n u w hu hm =>
    have e : m ≠ n := fun e => by
      rw [e, hu] at hn
      cases hn
    exact absurd (hm.within.frame hk e nofun) hsame
  | writes n u w W _ hu hm hW =>
    have e : m ≠ n := fun e => by
      rw [e, hu] at hn
      cases hn
    exact absurd (hm.within.frame hk e hW) hsame
  | destroys n e _ hb hgone =>
    by_cases e : m = n
    · rw [e, hgone] at hv
      cases hv
    · exact absurd (hb.frame hk e) hsame

end Effect

theorem run_append (h : Heap) (ops ops' : List Op) :
    h.run sha (ops ++ ops') = (h.run sha ops).run sha ops' := by
  induction ops generalizing h with
  | nil => rfl
  | cons op ops ih => exact ih _

theorem run_ok {ops : List Op} : ∀ {h : Heap}, Ok sha h → h.CarefulRun sha ops →
    Ok sha (h.run sha ops) := by
  induction ops with
  | nil => exact fun hk _ => hk
  | cons op ops ih => exact fun hk hc => ih (step_effect hk hc.1).ok hc.2

/-- An answer looks at the trie and the table only. -/
theorem answer_congr {v w : View} (ht : w.trie = v.trie) (ha : w.accounts = v.accounts) (q : Query) :
    w.answer sha q = v.answer sha q := by
  have hs : ∀ a, w.storage a = v.storage a := fun a => by unfold View.storage; rw [ha]
  unfold View.answer
  cases q <;> simp only [ht, ha, hs]

theorem executed_subset : ∀ {es : List Edit} {v : View}, ∀ e ∈ v.executed sha es, e ∈ es
  | [], _, _, h => h
  | e :: es, v, x, h => by
    unfold View.executed at h
    cases he : v.edit sha e with
    | error f =>
      rw [he] at h
      cases h
    | ok v' =>
      rw [he] at h
      rcases List.mem_cons.1 h with rfl | h
      · exact List.mem_cons_self
      · exact List.mem_cons_of_mem _ (executed_subset x h)

/-- Edits without slots write no storage in place. -/
theorem slotTargets_of_no_slots {es : List Edit} (hs : ∀ e ∈ es, ∀ a k o n, e ≠ .slot a k o n) :
    slotTargets (v.executed sha (v.writable es)) = [] := by
  refine List.filterMap_eq_nil_iff.2 fun e he => ?_
  have he' := executed_subset e he
  unfold View.writable at he'
  cases e with
  | slot b k o n =>
    split at he'
    · simp at he'
    · exact absurd rfl (hs _ he' b k o n)
  | _ => rfl

/-- A write without slots is always careful. -/
theorem careful_of_no_slots (hs : ∀ e ∈ op.edits, ∀ a k o n, e ≠ .slot a k o n)
    (hne : ∀ t, op ≠ .uncompactTerm t) :
    h.Careful sha op where
  alone m v _ _ a ha := by
    rw [slotTargets_of_no_slots hs] at ha
    cases ha
  term := fun t _ e _ => absurd e (hne t)

/-- A `put` writes no slot of a storage that is there. -/
theorem putEdits_no_slots (addr nonce balance storage code : Term) :
    ∀ e ∈ putEdits addr nonce balance storage code, ∀ a k o n, e ≠ .slot a k o n := by
  intro e he
  unfold putEdits at he
  repeat' split at he
  all_goals
    simp only [List.mem_cons, List.not_mem_nil, or_false] at he
    rcases he with rfl | rfl | rfl
    all_goals nofun

theorem deleteEdits_no_slots (addr : Term) : ∀ e ∈ deleteEdits addr, ∀ a k o n, e ≠ .slot a k o n := by
  intro e he
  unfold deleteEdits at he
  split at he <;> rw [List.mem_singleton.1 he] <;> nofun

theorem careful_put (m : Nat) (addr nonce balance storage code : Term) :
    h.Careful sha (.put m addr nonce balance storage code) :=
  careful_of_no_slots (putEdits_no_slots addr nonce balance storage code) nofun

end Heap
end Diode.L3
