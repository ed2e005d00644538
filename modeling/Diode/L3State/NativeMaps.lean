import Diode.L3State.Native
import Diode.L3State.Rebuild

/-!
# Maps of the native library

What `Handles`, `Coherence` and `Rebuild` prove of account maps, of the library
with its pools: where the calls are `Careful` and sound.

* `handles_isolated`: the answers of a map.
* `state_trie_coherent`: the leaves of its state trie.
* `compact_round_trip`: the map made from its compact term.

Each fails where `uncompact_state` on a handle left two maps on one storage.
-/
namespace Diode.L3
open Diode.Core Diode.L1.Ext

namespace Native
variable {sha : Bytes → Word}

/-- Two answers of different bytes. -/
def unlike : Option Reply → Option Reply → Bool
  | some (.answer a), some (.answer a') => a'.bin ≠ a.bin
  | _, _ => false

theorem answers_of_unlike {x y : Option Reply} (h : unlike x y = true) :
    ∃ a a', x = some (.answer a) ∧ y = some (.answer a') ∧ a' ≠ a := by
  unfold unlike at h
  split at h
  · exact ⟨_, _, rfl, rfl, fun e => of_decide_eq_true h (congrArg Answer.bin e)⟩
  · cases h

/-- **The state root is the root of the accounts.** After every run of successful
calls the state trie of each map has exactly the leaves of its table. The root is
reported exactly when the query is sound, and then it is the one computed from
scratch. -/
theorem state_trie_coherent (ops : List Op) (hc : Heap.init.CarefulRun sha ops)
    (hok : Heap.init.successful sha ops = true) (hs : init.soundRun sha ops = true) :
    ∃ n, init.run sha ops = some n ∧ ∀ m s, n.heap.maps m = some s →
      ∃ v, n.heap.view m = some v ∧ v.Coherent sha ∧
        (∃ P l, n.pools.onTree sha n.heap.res s.state_trie .each (.pairs []) = some (P, .pairs l) ∧
          l.Perm v.trie.pairs) ∧
        (n.reply sha (.ask m .rootHash) =
            some (.answer (.term (.ofWord ((View.ofAccounts sha v.accounts.entries).trie.rootHash sha)))) ↔
          n.sound sha (.ask m .rootHash) = true) := by
  obtain ⟨P, h1, hP⟩ := run_of_sound (holds_init sha) hs
  refine ⟨_, h1, fun m s hm => ?_⟩
  have hv := Heap.view_of_map hm
  obtain ⟨hcoh, hroot⟩ := Heap.reached_coherent ops hc hok m _ hv
  exact ⟨_, hv, hcoh, (reads hP s.state_trie).2, reply_iff hP (congrArg Reply.answer hroot)⟩

/-- A fork whose only account is deleted. -/
theorem state_trie_coherent_fork :
    let ops : List Op := [.new, .put 0 (.ofAddr 1) (.int 0) (.int 5) (.atom .nil) (.atom .nil),
      .clone 0, .delete 1 (.ofAddr 1)]
    ∃ n v, init.run Sha256.sha256 ops = some n ∧ n.heap.view 1 = some v ∧ v.Coherent Sha256.sha256 ∧
      n.reply Sha256.sha256 (.ask 1 .rootHash) = some (.answer (.term (.ofWord
        ((View.ofAccounts Sha256.sha256 v.accounts.entries).trie.rootHash Sha256.sha256)))) := by
  intro ops
  have hc : Heap.init.CarefulRun Sha256.sha256 ops :=
    ⟨Heap.careful_of_no_slots nofun nofun, Heap.careful_put .., Heap.careful_of_no_slots nofun nofun,
      Heap.careful_of_no_slots (fun e he => by rw [List.mem_singleton.1 he]; nofun) nofun, trivial⟩
  have hrun : (Heap.init.successful Sha256.sha256 ops && (init.run Sha256.sha256 ops).any (fun n =>
      (n.heap.maps 1).isSome && (n.reply Sha256.sha256 (.ask 1 .rootHash)).isSome)) = true := by
    rw [Sha256.sha256_eq]; decide +kernel
  rw [Bool.and_eq_true] at hrun
  obtain ⟨n, hn, hq⟩ := (Option.any_eq_true ..).1 hrun.2
  rw [Bool.and_eq_true] at hq
  obtain ⟨x, h1, h⟩ := state_trie_coherent ops hc hrun.1
    ((run_isSome_iff (holds_init _)).1 (Option.isSome_of_eq_some hn))
  obtain rfl := Option.some.inj (hn.symm.trans h1)
  obtain ⟨v, hv, hcoh, -, hroot⟩ := h 1 _ (Option.some_get hq.1).symm
  exact ⟨n, v, h1, hv, hcoh, hroot.2 ((reply_isSome_iff (holds_run (holds_init _) hn).2).1 hq.2)⟩

/-- **Where the trie falls behind.** A slot written through the uncompacted map
changes the record of the other one, whose leaf stays. -/
theorem shared_storage_stale_leaf :
    ∃ (ops : List Op) (m : Nat) (n : Native) (v : View), Heap.init.successful Sha256.sha256 ops = true ∧
      init.run Sha256.sha256 ops = some n ∧ n.heap.view m = some v ∧ ¬v.Coherent Sha256.sha256 := by
  let ops : List Op := [.new, .put 0 (.ofAddr 1) (.int 0) (.int 5) (.atom .nil) (.atom .nil), .uncompactHandle 0,
    .storagePutMap 1 (.ofList [.tuple [.ofAddr 1, .ofList [.tuple [.ofWord 7, .ofWord 8]]]])]
  have hrun : (Heap.init.successful Sha256.sha256 ops && (init.run Sha256.sha256 ops).any (fun n =>
      (n.heap.view 0).any fun v => v.trie.read (Addr.bytes 1) ≠
        (v.accounts.get 1).elim 0 (Account.hash Sha256.sha256))) = true := by
    rw [Sha256.sha256_eq]; decide +kernel
  rw [Bool.and_eq_true] at hrun
  obtain ⟨n, hn, hv⟩ := (Option.any_eq_true ..).1 hrun.2
  obtain ⟨v, hv, hne⟩ := (Option.any_eq_true ..).1 hv
  exact ⟨ops, 0, n, v, hrun.1, hn, hv, fun h => of_decide_eq_true hne (h.leaves 1 not_false)⟩

/-! ## Compact and rebuild -/

section
variable (sha : Bytes → Word)

/-- A map from the compact term of another. -/
def rebuild (n : Native) (m : Nat) : Option (Native × Nat) :=
  match n.step sha (.compact m) with
  | some (n₁, .term t) =>
    match n₁.step sha (.uncompactTerm t) with
    | some (n₂, .handle k) => some (n₂, k)
    | _ => none
  | _ => none

/-- Both calls are sound where they are made. -/
def rebuildable (n : Native) (m : Nat) : Bool :=
  n.sound sha (.compact m) &&
    match n.step sha (.compact m) with
    | some (n₁, .term t) => n₁.sound sha (.uncompactTerm t)
    | _ => true

end

theorem step_compact {h : Heap} {m : Nat} {t : Term} (ht : (h.accountMapCompact sha m).2 = some t) :
    h.step sha (.compact m) = ((h.accountMapCompact sha m).1, .term t) := by
  rw [Heap.step]
  generalize h.accountMapCompact sha m = r at ht
  obtain ⟨g, o⟩ := r
  obtain rfl := ht
  rfl

theorem rebuild_of_sound {n : Native} {m k : Nat} {t : Term} {g : Heap} (h : n.Holds sha)
    (hs : n.rebuildable sha m = true) (ht : (n.heap.accountMapCompact sha m).2 = some t)
    (hu : (n.heap.accountMapCompact sha m).1.uncompactTerm sha t = some (k, g)) :
    ∃ P, n.rebuild sha m = some (⟨g, P⟩, k) ∧ Holds sha ⟨g, P⟩ := by
  rw [rebuildable, Bool.and_eq_true] at hs
  obtain ⟨P₁, h1, hP₁⟩ := step_eq h hs.1 (step_compact ht)
  have hsound := hs.2
  rw [h1] at hsound
  have hstep : (n.heap.accountMapCompact sha m).1.step sha (.uncompactTerm t) = (g, .handle k) := by
    rw [Heap.step, hu]
    rfl
  obtain ⟨P₂, h2, hP₂⟩ := step_eq hP₁ hsound hstep
  refine ⟨P₂, ?_, hP₂⟩
  rw [rebuild, h1]
  dsimp only
  rw [h2]

/-- **Compact, uncompact.** After every run of successful calls, the map made from
the compact term of another answers every query as that one does, and its own
compact term stands for the same accounts: each exactly where the call is sound. -/
theorem compact_round_trip (ops : List Op) (hc : Heap.init.CarefulRun sha ops)
    (hok : Heap.init.successful sha ops = true) (hs : init.soundRun sha ops = true) :
    ∃ n, init.run sha ops = some n ∧ ∀ m v, n.heap.view m = some v → n.rebuildable sha m = true →
      ∃ n' k w, n.rebuild sha m = some (n', k) ∧ n'.heap.view k = some w ∧
        w.accounts = v.accounts ∧ w.trie = v.trie ∧
        (∀ q, n.sound sha (.ask m q) = true → ∃ a, n.reply sha (.ask m q) = some (.answer a) ∧
          (n'.reply sha (.ask k q) = some (.answer a) ↔ n'.sound sha (.ask k q) = true)) ∧
        ∃ t l, Heap.parseCompactState t = some l ∧ l.map (fun p => (p.1, p.2.account)) = v.accounts.entries ∧
          (n'.reply sha (.compact k) = some (.term t) ↔ n'.sound sha (.compact k) = true) := by
  obtain ⟨P, h1, hP⟩ := run_of_sound (holds_init sha) hs
  refine ⟨_, h1, fun m v hv hm => ?_⟩
  obtain ⟨t, k, g, w, ht, hu, hw, hacc, htrie, hans, t', l, ht', hl, hl'⟩ :=
    Heap.rebuilt_answers ops hc hok m v hv
  obtain ⟨Q, h2, hQ⟩ := rebuild_of_sound hP hm ht hu
  exact ⟨_, k, w, h2, hw, hacc, htrie,
    fun q hq => ⟨_, reply_of_sound hP hq, reply_iff hQ (congrArg Reply.answer (hans q))⟩,
    t', l, hl, hl', reply_iff hQ (congrArg Prod.snd (step_compact ht'))⟩

/-- A map with an account that has a slot and one that has neither slots nor code. -/
theorem compact_round_trip_two :
    let ops : List Op := [.new, .put 0 (.ofAddr 1) (.int 3) (.int 5)
      (.ofList [.tuple [.ofWord 7, .ofWord 8]]) (.bin [1, 2]),
      .put 0 (.ofAddr 2) (.int 0) (.bin (Word.bytes (-1))) (.atom .nil) (.atom .nil)]
    ∃ n v n' k w a, init.run Sha256.sha256 ops = some n ∧ n.heap.view 0 = some v ∧
      n.rebuild Sha256.sha256 0 = some (n', k) ∧ n'.heap.view k = some w ∧
      w.accounts = v.accounts ∧ w.trie = v.trie ∧
      n.reply Sha256.sha256 (.ask 0 .rootHash) = some (.answer a) ∧
      n'.reply Sha256.sha256 (.ask k .rootHash) = some (.answer a) := by
  intro ops
  have hc : Heap.init.CarefulRun Sha256.sha256 ops :=
    ⟨Heap.careful_of_no_slots nofun nofun, Heap.careful_put .., Heap.careful_put .., trivial⟩
  have hrun : (Heap.init.successful Sha256.sha256 ops && (init.run Sha256.sha256 ops).any (fun n =>
      (n.heap.view 0).isSome && n.rebuildable Sha256.sha256 0 && (n.reply Sha256.sha256 (.ask 0 .rootHash)).isSome &&
      (n.rebuild Sha256.sha256 0).all fun x => x.1.sound Sha256.sha256 (.ask x.2 .rootHash))) = true := by
    rw [Sha256.sha256_eq]; decide +kernel
  rw [Bool.and_eq_true] at hrun
  obtain ⟨n, hn, hq⟩ := (Option.any_eq_true ..).1 hrun.2
  rw [Bool.and_eq_true, Bool.and_eq_true, Bool.and_eq_true] at hq
  obtain ⟨⟨⟨hv, hr⟩, hroot⟩, hroot'⟩ := hq
  obtain ⟨x, h1, h⟩ := compact_round_trip ops hc hrun.1
    ((run_isSome_iff (holds_init _)).1 (Option.isSome_of_eq_some hn))
  obtain rfl := Option.some.inj (hn.symm.trans h1)
  obtain ⟨n', k, w, h2, hw, hacc, htrie, hans, -⟩ := h 0 _ (Option.some_get hv).symm hr
  obtain ⟨a, h3, h4⟩ := hans .rootHash ((reply_isSome_iff (holds_run (holds_init _) hn).2).1 hroot)
  rw [h2, Option.all_some] at hroot'
  exact ⟨n, _, n', k, w, a, h1, (Option.some_get hv).symm, h2, hw, hacc, htrie, h3, h4.2 hroot'⟩

/-- **Where the rebuilt root differs.** The leaf of an account went stale when a
slot was written through a shared storage; the rebuilt trie has the right leaf. -/
theorem rebuilt_root_differs :
    ∃ (ops : List Op) (m : Nat) (n n' : Native) (k : Nat) (a a' : Answer),
      Heap.init.successful Sha256.sha256 ops = true ∧ init.run Sha256.sha256 ops = some n ∧
      n.rebuild Sha256.sha256 m = some (n', k) ∧
      n.reply Sha256.sha256 (.ask m .rootHash) = some (.answer a) ∧
      n'.reply Sha256.sha256 (.ask k .rootHash) = some (.answer a') ∧ a' ≠ a := by
  let ops : List Op := [.new, .put 0 (.ofAddr 1) (.int 0) (.int 5) (.atom .nil) (.atom .nil), .uncompactHandle 0,
    .storagePutMap 1 (.ofList [.tuple [.ofAddr 1, .ofList [.tuple [.ofWord 7, .ofWord 8]]]])]
  have hrun : (Heap.init.successful Sha256.sha256 ops && (init.run Sha256.sha256 ops).any (fun n =>
      (n.rebuild Sha256.sha256 0).any fun x =>
        unlike (n.reply Sha256.sha256 (.ask 0 .rootHash)) (x.1.reply Sha256.sha256 (.ask x.2 .rootHash)))) = true := by
    rw [Sha256.sha256_eq]; decide +kernel
  rw [Bool.and_eq_true] at hrun
  obtain ⟨n, hn, hq⟩ := (Option.any_eq_true ..).1 hrun.2
  obtain ⟨⟨n', k⟩, hr, hne⟩ := (Option.any_eq_true ..).1 hq
  obtain ⟨a, a', ha, ha', hdiff⟩ := answers_of_unlike hne
  exact ⟨ops, 0, n, n', k, a, a', hrun.1, hn, hr, ha, ha', hdiff⟩

end Native
end Diode.L3
