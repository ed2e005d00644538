import Diode.L3State.Native
import Diode.L3State.Lazy

/-!
# Lazy storages of the native library

On the maps of the heap no storage shows whether it is a list of slots or a tree
(`Lazy`). On the pools one does: a tree can be shared with a state that is let go,
and a list cannot.

* `lazy_storage_refines`: the replies are the same exactly when both runs are sound.
* `materialized_reads_destroyed_tree`: one that is not.
-/
namespace Diode.L3
open Diode.Core Diode.L1.Ext

namespace Native

section
variable (sha : Bytes → Word)

/-- The replies to the calls of a sequence of events. -/
def replies (n : Native) : List Event → Option (List Reply)
  | [] => some []
  | .call op :: l => (n.step sha op).bind fun x => (x.1.replies l).map (x.2 :: ·)
  | .materialize m a :: l => (n.play sha (.materializeAt m a)).bind fun n => n.replies l

/-- Every call, and every storage that is given a tree, is sound where it is made. -/
def soundEvents (n : Native) : List Event → Bool
  | [] => true
  | .call op :: l => n.sound sha op && (n.step sha op).all fun x => x.1.soundEvents l
  | .materialize m a :: l => n.fit sha (.materializeAt m a) &&
      (n.play sha (.materializeAt m a)).all fun n => n.soundEvents l

end

variable {sha : Bytes → Word}

/-- A run of events gets the replies of the heap, or is not sound. -/
theorem replies_cases : ∀ (l : List Event) {n : Native}, n.Holds sha →
    (n.soundEvents sha l = true ∧ n.replies sha l = some (n.heap.replies sha l)) ∨
      (n.soundEvents sha l = false ∧ n.replies sha l = none)
  | [], _, _ => .inl ⟨rfl, rfl⟩
  | .call op :: l, n, h => by
    rw [soundEvents, replies]
    have he : n.heap.step sha op = ((n.heap.step sha op).1, (n.heap.step sha op).2) := rfl
    rcases step_cases h he with ⟨hs, P, h1, hP⟩ | ⟨hs, h1⟩
    · rw [hs, h1, Bool.true_and, Option.all_some, Option.bind_some]
      rcases replies_cases l hP with ⟨h2, h3⟩ | ⟨h2, h3⟩
      · exact .inl ⟨h2, by rw [h3]; rfl⟩
      · exact .inr ⟨h2, by rw [h3]; rfl⟩
    · rw [hs, h1]
      exact .inr ⟨rfl, rfl⟩
  | .materialize m a :: l, n, h => by
    rw [soundEvents, replies]
    cases hs : n.fit sha (.materializeAt m a) with
    | true =>
      obtain ⟨P, h1, hP⟩ := play_of_fit h hs
      rw [h1, Bool.true_and, Option.all_some, Option.bind_some]
      rw [Script.run_materializeAt] at hP ⊢
      exact replies_cases l hP
    | false =>
      have h1 : n.play sha (.materializeAt m a) = none := by
        rw [← Option.not_isSome_iff_eq_none, play_isSome_iff h, hs]
        nofun
      rw [h1]
      exact .inr ⟨rfl, rfl⟩

/-- **Lazy storages do not show** in sound runs. Whichever accounts are given a live
storage, and whenever, the same calls come back with the same replies, with the trees
and without them, exactly when both runs are sound. -/
theorem lazy_storage_refines (n : Native) (hn : n.Holds sha) (hk : Heap.Ok sha n.heap) (hz : n.heap.NonZero)
    (l : List Event) (hp : ∀ op ∈ Event.calls l, op.Plain sha) :
    (∃ rs, n.replies sha l = some rs ∧ n.replies sha ((Event.calls l).map .call) = some rs) ↔
      n.soundEvents sha l = true ∧ n.soundEvents sha ((Event.calls l).map .call) = true := by
  have heq := Heap.replies_materialized n.heap hk hz l hp
  rcases replies_cases l hn with ⟨h1, h2⟩ | ⟨h1, h2⟩
  · rcases replies_cases ((Event.calls l).map .call) hn with ⟨h3, h4⟩ | ⟨h3, h4⟩
    · exact ⟨fun _ => ⟨h1, h3⟩, fun _ => ⟨_, h2, by rw [h4, heq]⟩⟩
    · rw [h3, h4]
      exact ⟨(fun ⟨_, _, h⟩ => nomatch h), fun h => nomatch h.2⟩
  · rw [h1, h2]
    exact ⟨(fun ⟨_, h, _⟩ => nomatch h), fun h => nomatch h.1⟩

/-- An account that came with one slot and its root: its slot is read before and
after it got a tree, in the map and in a fork of it. -/
theorem lazy_storage_refines_one :
    let slots : List Pair := [(Word.bytes 7, 8)]
    let p : ParsedCompactAccount :=
      ⟨0, 5, some slots, [], some ((Tree.ofSlots slots).rootHash Sha256.sha256), none⟩
    let read : Nat → Op := fun m => .ask m (.storage (.ofAddr 1) (.tuple [.atom .get, .ofWord 7]))
    ∃ n rs, init.run Sha256.sha256 [.uncompactTerm (.map [(.ofAddr 1, .compactAccount p)])] = some n ∧
      (n.heap.entry 0 1).bind AccountEntry.storage = none ∧
      (n.heap.entry 0 1).bind AccountEntry.compact_storage = some 0 ∧
      n.replies Sha256.sha256 [.call (.clone 0), .call (read 0), .materialize 1 1, .call (read 1),
        .call (.compact 1)] = some rs ∧
      n.replies Sha256.sha256 [.call (.clone 0), .call (read 0), .call (read 1), .call (.compact 1)] = some rs := by
  intro slots p read
  let l : List Event := [.call (.clone 0), .call (read 0), .materialize 1 1, .call (read 1), .call (.compact 1)]
  have hhonest : p.Honest Sha256.sha256 := ⟨fun w hw => (Option.some.inj hw).symm, nofun⟩
  have hsim : Heap.Simulates Sha256.sha256 Heap.init (.uncompactTerm (.map [(.ofAddr 1, .compactAccount p)])) :=
    Heap.step_simulates ok_init (fun _ _ hc => nomatch hc) (Heap.plain_uncompactTerm hhonest (by decide))
  have hrun : (init.run Sha256.sha256 [.uncompactTerm (.map [(.ofAddr 1, .compactAccount p)])]).any (fun n =>
      (n.heap.entry 0 1).bind AccountEntry.storage = none &&
      (n.heap.entry 0 1).bind AccountEntry.compact_storage = some 0 &&
      n.soundEvents Sha256.sha256 l && n.soundEvents Sha256.sha256 ((Event.calls l).map .call)) = true := by
    show (init.run Sha256.sha256 [.uncompactTerm (.map [(.ofAddr 1, .compactAccount ⟨0, 5, some slots, [],
      some ((Tree.ofSlots slots).rootHash Sha256.sha256), none⟩)])]).any _ = true
    rw [Sha256.sha256_eq]; decide +kernel
  obtain ⟨n, hn, hq⟩ := (Option.any_eq_true ..).1 hrun
  rw [Bool.and_eq_true, Bool.and_eq_true, Bool.and_eq_true] at hq
  obtain ⟨hh, hP⟩ := holds_run (holds_init _) hn
  have hops : ∀ op ∈ Event.calls l, op.Plain Sha256.sha256 := by
    intro op ho
    have hops : op ∈ [Op.clone 0, read 0, read 1, .compact 1] := ho
    simp only [List.mem_cons, List.not_mem_nil, or_false] at hops
    rcases hops with rfl | rfl | rfl | rfl <;> trivial
  obtain ⟨rs, h1, h2⟩ := (lazy_storage_refines n hP (hh ▸ hsim.ok) (hh ▸ hsim.nonZero) l hops).2 ⟨hq.1.2, hq.2⟩
  exact ⟨n, rs, hn, of_decide_eq_true hq.1.1.1, of_decide_eq_true hq.1.1.2, h1, h2⟩

/-- Eighteen slots; the hash of key 7 begins with another bit than the rest. -/
def eighteen : List Pair :=
  [1, 2, 3, 4, 5, 6, 7, 9, 10, 11, 12, 14, 16, 17, 18, 19, 24, 25].map fun i => (Word.bytes i, 8)

/-- The account with these slots, and their root, as a compact term. -/
def eighteenTerm (sha : Bytes → Word) : Term :=
  .map [(.ofAddr 1, .compactAccount ⟨0, 5, some eighteen, [], some ((Tree.ofSlots eighteen).rootHash sha), none⟩)]

def putSlotOp (m : Nat) (key value : Word) : Op :=
  .storagePutMap m (.ofList [.tuple [.ofAddr 1, .ofList [.tuple [.ofWord key, .ofWord value]]]])

/-- A fork is written, the original is let go, and another slot is zeroed. -/
def orphaned : List Op := [.clone 0, putSlotOp 1 7 9, .destroy 0, putSlotOp 1 1 0]

/-- **A tree that shows.** The eighteen slots are given a tree before the fork: zeroing
a slot then collapses a node of the tree that is gone, and the calls do not come back.
A list of slots has no such node. -/
theorem materialized_reads_destroyed_tree :
    (eighteen.map Prod.fst).Nodup ∧ (∀ s ∈ eighteen, s.2 ≠ 0) ∧ (∀ op ∈ orphaned, op.Plain Sha256.sha256) ∧
    ∃ n, init.run Sha256.sha256 [.uncompactTerm (eighteenTerm Sha256.sha256)] = some n ∧
      ¬∃ rs, n.replies Sha256.sha256 (.materialize 0 1 :: orphaned.map .call) = some rs ∧
        n.replies Sha256.sha256 (orphaned.map .call) = some rs := by
  have hrun : (init.run Sha256.sha256 [.uncompactTerm (eighteenTerm Sha256.sha256)]).any (fun n =>
      (n.replies Sha256.sha256 (.materialize 0 1 :: orphaned.map .call)).isNone) = true := by
    rw [Sha256.sha256_eq]; decide +kernel
  obtain ⟨n, hn, hq⟩ := (Option.any_eq_true ..).1 hrun
  refine ⟨by decide +kernel, by decide +kernel, fun op ho => ?_, n, hn, fun ⟨rs, hrs, _⟩ => ?_⟩
  · simp only [orphaned, List.mem_cons, List.not_mem_nil, or_false] at ho
    rcases ho with rfl | rfl | rfl | rfl <;> trivial
  · rw [hrs] at hq
    nomatch hq

end Native
end Diode.L3
