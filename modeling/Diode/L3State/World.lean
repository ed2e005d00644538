import Diode.L3State.Handles

/-!
# Account maps without laziness

`World` is what a process can know of the native library: the next handle, what
each handle shows, and which accounts of different maps stand on one storage.
`World.call` is the machine a reader of c_src/nif.cpp has in mind. It knows no
compact storages, no caches and no resources: every storage is a tree.

`Lazy` proves that the heap with all its shortcuts is this machine.
-/
namespace Diode.L3
open Diode.Core Diode.L1.Ext Function

namespace Tree

/-- The items of a storage term; `none` for an empty storage. -/
def items (t : Tree) : Option (List Pair) := if t.pairs.isEmpty then none else some t.pairs

end Tree

section
variable (sha : Bytes → Word)

/-- The compact term of an account, from its storage as a tree. -/
def Account.compact (acc : Account) : Term :=
  .compactAccount ⟨acc.nonce, acc.balance, acc.storage.items, acc.code,
    some (acc.storage.rootHash sha), some (sha acc.code)⟩

def View.compact (v : View) : Term :=
    .map (v.accounts.entries.map fun p => (.ofAddr p.1, p.2.compact sha))

end

/-- The account whose storage a call exchanges or drops; none if it fails. -/
def Op.cut (op : Op) : Option Fault → Option Addr
  | some _ => none
  | none =>
    match op with
    | .put _ addr _ _ storage _ => if storage.isAtom .keep then none else addr.getAddress
    | .delete _ addr => addr.getAddress
    | _ => none

/-- The calls the machine describes: not `uncompact_state` on a handle, which
makes the new map share the live storages of the old one, and on terms only what
`account_map_compact` could have made. -/
def Op.Plain (sha : Bytes → Word) : Op → Prop
  | .uncompactHandle _ => False
  | .uncompactTerm t => ∀ l, Heap.parseCompactState t = some l → (l.map Prod.fst).Nodup ∧
      ∀ p ∈ l, p.2.Honest sha ∧ ∀ s ∈ p.2.slots.getD [], s.2 ≠ 0
  | _ => True

@[ext] structure World where
  next : Nat
  views : Nat → Option View
  /-- two accounts of different maps on one storage -/
  shares : Nat → Addr → Nat → Addr → Prop

namespace World

/-- A new handle. Its storages are its own. -/
def add (w : World) (v : View) : World :=
    { w with next := w.next + 1, views := update w.views w.next (some v) }

def remove (w : World) (m : Nat) : World where
  next := w.next
  views := update w.views m none
  shares k a n b := k ≠ m ∧ n ≠ m ∧ w.shares k a n b

/-- Map `m` shows `v` now; the account `cut` has a storage of its own, or none. -/
def replace (w : World) (m : Nat) (v : View) (cut : Option Addr) : World where
  next := w.next
  views := update w.views m (some v)
  shares k a n b := w.shares k a n b ∧ ¬(k = m ∧ cut = some a) ∧ ¬(n = m ∧ cut = some b)

open Classical in
/-- Map `m` shows `v` now, and what stands on a storage of `m` shows it. -/
noncomputable def write (w : World) (m : Nat) (v : View) : World where
  next := w.next
  views n := if n = m then some v else (w.views n).map fun u =>
    { u with accounts := u.accounts.mapKey fun b acc =>
        if h : ∃ a, w.shares m a n b then { acc with storage := v.storage h.choose } else acc }
  shares := w.shares

/-- What a process gets, and the world after it. A map made from a handle is
independent of it here. -/
noncomputable def call (sha : Bytes → Word) (w : World) (op : Op) : World × Reply :=
  match op with
  | .new => (w.add View.empty, .handle w.next)
  | .clone m => (w.views m).elim (w, .fault .badarg) fun v =>
      (w.add { v with frozen := false }, .handle w.next)
  | .lock m => (w.views m).elim (w, .fault .badarg) fun v =>
      (w.replace m { v with frozen := true } none, .ok)
  | .destroy m => (w.remove m, .ok)
  | .compact m => (w, (w.views m).elim (.fault .badarg) fun v => .term (v.compact sha))
  | .uncompactTerm t => (Heap.parseCompactState t).elim (w, .fault .badarg) fun l =>
      (w.add (View.ofAccounts sha (l.map fun p => (p.1, p.2.account))), .handle w.next)
  | .uncompactHandle m => (w.views m).elim (w, .fault .badarg) fun v =>
      (w.add (View.ofAccounts sha v.accounts.entries), .handle w.next)
  | .put m _ _ _ _ _ | .delete m _ => (w.views m).elim (w, .fault .badarg) fun v =>
      let r := v.run sha (v.writable op.edits)
      (w.replace m r.1 (op.cut r.2), r.2.elim .ok .fault)
  | .storagePutMap m _ | .applyDifference m _ => (w.views m).elim (w, .fault .badarg) fun v =>
      let r := v.run sha (v.writable op.edits)
      (w.write m r.1, r.2.elim .ok .fault)
  | .difference a b => (w, (w.views a).elim (.fault .badarg) fun v => (w.views b).elim
      (.fault .badarg) fun u =>
      .difference (v.differenceFull sha u))
  | .ask m q => (w, .answer ((w.views m).elim .badarg fun v => v.answer sha q))

/-- The replies to a sequence of calls. -/
noncomputable def replies (sha : Bytes → Word) (w : World) : List Op → List Reply
  | [] => []
  | op :: ops => (w.call sha op).2 :: (w.call sha op).1.replies sha ops

end World

namespace Heap

/-- The world of a heap. -/
def world (h : Heap) : World where
  next := h.nextMap
  views := h.view
  shares m a n b := m ≠ n ∧ ∃ mt, h.own (.entry m a) = some mt ∧ h.own (.entry n b) = some mt

end Heap
end Diode.L3
