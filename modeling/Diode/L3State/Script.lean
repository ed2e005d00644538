import Diode.L3State.Lifetime

/-!
# What a call does to the tries

The account map reaches its tries through `merkletree` resources only. A `Script`
is a routine of c_src/nif.cpp together with what it calls on resources on the
way, in the order of the source (`Call`): it allocates, clones, holds, lets go,
writes, fills and hashes them. `Op.script` writes every call of a process this
way, and `script_step` says that it is that call.

* `state_lifetimes`: what the counters promise holds in every run.

Reads of a trie (`get_item`, `each`, `size`, `difference`) are not listed: they
change nothing. The trees that live within one routine are: `temp`.
-/
namespace Diode.L3
open Diode.Core Diode.L1.Ext

/-- Slot by slot. -/
def Tree.fill (t : Tree) (slots : List Pair) : Tree := slots.foldl (fun t s => t.insertItem s.1 s.2) t

/-- What a routine calls on a resource. -/
inductive Call where
  | alloc
  | clone (mt : Nat)
  | keep (mt : Nat)
  | release (mt : Nat)
  | insert (mt : Nat) (key : Bytes) (value : Word)
  | fill (mt : Nat) (slots : List Pair)
  | rootHash (mt : Nat)
  | getProofs (mt : Nat) (key : Bytes)
  /-- a tree of the routine's own: filled, hashed, gone -/
  | temp (slots : List Pair) (hash : Bool)

/-- A hash changes no resource. -/
def Call.acts : Call → List Resources.Act
  | alloc => [.alloc]
  | clone mt => [.clone mt]
  | keep mt => [.keep mt]
  | release mt => [.release mt]
  | insert mt key value => [.insert mt key value]
  | fill mt slots => [.fill mt fun t => t.fill slots]
  | rootHash _ => []
  | getProofs _ _ => []
  | temp _ _ => []

/-- A call that clones nothing, lets nothing go and makes nothing writeable. -/
def Call.Tame : Call → Prop
  | clone _ | release _ | insert _ _ _ => False
  | _ => True

namespace Resources

def call (r : Resources) (c : Call) : Resources := r.acts c.acts

def calls (r : Resources) (l : List Call) : Resources := l.foldl call r

variable {r : Resources} {mt st : Nat} {l k : List Call}

theorem calls_append (r : Resources) (l k : List Call) : r.calls (l ++ k) = (r.calls l).calls k :=
  List.foldl_append

theorem calls_eq : ∀ (l : List Call) (r : Resources), r.calls l = r.acts (l.flatMap Call.acts)
  | [], _ => rfl
  | c :: l, r => by
    show (r.call c).calls l = _
    rw [calls_eq l, List.flatMap_cons, call, acts, acts, acts, List.foldl_append]

theorem Counted.call (h : Counted r) (c : Call) : Counted (r.call c) := by
  cases c with
  | rootHash | getProofs | temp => exact h
  | alloc => exact h.act .alloc
  | clone mt => exact h.act (.clone mt)
  | keep mt => exact h.act (.keep mt)
  | release mt => exact h.act (.release mt)
  | insert mt key value => exact h.act (.insert mt key value)
  | fill mt slots => exact h.act (.fill mt fun t => t.fill slots)

/-- Only private states are filled. -/
def Allowed (r : Resources) (l : List Call) : Prop := r.Guarded (l.flatMap Call.acts)

theorem Allowed.append (hl : r.Allowed l) (hk : (r.calls l).Allowed k) : r.Allowed (l ++ k) := by
  unfold Allowed
  rw [List.flatMap_append]
  refine guarded_append hl ?_
  rw [← calls_eq]
  exact hk

/-- A call that is no fill. -/
theorem allowed_one {c : Call} (hc : ∀ mt slots, c ≠ .fill mt slots) : r.Allowed [c] := by
  cases c with
  | fill mt slots => exact absurd rfl (hc mt slots)
  | rootHash | getProofs | temp => exact trivial
  | _ => exact ⟨nofun, trivial⟩

theorem allowed_fill (h : r.Private mt) (slots : List Pair) : r.Allowed [.fill mt slots] :=
  ⟨fun mt' f e => by cases e; exact h, trivial⟩

/-- A fresh resource can be filled. -/
theorem private_alloc (r : Resources) : r.alloc.2.Private r.alloc.1 := by
  intro x s hx hs
  obtain rfl := Option.some.inj (hx.symm.trans (Function.update_self ..))
  obtain rfl := Option.some.inj (hs.symm.trans (Function.update_self ..))
  rfl

/-- A fresh resource that is filled holds the slots. -/
theorem calls_fresh (r : Resources) (slots : List Pair) :
    r.calls [.alloc, .fill r.nextMt slots] = r.alloc.2.modifyTree r.alloc.1 fun _ => Tree.ofSlots slots := by
  show r.alloc.2.modifyTree r.nextMt (fun t => t.fill slots) = _
  unfold modifyTree Resources.alloc
  simp only [Function.update_self]
  rfl

/-! ### Resources nobody has cloned -/

/-- Nobody has cloned the resource. -/
def Bare (r : Resources) (st : Nat) : Prop :=
  ∃ x s, r.mts st = some x ∧ r.states x.shared_state = some s ∧ s.has_clone = 0 ∧ st < r.nextMt ∧
    x.shared_state < r.nextState

namespace Bare

theorem of_alloc (r : Resources) : Bare r.alloc.2 r.nextMt :=
  ⟨_, _, Function.update_self .., Function.update_self .., rfl, Nat.lt_succ_self _, Nat.lt_succ_self _⟩

theorem isPrivate (hb : Bare r st) : r.Private st := by
  obtain ⟨x, s, hx, hs, hz, _⟩ := hb
  intro y u hy hu
  obtain rfl := Option.some.inj (hx.symm.trans hy)
  obtain rfl := Option.some.inj (hs.symm.trans hu)
  exact hz

theorem alloc (hb : Bare r st) : Bare r.alloc.2 st := by
  obtain ⟨x, s, hx, hs, hz, hm, hi⟩ := hb
  refine ⟨x, s, ?_, ?_, hz, Nat.lt_succ_of_lt hm, Nat.lt_succ_of_lt hi⟩
  · show Function.update r.mts r.nextMt _ st = some x
    rw [Function.update_of_ne (by omega), hx]
  · show Function.update r.states r.nextState _ x.shared_state = some s
    rw [Function.update_of_ne (by omega), hs]

theorem keep (hb : Bare r st) (mt : Nat) : Bare (r.keep mt) st := by
  obtain ⟨x, s, hx, hs, hz, hm, hi⟩ := hb
  unfold Resources.keep
  cases hy : r.mts mt with
  | none => exact ⟨x, s, hx, hs, hz, hm, hi⟩
  | some y =>
    by_cases e : st = mt
    · subst e
      obtain rfl := Option.some.inj (hx.symm.trans hy)
      exact ⟨_, s, Function.update_self .., hs, hz, hm, hi⟩
    · exact ⟨x, s, by dsimp only; rw [Function.update_of_ne e, hx], hs, hz, hm, hi⟩

theorem modifyTree (hb : Bare r st) (mt : Nat) (f : Tree → Tree) : Bare (r.modifyTree mt f) st := by
  obtain ⟨x, s, hx, hs, hz, hm, hi⟩ := hb
  unfold Resources.modifyTree
  cases hy : r.mts mt with
  | none => exact ⟨x, s, hx, hs, hz, hm, hi⟩
  | some y =>
    dsimp only
    cases hu : r.states y.shared_state with
    | none => exact ⟨x, s, hx, hs, hz, hm, hi⟩
    | some u =>
      by_cases e : x.shared_state = y.shared_state
      · rw [← e] at hu ⊢
        obtain rfl := Option.some.inj (hs.symm.trans hu)
        exact ⟨x, _, hx, Function.update_self .., hz, hm, hi⟩
      · exact ⟨x, s, hx, by dsimp only; rw [Function.update_of_ne e, hs], hz, hm, hi⟩

theorem call (hb : Bare r st) {c : Call} (hc : c.Tame) : Bare (r.call c) st := by
  cases c with
  | alloc => exact hb.alloc
  | keep mt => exact hb.keep mt
  | fill mt slots => exact hb.modifyTree mt fun t => t.fill slots
  | rootHash | getProofs | temp => exact hb
  | clone | release | insert => exact hc.elim

theorem calls : ∀ {l : List Call} {r : Resources}, Bare r st → (∀ c ∈ l, c.Tame) → Bare (r.calls l) st
  | [], _, hb, _ => hb
  | _ :: _, _, hb, hl => (hb.call (hl _ List.mem_cons_self)).calls fun c hc => hl c (List.mem_cons_of_mem _ hc)

end Bare

end Resources

namespace Heap
open Resources

/-- The resources of `h'` come from those of `h` by the calls `l`. -/
structure Traced (h h' : Heap) (l : List Call) : Prop where
  res : h'.res = h.res.calls l
  allowed : h.res.Allowed l

namespace Traced
variable {h h' h'' : Heap} {l k : List Call}

theorem of_res (hr : h'.res = h.res) : Traced h h' [] := ⟨hr, trivial⟩

theorem refl (h : Heap) : Traced h h [] := of_res rfl

theorem trans (h₁ : Traced h h' l) (h₂ : Traced h' h'' k) : Traced h h'' (l ++ k) where
  res := by rw [h₂.res, h₁.res, calls_append]
  allowed := h₁.allowed.append (by rw [← h₁.res]; exact h₂.allowed)

theorem then_res (h₁ : Traced h h' l) (hr : h''.res = h'.res) : Traced h h'' l := ⟨hr.trans h₁.res, h₁.allowed⟩

end Traced

end Heap

/-- The slots of a storage payload. -/
def Term.storageSlots : Term → Option (List Pair)
  | atom .nil => some []
  | nil => some []
  | cons head tail => (cons head tail).cells.mapM slot32?
  | _ => none

/-! ## Scripts -/

/-- A routine with the calls of its run on each heap. -/
structure Script where
  run : Run
  calls : Heap → List Call
  traced : ∀ h, Heap.Traced h (run h).1 (calls h)

namespace Script
open Heap Resources

/-- A routine that leaves the resources alone. -/
def quiet (f : Run) (hf : ∀ h, (f h).1.res = h.res) : Script := ⟨f, fun _ => [], fun h => .of_res (hf h)⟩

def skip : Script := quiet Run.skip fun _ => rfl

def fail (f : Fault) : Script := quiet (Run.fail f) fun _ => rfl

/-- An assignment to a table. -/
def setEntry (m : Nat) (a : Addr) (e : AccountEntry) : Script :=
  quiet (fun h => (h.setEntry m a e, none)) fun h => by
    show (h.setEntry m a e).res = h.res
    unfold Heap.setEntry
    split <;> rfl

/-- A script that depends on the heap. -/
def look (f : Heap → Script) : Script := ⟨fun h => (f h).run h, fun h => (f h).calls h, fun h => (f h).traced h⟩

def one (c : Call) (hc : ∀ mt slots, c ≠ .fill mt slots) : Script where
  run h := ({ h with res := h.res.call c }, none)
  calls _ := [c]
  traced _ := ⟨rfl, allowed_one hc⟩

/-- A resource of its own with these slots. -/
def fresh (slots : List Pair) : Script where
  run h := ({ h with res := h.res.alloc.2.modifyTree h.res.alloc.1 fun _ => Tree.ofSlots slots }, none)
  calls h := [.alloc, .fill h.res.nextMt slots]
  traced h := ⟨(calls_fresh h.res slots).symm, @Allowed.append h.res [.alloc] [.fill h.res.nextMt slots]
    (allowed_one nofun) (allowed_fill (private_alloc h.res) slots)⟩

/-- The calls of the second script follow if the first one does not fail. -/
def seq (s t : Script) : Script where
  run := s.run.seq t.run
  calls h := s.calls h ++ if (s.run h).2.isNone then t.calls (s.run h).1 else []
  traced h := by
    have h₁ := s.traced h
    unfold Run.seq
    generalize s.run h = r at h₁ ⊢
    obtain ⟨q, e⟩ := r
    cases e with
    | none => exact h₁.trans (t.traced q)
    | some e =>
      show Heap.Traced h q (s.calls h ++ [])
      rw [List.append_nil]
      exact h₁

def forEach {α : Type} (l : List α) (f : α → Script) : Script :=
  match l with
  | [] => skip
  | x :: l => (f x).seq (forEach l f)

def whenSome {α : Type} (x : Option α) (f : α → Script) : Script :=
  match x with
  | none => skip
  | some x => f x

theorem run_forEach {α : Type} {f : α → Script} : ∀ l : List α, (forEach l f).run = Run.forEach l fun x => (f x).run
  | [] => rfl
  | x :: l => congrArg (Run.seq (f x).run) (run_forEach l)

theorem run_whenSome {α : Type} {f : α → Script} (x : Option α) : (whenSome x f).run = Run.whenSome x fun x => (f x).run := by
  cases x <;> rfl

theorem run_seq (s t : Script) : (s.seq t).run = s.run.seq t.run := rfl

/-! ### Storages -/

variable (sha : Bytes → Word) (m : Nat) (a : Addr)

/-- mirrors c_src/nif.cpp:391-398 -/
def releaseEntryStorage (e : AccountEntry) : Script := whenSome e.storage fun mt => one (.release mt) nofun

/-- `materialize_storage`, and what is done with the entry.
mirrors c_src/nif.cpp:1219-1243 -/
def materializeStorage (e : AccountEntry) (k : AccountEntry → Script) : Script := look fun h =>
  match e.storage with
  | some _ => k e
  | none => (fresh (h.slots e)).seq (k { e with storage := some h.res.nextMt, compact_storage := none })

def materializeAt : Script := look fun h => whenSome (h.entry m a) fun e => materializeStorage e (setEntry m a)

/-- A compact storage without a root gets a tree for it.
mirrors c_src/nif.cpp:1245-1277 -/
def storageRootHashForEntry (e : AccountEntry) : Script where
  run h := ((h.storageRootHashForEntry sha e).1, none)
  calls h :=
    match e.storage with
    | some mt => [.rootHash mt]
    | none =>
      match e.compact_storage.bind h.compacts with
      | some cs => if cs.slots.isEmpty || cs.root_hash.isSome then [] else [.temp cs.slots true]
      | none => []
  traced h := by
    have hr : (h.storageRootHashForEntry sha e).1.res = h.res := by
      unfold Heap.storageRootHashForEntry
      repeat' split
      all_goals rfl
    cases e.storage with
    | some mt => exact ⟨hr, allowed_one nofun⟩
    | none =>
      dsimp only
      repeat' split
      · exact .of_res hr
      · exact ⟨hr, allowed_one nofun⟩
      · exact .of_res hr

/-- mirrors c_src/nif.cpp:946-955 -/
def insertStateTrieHash (hash : Word) : Script :=
  look fun h => whenSome (h.maps m) fun s => one (.insert s.state_trie (Addr.bytes a) hash) nofun

/-- mirrors c_src/nif.cpp:957-977 -/
def updateStateTrieForEntry : Script :=
  (look fun h => whenSome (h.entry m a) fun e => if e.compact_storage.isSome then skip else materializeAt m a).seq <|
  look fun h => whenSome (h.entry m a) fun e =>
    (storageRootHashForEntry sha e).seq
      (insertStateTrieHash m a (accountHash sha e.nonce e.balance (h.storageRootHashForEntry sha e).2 (sha e.code)))

/-- mirrors c_src/nif.cpp:1627-1639 -/
def ensureAccountEntry : Script := look fun h =>
  match h.entry m a with
  | some _ => skip
  | none => (one .alloc nofun).seq (setEntry m a ⟨0, 0, some h.res.nextMt, none, []⟩)

/-- mirrors c_src/nif.cpp:1609-1620 -/
def writeStorageSlot (key : Bytes) (value : Word) : Script :=
  (materializeAt m a).seq <|
  look fun h => whenSome ((h.entry m a).bind AccountEntry.storage) fun mt => one (.insert mt key value) nofun

section
variable {m a}

theorem run_look (f : Heap → Script) (h : Heap) : (look f).run h = (f h).run h := rfl

theorem run_releaseEntryStorage (e : AccountEntry) (h : Heap) :
    (releaseEntryStorage e).run h = (h.releaseEntryStorage e, none) := by
  unfold releaseEntryStorage Heap.releaseEntryStorage
  cases e.storage <;> rfl

theorem run_materializeStorage (e : AccountEntry) (k : AccountEntry → Script) (h : Heap) :
    (materializeStorage e k).run h = (k (h.materializeStorage e).2).run (h.materializeStorage e).1 := by
  unfold materializeStorage Heap.materializeStorage look
  cases e.storage <;> rfl

theorem run_materializeAt (h : Heap) : (materializeAt m a).run h = (h.materializeAt m a, none) := by
  rw [materializeAt, run_look, Heap.materializeAt]
  cases h.entry m a with
  | none => rfl
  | some e => exact run_materializeStorage e _ h

theorem run_insertStateTrieHash (hash : Word) (h : Heap) :
    (insertStateTrieHash m a hash).run h = (h.insertStateTrieHash m a hash, none) := by
  rw [insertStateTrieHash, run_look, Heap.insertStateTrieHash]
  cases h.maps m <;> rfl

theorem seq_run {s t : Script} {h q : Heap} (hs : s.run h = (q, none)) : (s.seq t).run h = t.run q := by
  show Run.seq s.run t.run h = _
  unfold Run.seq
  rw [hs]

theorem run_updateStateTrieForEntry (h : Heap) :
    (updateStateTrieForEntry sha m a).run h = (h.updateStateTrieForEntry sha m a, none) := by
  have hlast : ∀ q : Heap, (look fun h => whenSome (h.entry m a) fun e =>
      (storageRootHashForEntry sha e).seq (insertStateTrieHash m a
        (accountHash sha e.nonce e.balance (h.storageRootHashForEntry sha e).2 (sha e.code)))).run q =
      ((q.entry m a).elim q fun e => (q.storageRootHashForEntry sha e).1.insertStateTrieHash m a
        (accountHash sha e.nonce e.balance (q.storageRootHashForEntry sha e).2 (sha e.code)), none) := by
    intro q
    rw [run_look]
    cases q.entry m a with
    | none => rfl
    | some e => exact (seq_run rfl).trans (run_insertStateTrieHash ..)
  have hfirst : (look fun h => whenSome (h.entry m a) fun e =>
      if e.compact_storage.isSome then skip else materializeAt m a).run h =
      ((h.entry m a).elim h fun e => if e.compact_storage.isSome then h else h.materializeAt m a, none) := by
    rw [run_look]
    cases h.entry m a with
    | none => rfl
    | some e =>
      show (if e.compact_storage.isSome then skip else materializeAt m a).run h =
        (if e.compact_storage.isSome then h else h.materializeAt m a, none)
      split
      · rfl
      · exact run_materializeAt h
  refine ((seq_run hfirst).trans (hlast _)).trans ?_
  unfold Heap.updateStateTrieForEntry
  cases h.entry m a with
  | none =>
    dsimp only [Option.elim_none]
    cases h.entry m a <;> rfl
  | some e =>
    dsimp only [Option.elim_some]
    generalize (if e.compact_storage.isSome then h else h.materializeAt m a) = q
    cases q.entry m a <;> rfl

theorem run_ensureAccountEntry (h : Heap) :
    (ensureAccountEntry m a).run h = (h.ensureAccountEntry m a, none) := by
  rw [ensureAccountEntry, run_look, Heap.ensureAccountEntry]
  cases h.entry m a <;> rfl

theorem run_writeStorageSlot (key : Bytes) (value : Word) (h : Heap) :
    (writeStorageSlot m a key value).run h = (h.writeStorageSlot m a key value, none) := by
  refine (seq_run (run_materializeAt h)).trans ?_
  rw [run_look, Heap.writeStorageSlot]
  cases ((h.materializeAt m a).entry m a).bind AccountEntry.storage <;> rfl

end

/-! ### Bulk updates -/

/-- mirrors c_src/nif.cpp:1641-1684 -/
def applyFieldDelta (field : Field) (delta : Term) : Script :=
  quiet (Diode.L3.applyFieldDelta m a field delta) fun h => by
    have hset : ∀ e, (h.setEntry m a e).res = h.res := fun e => (setEntry m a e).traced h |>.res
    unfold Diode.L3.applyFieldDelta
    repeat' split
    all_goals first | rfl | exact hset _

/-- mirrors c_src/nif.cpp:1697-1726 -/
def applySlotDelta (slot : Term × Term) : Script :=
  match slot.1.bin?, slot.2.pair? with
  | some key, some (old, new) =>
    (materializeAt m a).seq <| look fun h =>
      if old.getStorageValue = some (h.readStorageSlot m a key) then
        match new.getStorageValue with
        | some v => writeStorageSlot m a key v
        | none => fail .mismatch
      else fail .mismatch
  | _, _ => fail .mismatch

/-- mirrors c_src/nif.cpp:1686-1731 -/
def applyStorageDelta (stateMap : Term) : Script :=
  match stateMap.entries? with
  | none => fail .mismatch
  | some l => forEach l (applySlotDelta m a)

/-- mirrors c_src/nif.cpp:635-638 -/
def makeWriteableAccountmap (s : Script) : Script := look fun h =>
  match h.maps m with
  | none => fail .badarg
  | some x => if x.frozen then fail .badarg else s

/-- mirrors c_src/nif.cpp:1749-1785 -/
def applyDifferenceItem (head : Term) : Script :=
  match head.pair? with
  | none => fail .badarg
  | some (addr, report) =>
    match addr.getAddress, report.entries? with
    | some a, some _ =>
      (ensureAccountEntry m a).seq <|
      (whenSome (report.mapGetAtom .state) (applyStorageDelta m a)).seq <|
      (forEach [Field.nonce, Field.balance, Field.code] fun f =>
        whenSome (report.mapGetAtom f.atom) (applyFieldDelta m a f)).seq <|
      updateStateTrieForEntry sha m a
    | _, _ => fail .badarg

/-- mirrors c_src/nif.cpp:1733-1789 -/
def applyDifference (delta : Term) : Script :=
  if delta.isList then makeWriteableAccountmap m (forEach delta.cells (applyDifferenceItem sha m))
  else fail .badarg

/-- mirrors c_src/nif.cpp:1826-1846 -/
def storagePutSlot (kv : Term) : Script :=
  match kv.slot32? with
  | none => fail .badarg
  | some (key, value) => writeStorageSlot m a key value

/-- mirrors c_src/nif.cpp:1808-1850 -/
def storagePutItem (head : Term) : Script :=
  match head.pair? with
  | none => fail .badarg
  | some (addr, kvs) =>
    match addr.getAddress with
    | none => fail .badarg
    | some a =>
      if kvs.isList then
        (ensureAccountEntry m a).seq <| (forEach kvs.cells (storagePutSlot m a)).seq <|
        updateStateTrieForEntry sha m a
      else fail .badarg

/-- mirrors c_src/nif.cpp:1791-1853 -/
def storagePutMap (updates : Term) : Script :=
  if updates.isList then makeWriteableAccountmap m (forEach updates.cells (storagePutItem sha m))
  else fail .badarg

section
variable {sha m a}

theorem run_applySlotDelta (slot : Term × Term) :
    (applySlotDelta m a slot).run = Diode.L3.applySlotDelta m a slot := by
  funext h
  unfold applySlotDelta Diode.L3.applySlotDelta
  cases slot.1.bin? with
  | none => rfl
  | some key =>
    cases slot.2.pair? with
    | none => rfl
    | some p =>
      refine (seq_run (run_materializeAt h)).trans ?_
      rw [run_look]
      dsimp only
      split
      · cases p.2.getStorageValue with
        | none => rfl
        | some v => exact run_writeStorageSlot ..
      · rfl

theorem run_applyStorageDelta (stateMap : Term) :
    (applyStorageDelta m a stateMap).run = Diode.L3.applyStorageDelta m a stateMap := by
  unfold applyStorageDelta Diode.L3.applyStorageDelta
  cases stateMap.entries? with
  | none => rfl
  | some l => exact (run_forEach l).trans (congrArg (Run.forEach l) (funext run_applySlotDelta))

theorem run_makeWriteableAccountmap (s : Script) :
    (makeWriteableAccountmap m s).run = Diode.L3.makeWriteableAccountmap m s.run := by
  funext h
  rw [makeWriteableAccountmap, run_look, Diode.L3.makeWriteableAccountmap]
  cases h.maps m with
  | none => rfl
  | some x =>
    dsimp only
    split <;> rfl

theorem run_applyDifferenceItem (head : Term) :
    (applyDifferenceItem sha m head).run = Diode.L3.applyDifferenceItem sha m head := by
  unfold applyDifferenceItem Diode.L3.applyDifferenceItem
  cases head.pair? with
  | none => rfl
  | some p =>
    dsimp only
    cases p.1.getAddress with
    | none => rfl
    | some a =>
      cases p.2.entries? with
      | none => rfl
      | some l =>
        have hensure : (ensureAccountEntry m a).run = fun h => (h.ensureAccountEntry m a, none) :=
          funext run_ensureAccountEntry
        have hseal : (updateStateTrieForEntry sha m a).run = fun h => (h.updateStateTrieForEntry sha m a, none) :=
          funext (run_updateStateTrieForEntry sha)
        simp only [run_seq, hensure, hseal, run_whenSome, run_applyStorageDelta, run_forEach]
        rfl

theorem run_applyDifference (delta : Term) :
    (applyDifference sha m delta).run = Diode.L3.applyDifference sha m delta := by
  unfold applyDifference Diode.L3.applyDifference
  split
  · rw [run_makeWriteableAccountmap, run_forEach, funext run_applyDifferenceItem]
  · rfl

theorem run_storagePutSlot (kv : Term) : (storagePutSlot m a kv).run = Diode.L3.storagePutSlot m a kv := by
  funext h
  unfold storagePutSlot Diode.L3.storagePutSlot
  cases kv.slot32? with
  | none => rfl
  | some p => exact run_writeStorageSlot ..

theorem run_storagePutItem (head : Term) :
    (storagePutItem sha m head).run = Diode.L3.storagePutItem sha m head := by
  unfold storagePutItem Diode.L3.storagePutItem
  cases head.pair? with
  | none => rfl
  | some p =>
    dsimp only
    cases p.1.getAddress with
    | none => rfl
    | some a =>
      dsimp only
      split
      · rw [run_seq, run_seq, run_forEach, funext run_ensureAccountEntry, funext (run_updateStateTrieForEntry sha),
          funext run_storagePutSlot]
      · rfl

theorem run_storagePutMap (updates : Term) :
    (storagePutMap sha m updates).run = Diode.L3.storagePutMap sha m updates := by
  unfold storagePutMap Diode.L3.storagePutMap
  split
  · rw [run_makeWriteableAccountmap, run_forEach, funext run_storagePutItem]
  · rfl

end

/-! ### Single accounts -/

/-- mirrors c_src/nif.cpp:1107-1116 -/
def putKeep (nonce : BitVec 64) (balance : Word) (code : Bytes) : Script :=
  (ensureAccountEntry m a).seq <| look fun h => whenSome (h.entry m a) fun e =>
    (setEntry m a { e with nonce, balance, code }).seq (updateStateTrieForEntry sha m a)

/-- mirrors c_src/nif.cpp:1118-1141 -/
def putStorage (nonce : BitVec 64) (balance : Word) (slots : List Pair) (code : Bytes) : Script :=
  (look fun h => whenSome (h.entry m a) releaseEntryStorage).seq <|
  look fun h => (fresh slots).seq <|
    (setEntry m a ⟨nonce, balance, some h.res.nextMt, none, code⟩).seq (updateStateTrieForEntry sha m a)

/-- mirrors c_src/nif.cpp:1067-1142 -/
def accountMapPut (addr nonce balance storage code : Term) : Script :=
  match addr.getAddress, nonce.getUint64, balance.getBalance, code.getCode with
  | some a, some nonce, some balance, some code =>
    if storage.isAtom .keep then makeWriteableAccountmap m (putKeep sha m a nonce balance code)
    else
      match storage.storageSlots with
      | none => fail .badarg
      | some slots => makeWriteableAccountmap m (putStorage sha m a nonce balance slots code)
  | _, _, _, _ => fail .badarg

/-- mirrors c_src/nif.cpp:1144-1165 -/
def accountMapDelete (addr : Term) : Script :=
  match addr.getAddress with
  | none => fail .badarg
  | some a => makeWriteableAccountmap m <| look fun h =>
    match h.maps m, h.entry m a with
    | some s, some e =>
      (releaseEntryStorage e).seq <|
      (quiet (fun q => (q.setMap m { s with accounts := s.accounts.del a }, none)) fun _ => rfl).seq <|
      insertStateTrieHash m a 0
    | _, _ => skip

section
variable {sha m a}

theorem run_putKeep (nonce : BitVec 64) (balance : Word) (code : Bytes) :
    (putKeep sha m a nonce balance code).run = Diode.L3.putKeep sha m a nonce balance code := by
  funext h
  refine (seq_run (run_ensureAccountEntry h)).trans ?_
  rw [run_look, Diode.L3.putKeep]
  cases (h.ensureAccountEntry m a).entry m a with
  | none => rfl
  | some e => exact (seq_run rfl).trans (run_updateStateTrieForEntry sha _)

theorem run_putStorage (nonce : BitVec 64) (balance : Word) (slots : List Pair) (code : Bytes) :
    (putStorage sha m a nonce balance slots code).run =
      Diode.L3.putStorage sha m a nonce balance (Tree.ofSlots slots) code := by
  funext h
  have hfirst : (look fun h => whenSome (h.entry m a) releaseEntryStorage).run h =
      ((h.entry m a).elim h h.releaseEntryStorage, none) := by
    rw [run_look]
    cases h.entry m a with
    | none => rfl
    | some e => exact run_releaseEntryStorage e h
  refine (seq_run hfirst).trans ?_
  rw [run_look]
  exact (seq_run rfl).trans ((seq_run rfl).trans (run_updateStateTrieForEntry sha _))

theorem storagePayload_eq (t : Term) : t.storagePayload = t.storageSlots.map Tree.ofSlots := by
  cases t with
  | atom a => cases a <;> rfl
  | _ => rfl

theorem run_accountMapPut (addr nonce balance storage code : Term) :
    (accountMapPut sha m addr nonce balance storage code).run =
      Diode.L3.accountMapPut sha m addr nonce balance storage code := by
  unfold accountMapPut Diode.L3.accountMapPut
  cases addr.getAddress with
  | none => rfl
  | some a =>
    cases nonce.getUint64 with
    | none => rfl
    | some nonce =>
      cases balance.getBalance with
      | none => rfl
      | some balance =>
        cases code.getCode with
        | none => rfl
        | some code =>
          dsimp only
          split
          · rw [run_makeWriteableAccountmap, run_putKeep]
          · rw [storagePayload_eq]
            cases storage.storageSlots with
            | none => rfl
            | some slots =>
              dsimp only [Option.map_some]
              rw [run_makeWriteableAccountmap, run_putStorage]

theorem run_accountMapDelete (addr : Term) :
    (accountMapDelete m addr).run = Diode.L3.accountMapDelete m addr := by
  unfold accountMapDelete Diode.L3.accountMapDelete
  cases addr.getAddress with
  | none => rfl
  | some a =>
    refine (run_makeWriteableAccountmap _).trans (congrArg _ (funext fun h => ?_))
    rw [run_look]
    cases h.maps m with
    | none => rfl
    | some s =>
      cases h.entry m a with
      | none => rfl
      | some e => exact (seq_run (run_releaseEntryStorage e h)).trans ((seq_run rfl).trans (run_insertStateTrieHash ..))

end

/-! ### Maps made from maps -/

section
variable (n : Nat)

/-- A new handle. -/
def addMap (s : SharedAccountMap) : Script :=
  quiet (fun h => ({ h.setMap h.nextMap s with nextMap := h.nextMap + 1 }, none)) fun _ => rfl

/-- mirrors c_src/nif.cpp:836-845 -/
def accountMapNew : Script :=
  look fun h => (one .alloc nofun).seq (addMap ⟨false, h.res.nextMt, SMap.empty⟩)

/-- The loop of `fork_shared_accountmap`.
mirrors c_src/nif.cpp:428-446 -/
def forkEntries : List (Addr × AccountEntry) → List (Nat × Nat) → Script
  | [], _ => skip
  | p :: l, clones =>
    match p.2.compact_storage, p.2.storage with
    | none, some orig =>
      match clones.lookup orig with
      | some c => (one (.keep c) nofun).seq <| (setEntry n p.1 { p.2 with storage := some c }).seq <|
        forkEntries l clones
      | none => look fun h => (one (.clone orig) nofun).seq <|
        (setEntry n p.1 { p.2 with storage := some (h.res.clone orig).1 }).seq <|
        forkEntries l ((orig, (h.res.clone orig).1) :: clones)
    | _, _ => (setEntry n p.1 p.2).seq (forkEntries l clones)

/-- mirrors c_src/nif.cpp:412-451 -/
def forkSharedAccountmap (src : SharedAccountMap) : Script := look fun h =>
  (one (.clone src.state_trie) nofun).seq <|
  (addMap ⟨false, (h.res.clone src.state_trie).1, SMap.empty⟩).seq <|
  forkEntries h.nextMap src.accounts.entries []

/-- mirrors c_src/nif.cpp:303-312, 2520-2528 -/
def destructAccountmap : Script := look fun h => whenSome (h.maps m) fun s =>
  (forEach s.accounts.entries fun p => releaseEntryStorage p.2).seq <|
  (one (.release s.state_trie) nofun).seq <|
  quiet (fun q => ({ q with maps := Function.update q.maps m none }, none)) fun _ => rfl

/-- mirrors c_src/nif.cpp:2261-2282 -/
def appendUncompactedAccount (e : AccountEntry) (rootOverride codeHashOverride : Option Word) : Script where
  run h := ((Heap.appendUncompactedAccount sha n (h, []) a e rootOverride codeHashOverride).1, none)
  calls h :=
    match e.storage with
    | none =>
      if rootOverride.isNone then [.alloc, .fill h.res.nextMt (h.slots e), .rootHash h.res.nextMt] else []
    | some mt => (if e.compact_storage.isNone then [.keep mt] else []) ++
        if rootOverride.isNone then [.rootHash mt] else []
  traced h := by
    have hset : ∀ (q : Heap) (x : AccountEntry), (q.setEntry n a x).res = q.res := fun q x =>
      ((setEntry n a x).traced q).res
    unfold Heap.appendUncompactedAccount
    cases he : e.storage with
    | none =>
      dsimp only
      split
      · have ht := (fresh (h.slots e)).traced h
        unfold Heap.materializeStorage
        rw [he]
        exact ht.trans ⟨hset .., allowed_one nofun⟩
      · exact .of_res (hset ..)
    | some mt =>
      have hhash : ∀ q : Heap, Heap.Traced q q (if rootOverride.isNone then [.rootHash mt] else []) := by
        intro q
        split
        · exact ⟨rfl, allowed_one nofun⟩
        · exact .refl q
      dsimp only
      split
      · have hkeep : Heap.Traced h { h with res := h.res.keep mt } [.keep mt] := ⟨rfl, allowed_one nofun⟩
        exact (hkeep.trans (hhash _)).then_res (hset ..)
      · exact (hhash h).then_res (hset ..)

end

section
variable {sha m a} {n : Nat} {h q : Heap}

theorem run_forEach_heap {α : Type} {f : α → Script} {g : Heap → α → Heap} (hf : ∀ x h, (f x).run h = (g h x, none)) :
    ∀ (l : List α) (h : Heap), (forEach l f).run h = (l.foldl g h, none)
  | [], _ => rfl
  | x :: l, h => (seq_run (hf x h)).trans (run_forEach_heap hf l _)

theorem run_forkEntries : ∀ (l : List (Addr × AccountEntry)) (clones : List (Nat × Nat)) (h : Heap),
    (forkEntries n l clones).run h = ((l.foldl (forkEntry n) (h, clones)).1, none)
  | [], _, _ => rfl
  | p :: l, clones, h => by
    rw [forkEntries, List.foldl_cons, forkEntry]
    cases p.2.compact_storage with
    | some c => exact (seq_run rfl).trans (run_forkEntries l _ _)
    | none =>
      cases p.2.storage with
      | none => exact (seq_run rfl).trans (run_forkEntries l _ _)
      | some orig =>
        dsimp only
        cases clones.lookup orig with
        | some c => exact (seq_run rfl).trans ((seq_run rfl).trans (run_forkEntries l _ _))
        | none =>
          rw [run_look]
          exact (seq_run rfl).trans ((seq_run rfl).trans (run_forkEntries l _ _))

theorem run_forkSharedAccountmap (src : SharedAccountMap) (h : Heap) :
    (forkSharedAccountmap src).run h = ((h.forkSharedAccountmap src).2, none) := by
  rw [forkSharedAccountmap, run_look]
  exact (seq_run rfl).trans ((seq_run rfl).trans (run_forkEntries ..))

theorem run_destructAccountmap (h : Heap) : (destructAccountmap m).run h = (h.destructAccountmap m, none) := by
  rw [destructAccountmap, run_look, Heap.destructAccountmap]
  cases h.maps m with
  | none => rfl
  | some s => exact (seq_run (run_forEach_heap (fun p h => run_releaseEntryStorage p.2 h) _ h)).trans rfl

end

/-! A map that is uncompacted gets its leaves at the end, in place. Nobody has
cloned its trie by then. -/

/-- The script leaves the trie of `n` and the resource behind it alone. -/
structure Builds (n : Nat) (s : Script) : Prop where
  tame : ∀ h, ∀ c ∈ s.calls h, c.Tame
  trie : ∀ h, ((s.run h).1.maps n).map SharedAccountMap.state_trie = (h.maps n).map SharedAccountMap.state_trie

namespace Builds
variable {n : Nat} {s t : Script}

theorem look {f : Heap → Script} (hf : ∀ h, Builds n (f h)) : Builds n (look f) :=
  ⟨fun h => (hf h).tame h, fun h => (hf h).trie h⟩

theorem seq (hs : Builds n s) (ht : Builds n t) : Builds n (s.seq t) where
  tame h c hc := by
    rcases List.mem_append.1 hc with hc | hc
    · exact hs.tame h c hc
    · split at hc
      · exact ht.tame _ c hc
      · nomatch hc
  trie h := by
    have h₁ := hs.trie h
    show ((Run.seq s.run t.run h).1.maps n).map _ = _
    unfold Run.seq
    generalize s.run h = r at h₁ ⊢
    obtain ⟨q, e⟩ := r
    cases e with
    | none => exact (ht.trie q).trans h₁
    | some e => exact h₁

theorem skip : Builds n skip := ⟨nofun, fun _ => rfl⟩

theorem forEach {α : Type} {f : α → Script} (hf : ∀ x, Builds n (f x)) : ∀ l : List α, Builds n (forEach l f)
  | [] => skip
  | x :: l => (hf x).seq (forEach hf l)

theorem setEntry_trie (h : Heap) (n m : Nat) (a : Addr) (e : AccountEntry) :
    ((h.setEntry m a e).maps n).map SharedAccountMap.state_trie = (h.maps n).map
      SharedAccountMap.state_trie := by
  unfold Heap.setEntry
  split
  · rfl
  · rename_i s hs
    by_cases hn : n = m
    · subst hn
      show (Function.update h.maps n _ n).map _ = _
      rw [Function.update_self, hs]
      rfl
    · show (Function.update h.maps m _ n).map _ = _
      rw [Function.update_of_ne hn]

theorem append (sha : Bytes → Word) (a : Addr) (n m : Nat) (e : AccountEntry) (root code : Option Word) :
    Builds n (appendUncompactedAccount sha a m e root code) where
  tame h c hc := by
    unfold appendUncompactedAccount at hc
    dsimp only at hc
    repeat' split at hc
    all_goals
      simp only [List.mem_append, List.mem_cons, List.not_mem_nil, or_false, false_or] at hc
    all_goals
      rcases hc with rfl | rfl | rfl <;> trivial
  trie h := by
    show ((Heap.appendUncompactedAccount sha m (h, []) a e root code).1.maps n).map _ = _
    unfold Heap.appendUncompactedAccount
    cases he : e.storage with
    | none =>
      dsimp only
      split
      · unfold Heap.materializeStorage
        rw [he]
        exact setEntry_trie ..
      · exact setEntry_trie ..
    | some mt =>
      dsimp only
      split <;> exact setEntry_trie ..

end Builds

/-- The accounts are put into a new map by `body`, and their leaves into its trie,
whose root is returned.
mirrors c_src/nif.cpp:2245-2259, 2428-2517 -/
def uncompact (body : Nat → Script) (hb : ∀ n, Builds n (body n)) (leaves : Heap → List (Addr × Word)) : Script where
  run h := (((body h.nextMap).run h.accountMapNew.2).1.batchInsertStateItems h.nextMap (leaves h), none)
  calls h := .alloc :: ((body h.nextMap).calls h.accountMapNew.2 ++
    [.fill h.res.nextMt ((leaves h).map fun p => (Addr.bytes p.1, p.2)), .rootHash h.res.nextMt])
  traced h := by
    have hnew : Heap.Traced h h.accountMapNew.2 [.alloc] := ⟨rfl, allowed_one nofun⟩
    have hbody := (body h.nextMap).traced h.accountMapNew.2
    have hbare : Bare (h.accountMapNew.2.res.calls _) h.res.nextMt :=
      (Bare.of_alloc h.res).calls ((hb h.nextMap).tame h.accountMapNew.2)
    have htrie := (hb h.nextMap).trie h.accountMapNew.2
    generalize (body h.nextMap).run h.accountMapNew.2 = r at hbody htrie ⊢
    rw [← hbody.res] at hbare
    have hnt : (h.accountMapNew.2.maps h.nextMap).map SharedAccountMap.state_trie = some h.res.nextMt := by
      show (Function.update h.maps h.nextMap _ h.nextMap).map _ = _
      rw [Function.update_self]
      rfl
    obtain ⟨s, hs, hst⟩ := Option.map_eq_some_iff.1 (htrie.trans hnt)
    refine (hnew.trans (hbody.trans ⟨?_, ?_⟩) : Heap.Traced h _ ([.alloc] ++ _))
    · have hfill : (fun t : Tree => (leaves h).foldl (fun t p => t.insertItem (Addr.bytes p.1) p.2) t) =
          fun t => t.fill ((leaves h).map fun p => (Addr.bytes p.1, p.2)) := by
        funext t
        exact (List.foldl_map (f := fun p : Addr × Word => (Addr.bytes p.1, p.2))
          (g := fun (t : Tree) (s : Pair) => t.insertItem s.1 s.2)).symm
      unfold Heap.batchInsertStateItems
      rw [hs]
      dsimp only
      rw [hst, hfill]
      rfl
    · exact (allowed_fill hbare.isPrivate _).append (k := [.rootHash h.res.nextMt]) (allowed_one nofun)

/-- mirrors c_src/nif.cpp:2428-2478, 2505-2517 -/
def uncompactHandle : Script := look fun h => whenSome (h.maps m) fun s =>
  uncompact (fun n => forEach s.accounts.entries fun p => appendUncompactedAccount sha p.1 n p.2 none none)
    (fun n => .forEach (fun p => .append sha p.1 n n p.2 none none) s.accounts.entries)
    fun h => (s.accounts.entries.foldl
      (fun acc p => Heap.appendUncompactedAccount sha h.nextMap acc p.1 p.2 none none) (h.accountMapNew.2, [])).2

/-- An account of a compact term. -/
def uncompactParsed (n : Nat) (p : Addr × ParsedCompactAccount) : Script := look fun h =>
  (quiet (fun q => ((q.compactEntry p.2).1, none)) fun q => by
    unfold Heap.compactEntry
    split <;> rfl).seq
  (appendUncompactedAccount sha p.1 n (h.compactEntry p.2).2 p.2.compact_root_hash p.2.compact_code_hash)

theorem Builds.parsed (n m : Nat) (p : Addr × ParsedCompactAccount) : Builds n (uncompactParsed sha m p) :=
  .look fun h => .seq ⟨nofun, fun q => by
    show ((q.compactEntry p.2).1.maps n).map _ = _
    unfold Heap.compactEntry
    split <;> rfl⟩ (.append ..)

/-- mirrors c_src/nif.cpp:2428-2517 -/
def uncompactTerm (t : Term) : Script := whenSome (Heap.parseCompactState t) fun l =>
  uncompact (fun n => forEach l (uncompactParsed sha n)) (fun n => .forEach (Builds.parsed sha n n) l)
    fun h => (l.foldl (Heap.uncompactParsed sha h.nextMap) (h.accountMapNew.2, [])).2

section
variable {sha m} {n : Nat}

/-- The heap does not depend on the leaves that are to come. -/
theorem run_loop {α : Type} {f : α → Script} {g : Heap × List (Addr × Word) → α → Heap × List (Addr × Word)}
    (hf : ∀ x acc, (f x).run acc.1 = ((g acc x).1, none)) : ∀ (l : List α) (acc : Heap × List (Addr × Word)),
      (forEach l f).run acc.1 = ((l.foldl g acc).1, none)
  | [], _ => rfl
  | x :: l, acc => (seq_run (hf x acc)).trans (run_loop hf l _)

theorem run_uncompactHandle (h : Heap) :
    (uncompactHandle sha m).run h = ((h.uncompactHandle sha m).elim h Prod.snd, none) := by
  rw [uncompactHandle, run_look, Heap.uncompactHandle]
  cases h.maps m with
  | none => rfl
  | some s =>
    have hbody := run_loop (f := fun p : Addr × AccountEntry => appendUncompactedAccount sha p.1 h.nextMap p.2 none none)
      (g := fun acc p => Heap.appendUncompactedAccount sha h.nextMap acc p.1 p.2 none none) (fun _ _ => rfl)
      s.accounts.entries (h.accountMapNew.2, [])
    show ((Prod.fst ((forEach s.accounts.entries _).run h.accountMapNew.2)).batchInsertStateItems _ _, none) = _
    rw [hbody]
    rfl

theorem run_uncompactTerm (t : Term) (h : Heap) :
    (uncompactTerm sha t).run h = ((h.uncompactTerm sha t).elim h Prod.snd, none) := by
  rw [uncompactTerm, Heap.uncompactTerm]
  cases Heap.parseCompactState t with
  | none => rfl
  | some l =>
    have hbody := run_loop (f := uncompactParsed sha h.nextMap) (g := Heap.uncompactParsed sha h.nextMap)
      (fun _ _ => rfl) l (h.accountMapNew.2, [])
    show ((Prod.fst ((forEach l _).run h.accountMapNew.2)).batchInsertStateItems _ _, none) = _
    rw [hbody]
    rfl

end

/-! ### Reads -/

/-- mirrors c_src/nif.cpp:2396-2426 -/
def accountMapCompact : Script := look fun h => whenSome (h.maps m) fun s =>
  forEach s.accounts.entries fun p => storageRootHashForEntry sha p.2

/-- mirrors c_src/nif.cpp:1314-1333 -/
def entriesEqual (x y : AccountEntry) : Script := look fun h =>
  if Heap.side x = Heap.side y then
    if h.sameStorage x y then skip
    else (storageRootHashForEntry sha x).seq (storageRootHashForEntry sha y)
  else skip

/-- mirrors c_src/nif.cpp:1490-1518 -/
def collectDiffs (ma mb : Nat) (l : List Addr) : Script := forEach l fun a => look fun h =>
  match h.entry ma a, h.entry mb a with
  | some x, some y => entriesEqual sha x y
  | _, _ => skip

/-- mirrors c_src/nif.cpp:1434-1448 -/
def rootForDiffSide (e : Option AccountEntry) : Script := whenSome e (storageRootHashForEntry sha)

def temp (slots : List Pair) : Script := one (.temp slots false) nofun

/-- mirrors c_src/nif.cpp:1352-1373 -/
def storageForDiffSide (e : Option AccountEntry) : Script := look fun h => whenSome e fun e =>
  if e.storage.isSome || (h.slots e).isEmpty then skip else temp (h.slots e)

/-- mirrors c_src/nif.cpp:1382-1432 -/
def buildStorageDiffList (x y : Option AccountEntry) : Script := look fun h =>
  if h.oneTree x y then skip
  else
    let s := x.elim Tree.empty h.storageOf
    let t := y.elim Tree.empty h.storageOf
    (storageForDiffSide x).seq <| (storageForDiffSide y).seq <|
      temp (t.difference s (s.difference t Tree.empty)).pairs

/-- mirrors c_src/nif.cpp:1450-1541 -/
def differenceFull (ma mb : Nat) : Script := look fun h =>
  match h.maps ma, h.maps mb with
  | some sa, some sb =>
    if ma = mb then skip
    else if h.res.stateOf sa.state_trie = h.res.stateOf sb.state_trie then skip
    else
      let s := h.res.tree sa.state_trie
      let t := h.res.tree sb.state_trie
      (temp (t.difference s (s.difference t Tree.empty)).pairs).seq <|
      (collectDiffs sha ma mb (diffKeys s t)).seq <|
      forEach (h.collectDiffs sha ma mb (diffKeys s t)).2 fun i =>
        (buildStorageDiffList i.2.1 i.2.2).seq <|
          (rootForDiffSide sha i.2.1).seq (rootForDiffSide sha i.2.2)
  | _, _ => skip

/-- mirrors c_src/nif.cpp:1989-2037. `root_hashes` brings the nodes up to date as
`root_hash` does. -/
def accountMapStorageRoots : Script := look fun h => whenSome (h.entry m a) fun e =>
  match e.storage, e.compact_storage with
  | none, none => (materializeAt m a).seq <| look fun h =>
      whenSome ((h.entry m a).bind AccountEntry.storage) fun mt => one (.rootHash mt) nofun
  | _, _ => storageRootHashForEntry sha e

/-- mirrors c_src/nif.cpp:1035-1065, 1166-1209, 1941-2060 -/
def ask (q : Query) : Script := look fun h => whenSome (h.maps m) fun s =>
  match q with
  | .get addr => whenSome (addr.getAddress.bind s.accounts.get) (storageRootHashForEntry sha)
  | .size => skip
  | .toList => forEach s.accounts.entries fun p => storageRootHashForEntry sha p.2
  | .rootHash | .stateRoots => one (.rootHash s.state_trie) nofun
  | .storage addr _ => whenSome addr.getAddress fun a => whenSome (s.accounts.get a) fun _ => materializeAt m a
  | .storageRoots addr => whenSome addr.getAddress (accountMapStorageRoots sha m)
  | .proof addr => whenSome addr.getAddress fun a => one (.getProofs s.state_trie (Addr.bytes a)) nofun
  | .storageProof addr key => whenSome addr.getAddress fun a => whenSome key.bin? fun key =>
      (materializeAt m a).seq <| look fun h =>
        whenSome ((h.entry m a).bind AccountEntry.storage) fun mt => one (.getProofs mt key) nofun

section
variable {sha m a} {n : Nat}

theorem run_storageRoots_entries : ∀ (l : List (Addr × AccountEntry)) (h : Heap),
    (forEach l fun p => storageRootHashForEntry sha p.2).run h =
      (l.foldl (fun h p => (h.storageRootHashForEntry sha p.2).1) h, none) :=
  run_forEach_heap fun _ _ => rfl

theorem run_accountMapCompact (h : Heap) : (accountMapCompact sha m).run h = ((h.accountMapCompact sha m).1, none) := by
  have hloop : ∀ (l : List (Addr × AccountEntry)) (h : Heap),
      (h.compactAccounts sha l).1 = l.foldl (fun h p => (h.storageRootHashForEntry sha p.2).1) h := by
    intro l
    induction l with
    | nil => exact fun _ => rfl
    | cons p l ih => exact fun h => ih _
  rw [accountMapCompact, run_look, Heap.accountMapCompact]
  cases h.maps m with
  | none => rfl
  | some s =>
    rw [whenSome, run_storageRoots_entries, ← hloop]

theorem run_entriesEqual (x y : AccountEntry) (h : Heap) :
    (entriesEqual sha x y).run h = ((h.entriesEqual sha x y).1, none) := by
  rw [entriesEqual, run_look, Heap.entriesEqual]
  split
  · split <;> rfl
  · rfl

theorem run_collectDiffs (ma mb : Nat) : ∀ (l : List Addr) (h : Heap),
    (collectDiffs sha ma mb l).run h = ((h.collectDiffs sha ma mb l).1, none)
  | [], _ => rfl
  | a :: l, h => by
    have hfirst : ∀ x y : Option AccountEntry, (match x, y with
        | some x, some y => entriesEqual sha x y
        | _, _ => skip).run h = (match x, y with
        | some x, some y => (h.entriesEqual sha x y).1
        | _, _ => h, none) := by
      intro x y
      cases x with
      | none => rfl
      | some x =>
        cases y with
        | none => rfl
        | some y => exact run_entriesEqual x y h
    refine (seq_run (hfirst (h.entry ma a) (h.entry mb a))).trans ?_
    rw [Heap.collectDiffs]
    cases h.entry ma a with
    | none => cases h.entry mb a <;> exact run_collectDiffs ma mb l h
    | some x => cases h.entry mb a <;> exact run_collectDiffs ma mb l _

theorem run_rootForDiffSide (e : Option AccountEntry) (h : Heap) :
    (rootForDiffSide sha e).run h = ((h.rootForDiffSide sha e).1, none) := by
  cases e <;> rfl

theorem run_storageForDiffSide (e : Option AccountEntry) (h : Heap) : (storageForDiffSide e).run h = (h, none) := by
  rw [storageForDiffSide, run_look]
  cases e with
  | none => rfl
  | some e =>
    rw [whenSome]
    split <;> rfl

theorem run_buildStorageDiffList (x y : Option AccountEntry) (h : Heap) :
    (buildStorageDiffList x y).run h = (h, none) := by
  rw [buildStorageDiffList, run_look]
  split
  · rfl
  · exact (seq_run (run_storageForDiffSide x h)).trans (seq_run (run_storageForDiffSide y h))

theorem run_diffEntries : ∀ (l : List (Addr × Option AccountEntry × Option AccountEntry)) (out : List DiffEntry)
    (h : Heap), (forEach l fun i => (buildStorageDiffList i.2.1 i.2.2).seq
      ((rootForDiffSide sha i.2.1).seq (rootForDiffSide sha i.2.2))).run h = ((h.diffEntries sha out l).1, none)
  | [], _, _ => rfl
  | i :: l, out, h => by
    have hi : ((buildStorageDiffList i.2.1 i.2.2).seq
        ((rootForDiffSide sha i.2.1).seq (rootForDiffSide sha i.2.2))).run h = _ :=
      (seq_run (run_buildStorageDiffList ..)).trans
        ((seq_run (run_rootForDiffSide ..)).trans (run_rootForDiffSide ..))
    exact (seq_run hi).trans (run_diffEntries l _ _)

theorem run_differenceFull (ma mb : Nat) (h : Heap) :
    (differenceFull sha ma mb).run h = ((h.differenceFull sha ma mb).1, none) := by
  rw [differenceFull, run_look, Heap.differenceFull]
  cases h.maps ma with
  | none => rfl
  | some sa =>
    cases h.maps mb with
    | none => rfl
    | some sb =>
      dsimp only
      split
      · rfl
      · split
        · rfl
        · exact (seq_run (s := temp _) rfl).trans ((seq_run (run_collectDiffs ..)).trans (run_diffEntries ..))

theorem run_accountMapStorageRoots (h : Heap) :
    (accountMapStorageRoots sha m a).run h = ((h.accountMapStorageRoots sha m a).1, none) := by
  rw [accountMapStorageRoots, run_look, Heap.accountMapStorageRoots]
  cases h.entry m a with
  | none => rfl
  | some e =>
    have hroot : (storageRootHashForEntry sha e).run h = ((h.storageRootHashForEntry sha e).1, none) := rfl
    rw [whenSome]
    dsimp only
    cases hs : e.storage with
    | some mt =>
      rw [hroot, Heap.storageRootHashForEntry]
      simp only [hs]
    | none =>
      cases hc : e.compact_storage with
      | some c => exact hroot
      | none =>
        refine (seq_run (run_materializeAt h)).trans ?_
        rw [run_look]
        cases ((h.materializeAt m a).entry m a).bind AccountEntry.storage <;> rfl

theorem run_ask (q : Query) (h : Heap) : (ask sha m q).run h = ((h.ask sha m q).1, none) := by
  rw [ask, run_look, Heap.ask]
  cases h.maps m with
  | none => rfl
  | some s =>
    rw [whenSome]
    cases q with
    | size | rootHash | stateRoots => rfl
    | get addr =>
      dsimp only
      cases addr.getAddress with
      | none => rfl
      | some a =>
        dsimp only [Option.bind_some]
        cases s.accounts.get a <;> rfl
    | toList =>
      have hloop : ∀ (l : List (Addr × AccountEntry)) (acc : Heap × Term),
          (l.foldl (listEntry sha) acc).1 = l.foldl (fun h p => (h.storageRootHashForEntry sha p.2).1) acc.1 := by
        intro l
        induction l with
        | nil => exact fun _ => rfl
        | cons p l ih => exact fun acc => ih _
      exact (run_storageRoots_entries ..).trans (congrArg (·, none) (hloop _ (h, .nil)).symm)
    | storage addr spec =>
      dsimp only
      cases addr.getAddress with
      | none => rfl
      | some a =>
        dsimp only [whenSome]
        cases s.accounts.get a with
        | none => rfl
        | some e => exact run_materializeAt h
    | storageRoots addr =>
      dsimp only
      cases addr.getAddress with
      | none => rfl
      | some a => exact run_accountMapStorageRoots h
    | proof addr =>
      dsimp only
      cases addr.getAddress <;> rfl
    | storageProof addr key =>
      dsimp only
      cases addr.getAddress with
      | none => rfl
      | some a =>
        cases key.bin? with
        | none => rfl
        | some k =>
          refine (seq_run (run_materializeAt h)).trans ?_
          rw [run_look]
          cases ((h.materializeAt m a).entry m a).bind AccountEntry.storage <;> rfl

end
end Script

/-! ## The calls of a process -/

/-- A call, routine by routine. -/
def Op.script (sha : Bytes → Word) : Op → Script
  | new => .accountMapNew
  | clone m => .look fun h => .whenSome (h.maps m) .forkSharedAccountmap
  | lock m => .quiet (fun h => (((h.accountMapLock m).getD h), none)) fun h => by
      unfold Heap.accountMapLock
      cases h.maps m <;> rfl
  | destroy m => .destructAccountmap m
  | compact m => .accountMapCompact sha m
  | uncompactTerm t => .uncompactTerm sha t
  | uncompactHandle m => .uncompactHandle sha m
  | put m addr nonce balance storage code => .accountMapPut sha m addr nonce balance storage code
  | delete m addr => .accountMapDelete m addr
  | storagePutMap m updates => .storagePutMap sha m updates
  | applyDifference m delta => .applyDifference sha m delta
  | difference a b => .differenceFull sha a b
  | ask m q => .ask sha m q

namespace Heap
open Resources
variable {sha : Bytes → Word}

/-- **The script of a call** is the call. -/
theorem script_step (h : Heap) (op : Op) : ((op.script sha).run h).1 = (h.step sha op).1 := by
  cases op with
  | new => rfl
  | clone m =>
    show ((Script.whenSome (h.maps m) Script.forkSharedAccountmap).run h).1 = (replyHandle h (h.accountMapClone m)).1
    unfold accountMapClone
    cases h.maps m with
    | none => rfl
    | some s => exact congrArg Prod.fst (Script.run_forkSharedAccountmap s h)
  | lock m =>
    show (h.accountMapLock m).getD h = _
    rw [step]
    cases h.accountMapLock m <;> rfl
  | destroy m => exact congrArg Prod.fst (Script.run_destructAccountmap h)
  | compact m =>
    refine (congrArg Prod.fst (Script.run_accountMapCompact h)).trans ?_
    rw [step]
    rcases h.accountMapCompact sha m with ⟨g, _ | t⟩ <;> rfl
  | uncompactTerm t =>
    refine (congrArg Prod.fst (Script.run_uncompactTerm t h)).trans ?_
    rw [step]
    cases h.uncompactTerm sha t <;> rfl
  | uncompactHandle m =>
    refine (congrArg Prod.fst (Script.run_uncompactHandle h)).trans ?_
    rw [step]
    cases h.uncompactHandle sha m <;> rfl
  | put m addr nonce balance storage code =>
    exact congrArg (fun f : Run => (f h).1) (Script.run_accountMapPut addr nonce balance storage code)
  | delete m addr => exact congrArg (fun f : Run => (f h).1) (Script.run_accountMapDelete addr)
  | storagePutMap m updates => exact congrArg (fun f : Run => (f h).1) (Script.run_storagePutMap updates)
  | applyDifference m delta => exact congrArg (fun f : Run => (f h).1) (Script.run_applyDifference delta)
  | difference a b =>
    refine (congrArg Prod.fst (Script.run_differenceFull a b h)).trans ?_
    rw [step]
    rcases h.differenceFull sha a b with ⟨g, _ | l⟩ <;> rfl
  | ask m q =>
    refine (congrArg Prod.fst (Script.run_ask q h)).trans ?_
    rw [step]

theorem traced_step (h : Heap) (op : Op) : Traced h (h.step sha op).1 ((op.script sha).calls h) := by
  rw [← script_step]
  exact (op.script sha).traced h

variable (sha) in
/-- The calls on resources that a run makes. -/
def trieCalls (h : Heap) : List Op → List Call
  | [] => []
  | op :: ops => (op.script sha).calls h ++ (h.step sha op).1.trieCalls ops

theorem traced_run : ∀ (ops : List Op) (h : Heap), Traced h (h.run sha ops) (h.trieCalls sha ops)
  | [], h => .refl h
  | op :: ops, h => (traced_step h op).trans (traced_run ops _)

/-- **Lifetime of shared states.** What the counters promise holds at every next
act of every sequence that only fills states of its own. The resources a run of
calls leaves, from any heap on, come from such a sequence: its scripts. No call
needs to be `Careful` for it. -/
theorem state_lifetimes (sha : Bytes → Word) :
    (∀ (l : List Act) (x : Act), Resources.init.Guarded (l ++ [x]) →
      Lifetime (Resources.init.acts l) x) ∧
      ∀ (h : Heap) (ops : List Op), (h.run sha ops).res = h.res.acts ((h.trieCalls sha ops).flatMap Call.acts) ∧
        h.res.Guarded ((h.trieCalls sha ops).flatMap Call.acts) := by
  refine ⟨fun _ _ hg => Counted.init.along hg, fun h ops => ?_⟩
  obtain ⟨hr, hg⟩ := @traced_run sha ops h
  exact ⟨by rw [hr, calls_eq], hg⟩

/-- A storage with one slot is cloned, the clone is written, and the original is
let go: its state goes with it. -/
theorem state_lifetimes_original : Lifetime (Resources.init.acts [.alloc, .fill 0 fun t => t.insertItem [1] 5,
    .clone 0, .insert 1 [1] 6]) (.release 0) :=
  (state_lifetimes fun _ => 0).1 [.alloc, .fill 0 fun t => t.insertItem [1] 5, .clone 0, .insert 1 [1] 6] (.release 0)
    ⟨nofun, fun mt f e => by cases e; exact private_alloc Resources.init, nofun, nofun, nofun, trivial⟩

end Heap
end Diode.L3
