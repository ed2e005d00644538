import Diode.L3State.Resource
import Diode.L3State.Term

/-!
# The native account map

Model of the account-map functions of c_src/nif.cpp. A handle names a
`SharedAccountMap`: a table of accounts, each with a live storage trie or a
lazily kept `CompactStorage`, and a state trie with one leaf for each account.
Every write goes through the handle in place.

A routine that can stop half way is a `Run`: it returns the heap it leaves and
the fault it stopped with, so what was written before the fault stays.

Not modelled: mutexes, the NIF time slice, and failing allocations.
-/
namespace Diode.L3
open Diode.Core Diode.L1.Ext Diode.L1.Rlp Diode.L2

/-- mirrors c_src/nif.cpp:204-210 -/
structure CompactStorage where
  slots : List Pair
  root_hash : Option Word

/-- mirrors c_src/nif.cpp:212-260 -/
structure AccountEntry where
  nonce : BitVec 64
  balance : Word
  storage : Option Nat
  compact_storage : Option Nat
  code : Bytes

/-- mirrors c_src/nif.cpp:290-313 -/
structure SharedAccountMap where
  frozen : Bool
  state_trie : Nat
  accounts : SMap Addr AccountEntry

/-- Everything the native library holds: resources, compact storages (shared
between the entries of forks) and the account maps by handle. -/
structure Heap where
  res : Resources
  compacts : Nat → Option CompactStorage
  nextCompact : Nat
  maps : Nat → Option SharedAccountMap
  nextMap : Nat

/-- `badarg`, or the `{:error, :mismatch}` that `apply_difference` returns. -/
inductive Fault where
  | badarg | mismatch
  deriving DecidableEq, Repr

/-- A routine that writes as it goes. -/
abbrev Run := Heap → Heap × Option Fault

namespace Run

def skip : Run := fun h => (h, none)

def fail (f : Fault) : Run := fun h => (h, some f)

def seq (f g : Run) : Run := fun h =>
  match f h with
  | (h, none) => g h
  | (h, some e) => (h, some e)

def forEach {α : Type} (l : List α) (f : α → Run) : Run :=
  match l with
  | [] => skip
  | x :: l => (f x).seq (forEach l f)

/-- Run `f` on the value, if there is one. -/
def whenSome {α : Type} (x : Option α) (f : α → Run) : Run :=
  match x with
  | none => skip
  | some x => f x

end Run

namespace Heap

def init : Heap := ⟨Resources.init, fun _ => none, 0, fun _ => none, 0⟩

def entry (h : Heap) (m : Nat) (a : Addr) : Option AccountEntry := (h.maps m).bind fun s =>
    s.accounts.get a

def setMap (h : Heap) (m : Nat) (s : SharedAccountMap) : Heap :=
    { h with maps := Function.update h.maps m (some s) }

def setCompact (h : Heap) (c : Nat) (cs : CompactStorage) : Heap :=
  { h with compacts := Function.update h.compacts c (some cs) }

/-- An assignment through an `AccountEntry &` of the table. -/
def setEntry (h : Heap) (m : Nat) (a : Addr) (e : AccountEntry) : Heap :=
  match h.maps m with
  | none => h
  | some s => h.setMap m { s with accounts := s.accounts.put a e }

/-- The slots of an entry's compact storage. -/
def slots (h : Heap) (e : AccountEntry) : List Pair :=
  (e.compact_storage.bind h.compacts).elim [] CompactStorage.slots

/-- mirrors c_src/nif.cpp:391-398 -/
def releaseEntryStorage (h : Heap) (e : AccountEntry) : Heap :=
  match e.storage with
  | none => h
  | some mt => { h with res := h.res.release mt }

/-- mirrors c_src/nif.cpp:1219-1243 -/
def materializeStorage (h : Heap) (e : AccountEntry) : Heap × AccountEntry :=
  match e.storage with
  | some _ => (h, e)
  | none =>
    let (mt, res) := h.res.alloc
    ({ h with res := res.modifyTree mt fun _ => Tree.ofSlots (h.slots e) },
      { e with storage := some mt, compact_storage := none })

/-- `materialize_storage` on an entry of the table. -/
def materializeAt (h : Heap) (m : Nat) (a : Addr) : Heap :=
  match h.entry m a with
  | none => h
  | some e =>
    let (h, e) := h.materializeStorage e
    h.setEntry m a e

/-- What reads an entry's storage after `materialize_storage`. -/
def storageOf (h : Heap) (e : AccountEntry) : Tree :=
  match e.storage with
  | some mt => h.res.tree mt
  | none => Tree.ofSlots (h.slots e)

section
variable (sha : Bytes → Word)

/-- mirrors c_src/nif.cpp:1245-1277 -/
def storageRootHashForEntry (h : Heap) (e : AccountEntry) : Heap × Word :=
  match e.storage with
  | some mt => (h, (h.res.tree mt).rootHash sha)
  | none =>
    match e.compact_storage with
    | none => (h, Tree.empty.rootHash sha)
    | some c =>
      match h.compacts c with
      | none => (h, Tree.empty.rootHash sha)
      | some cs =>
        match if cs.slots.isEmpty then none else cs.root_hash with
        | some root => (h, root)
        | none =>
          let root := (Tree.ofSlots cs.slots).rootHash sha
          (h.setCompact c { cs with root_hash := some root }, root)

/-- `AccountHashCtx::compute` once the storage root is known.
mirrors c_src/nif.cpp:898-943 -/
def accountHash (nonce : BitVec 64) (balance : Word) (root : Word) (codeHash : Word) : Word :=
  sha (encodeList (encodeUint64 nonce) (encodeUint256 balance) (encodeBytes (Word.bytes root))
    (encodeBytes (Word.bytes codeHash)))

/-- mirrors c_src/nif.cpp:946-955 -/
def insertStateTrieHash (h : Heap) (m : Nat) (a : Addr) (hash : Word) : Heap :=
  match h.maps m with
  | none => h
  | some s => { h with res := h.res.insertItem s.state_trie (Addr.bytes a) hash }

/-- mirrors c_src/nif.cpp:957-977 -/
def updateStateTrieForEntry (h : Heap) (m : Nat) (a : Addr) : Heap :=
  let h := match h.entry m a with
    | some e => if e.compact_storage.isSome then h else h.materializeAt m a
    | none => h
  match h.entry m a with
  | none => h
  | some e =>
    let (h, root) := h.storageRootHashForEntry sha e
    h.insertStateTrieHash m a (accountHash sha e.nonce e.balance root (sha e.code))

end

/-- mirrors c_src/nif.cpp:979-983 -/
def removeStateTrieEntry (h : Heap) (m : Nat) (a : Addr) : Heap := h.insertStateTrieHash m a 0

/-- mirrors c_src/nif.cpp:1627-1639 -/
def ensureAccountEntry (h : Heap) (m : Nat) (a : Addr) : Heap :=
  match h.entry m a with
  | some _ => h
  | none =>
    let (mt, res) := h.res.alloc
    { h with res }.setEntry m a ⟨0, 0, some mt, none, []⟩

/-- The slot as `read_storage_slot` on the materialized entry.
mirrors c_src/nif.cpp:1601-1607 -/
def readStorageSlot (h : Heap) (m : Nat) (a : Addr) (key : Bytes) : Word :=
  ((h.entry m a).elim Tree.empty h.storageOf).read key

/-- mirrors c_src/nif.cpp:1609-1620 -/
def writeStorageSlot (h : Heap) (m : Nat) (a : Addr) (key : Bytes) (value : Word) : Heap :=
  let h := h.materializeAt m a
  match (h.entry m a).bind AccountEntry.storage with
  | none => h
  | some mt => { h with res := h.res.insertItem mt key value }

end Heap

/-! ## Bulk updates -/

inductive Field where
  | nonce | balance | code
  deriving DecidableEq, Repr

def Field.atom : Field → Atom
  | .nonce => .nonce
  | .balance => .balance
  | .code => .code

/-- `apply_field_delta`. The balance and the code are decoded into the entry
itself, so a malformed new value leaves them zero and empty.
mirrors c_src/nif.cpp:1641-1684 -/
def applyFieldDelta (m : Nat) (a : Addr) (field : Field) (delta : Term) : Run := fun h =>
  match h.entry m a, delta.pair? with
  | some e, some (old, new) =>
    match field with
    | .nonce =>
      match old.getUint64, new.getUint64 with
      | some expected, some v =>
        if e.nonce = expected then (h.setEntry m a { e with nonce := v }, none) else (h, some .mismatch)
      | _, _ => (h, some .mismatch)
    | .balance =>
      if old.getBalance = some e.balance then
        match new.getBalance with
        | some v => (h.setEntry m a { e with balance := v }, none)
        | none => (h.setEntry m a { e with balance := 0 }, some .mismatch)
      else (h, some .mismatch)
    | .code =>
      if old.getCode = some e.code then
        match new.getCode with
        | some v => (h.setEntry m a { e with code := v }, none)
        | none => (h.setEntry m a { e with code := [] }, some .mismatch)
      else (h, some .mismatch)
  | _, _ => (h, some .mismatch)

/-- One slot of `apply_storage_delta`.
mirrors c_src/nif.cpp:1697-1726 -/
def applySlotDelta (m : Nat) (a : Addr) (slot : Term × Term) : Run := fun h =>
  match slot.1.bin?, slot.2.pair? with
  | some key, some (old, new) =>
    let h := h.materializeAt m a
    if old.getStorageValue = some (h.readStorageSlot m a key) then
      match new.getStorageValue with
      | some v => (h.writeStorageSlot m a key v, none)
      | none => (h, some .mismatch)
    else (h, some .mismatch)
  | _, _ => (h, some .mismatch)

/-- mirrors c_src/nif.cpp:1686-1731 -/
def applyStorageDelta (m : Nat) (a : Addr) (stateMap : Term) : Run :=
  match stateMap.entries? with
  | none => Run.fail .mismatch
  | some l => Run.forEach l (applySlotDelta m a)

/-- A map that can be written: it exists and is not frozen.
mirrors c_src/nif.cpp:635-638 -/
def makeWriteableAccountmap (m : Nat) (f : Run) : Run := fun h =>
  match h.maps m with
  | none => (h, some .badarg)
  | some s => if s.frozen then (h, some .badarg) else f h

section
variable (sha : Bytes → Word)

/-- One entry of the list `apply_difference` walks.
mirrors c_src/nif.cpp:1749-1785 -/
def applyDifferenceItem (m : Nat) (head : Term) : Run :=
  match head.pair? with
  | none => Run.fail .badarg
  | some (addr, report) =>
    match addr.getAddress, report.entries? with
    | some a, some _ =>
      Run.seq (fun h => (h.ensureAccountEntry m a, none)) <|
      Run.seq (Run.whenSome (report.mapGetAtom .state) (applyStorageDelta m a)) <|
      Run.seq (Run.forEach [Field.nonce, Field.balance, Field.code] fun f =>
        Run.whenSome (report.mapGetAtom f.atom) (applyFieldDelta m a f)) <|
      fun h => (h.updateStateTrieForEntry sha m a, none)
    | _, _ => Run.fail .badarg

/-- mirrors c_src/nif.cpp:1733-1789 -/
def applyDifference (m : Nat) (delta : Term) : Run :=
  if delta.isList then makeWriteableAccountmap m (Run.forEach delta.cells (applyDifferenceItem sha m))
  else Run.fail .badarg

/-- One slot of the list `storage_put_map` walks.
mirrors c_src/nif.cpp:1826-1846 -/
def storagePutSlot (m : Nat) (a : Addr) (kv : Term) : Run := fun h =>
  match kv.slot32? with
  | none => (h, some .badarg)
  | some (key, value) => (h.writeStorageSlot m a key value, none)

/-- mirrors c_src/nif.cpp:1808-1850 -/
def storagePutItem (m : Nat) (head : Term) : Run :=
  match head.pair? with
  | none => Run.fail .badarg
  | some (addr, kvs) =>
    match addr.getAddress with
    | none => Run.fail .badarg
    | some a =>
      if kvs.isList then
        Run.seq (fun h => (h.ensureAccountEntry m a, none)) <|
        Run.seq (Run.forEach kvs.cells (storagePutSlot m a)) <|
        fun h => (h.updateStateTrieForEntry sha m a, none)
      else Run.fail .badarg

/-- mirrors c_src/nif.cpp:1791-1853 -/
def storagePutMap (m : Nat) (updates : Term) : Run :=
  if updates.isList then makeWriteableAccountmap m (Run.forEach updates.cells (storagePutItem sha m))
  else Run.fail .badarg

/-! ## Single accounts -/

/-- The body of `account_map_put` with `:keep`.
mirrors c_src/nif.cpp:1107-1116 -/
def putKeep (m : Nat) (a : Addr) (nonce : BitVec 64) (balance : Word) (code : Bytes) : Run := fun h =>
  let h := h.ensureAccountEntry m a
  match h.entry m a with
  | none => (h, none)
  | some e => ((h.setEntry m a { e with nonce, balance, code }).updateStateTrieForEntry sha m a, none)

/-- The body of `account_map_put` with a storage of its own. The source builds
the tree before it takes the lock; here it is allocated once it has an owner.
mirrors c_src/nif.cpp:1118-1141 -/
def putStorage (m : Nat) (a : Addr) (nonce : BitVec 64) (balance : Word) (storage : Tree)
    (code : Bytes) : Run := fun h =>
  let h := (h.entry m a).elim h h.releaseEntryStorage
  let (mt, res) := h.res.alloc
  let h := { h with res := res.modifyTree mt fun _ => storage }
  ((h.setEntry m a ⟨nonce, balance, some mt, none, code⟩).updateStateTrieForEntry sha m a, none)

/-- mirrors c_src/nif.cpp:1067-1142 -/
def accountMapPut (m : Nat) (addr nonce balance storage code : Term) : Run :=
  match addr.getAddress, nonce.getUint64, balance.getBalance, code.getCode with
  | some a, some nonce, some balance, some code =>
    if storage.isAtom .keep then makeWriteableAccountmap m (putKeep sha m a nonce balance code)
    else
      match storage.storagePayload with
      | none => Run.fail .badarg
      | some tree => makeWriteableAccountmap m (putStorage sha m a nonce balance tree code)
  | _, _, _, _ => Run.fail .badarg

/-- mirrors c_src/nif.cpp:1144-1165 -/
def accountMapDelete (m : Nat) (addr : Term) : Run :=
  match addr.getAddress with
  | none => Run.fail .badarg
  | some a => makeWriteableAccountmap m fun h =>
    match h.maps m, h.entry m a with
    | some s, some e =>
      (((h.releaseEntryStorage e).setMap m { s with accounts := s.accounts.del a }).removeStateTrieEntry m a, none)
    | _, _ => (h, none)

end

/-! ## Maps made from maps -/

namespace Heap

/-- mirrors c_src/nif.cpp:836-845 -/
def accountMapNew (h : Heap) : Nat × Heap :=
  let (st, res) := h.res.alloc
  (h.nextMap, { { h with res }.setMap h.nextMap ⟨false, st, SMap.empty⟩ with nextMap := h.nextMap + 1 })

/-- One entry of the loop in `fork_shared_accountmap`; `clones` is
`storage_clones`. A wrapper made here holds one reference for each entry that
uses it. The entry is put into the table `n` of the fork.
mirrors c_src/nif.cpp:428-446 -/
def forkEntry (n : Nat) (acc : Heap × List (Nat × Nat)) (p : Addr × AccountEntry) :
    Heap × List (Nat × Nat) :=
  let (h, clones) := acc
  match p.2.compact_storage, p.2.storage with
  | none, some orig =>
    match clones.lookup orig with
    | some c => ({ h with res := h.res.keep c }.setEntry n p.1 { p.2 with storage := some c }, clones)
    | none =>
      let (c, res) := h.res.clone orig
      ({ h with res }.setEntry n p.1 { p.2 with storage := some c }, (orig, c) :: clones)
  | _, _ => (h.setEntry n p.1 p.2, clones)

/-- `fork_shared_accountmap`. The state trie of a new `SharedAccountMap` is
released at once and replaced by a clone.
mirrors c_src/nif.cpp:412-451 -/
def forkSharedAccountmap (h : Heap) (src : SharedAccountMap) : Nat × Heap :=
  let (st, res) := h.res.clone src.state_trie
  let n := h.nextMap
  let h := { { h with res }.setMap n ⟨false, st, SMap.empty⟩ with nextMap := h.nextMap + 1 }
  (n, (src.accounts.entries.foldl (forkEntry n) (h, [])).1)

/-- mirrors c_src/nif.cpp:847-865 -/
def accountMapClone (h : Heap) (m : Nat) : Option (Nat × Heap) := (h.maps m).map h.forkSharedAccountmap

/-- mirrors c_src/nif.cpp:867-882 -/
def accountMapLock (h : Heap) (m : Nat) : Option Heap := (h.maps m).map fun s =>
    h.setMap m { s with frozen := true }

/-- The destructor of a handle.
mirrors c_src/nif.cpp:303-312, 2520-2528 -/
def destructAccountmap (h : Heap) (m : Nat) : Heap :=
  match h.maps m with
  | none => h
  | some s =>
    let h := s.accounts.entries.foldl (fun h p => h.releaseEntryStorage p.2) h
    { h with res := h.res.release s.state_trie, maps := Function.update h.maps m none }

end Heap

/-- mirrors c_src/nif.cpp:2080-2086 -/
structure ParsedCompactAccount where
  nonce : BitVec 64
  balance : Word
  slots : Option (List Pair)
  code : Bytes
  compact_root_hash : Option Word
  compact_code_hash : Option Word

namespace Term

/-- A slot with a key of any size.
mirrors c_src/nif.cpp:706-715 -/
def decodeStorageSlot (key value : Term) : Option Pair := do some (← key.bin?, ← value.word?)

/-- The slots a compact account comes with: none for `nil`.
mirrors c_src/nif.cpp:2102-2174 -/
def parseCompactStorage : Term → Option (Option (List Pair))
  | atom .nil => some none
  | tuple [atom .mapMerkleTree, _, items] =>
      (items.entries?.bind (·.mapM fun p => decodeStorageSlot p.1 p.2)).map some
  | tuple [atom .elixirMapMerkleTree, _, items] =>
    (items.entries?.bind (·.mapM fun p => decodeStorageSlot p.1 p.2)).map some
  | t =>
    if t.isList then (t.cells.mapM fun s : Term => s.pair?.bind fun p =>
      decodeStorageSlot p.1 p.2).map some else none

/-- An optional 32-byte hash; an atom stands for none.
mirrors c_src/nif.cpp:2190-2212 -/
def optionalHash : Option Term → Option (Option Word)
  | none => some none
  | some (atom _) => some none
  | some t => t.word?.map some

/-- mirrors c_src/nif.cpp:2176-2232 -/
def parseCompactAccount (t : Term) : Option ParsedCompactAccount := do
  let nonce ← t.mapGetAtom .nonce
  let balance ← t.mapGetAtom .balance
  let storage ← t.mapGetAtom .storage_root
  let code ← t.mapGetAtom .code
  let root ← optionalHash (t.mapGetAtom .root_hash)
  let codeHash ← optionalHash (t.mapGetAtom .code_hash)
  some ⟨← nonce.getUint64, ← balance.getBalance, ← storage.parseCompactStorage,
    ← code.getCode, root, codeHash⟩

def parseCompactEntry (p : Term × Term) : Option (Addr × ParsedCompactAccount) := do
  some (← p.1.getAddress, ← p.2.parseCompactAccount)

end Term

namespace Heap

/-- `batch_insert_state_items`. The source sorts the items first; their
addresses are distinct.
mirrors c_src/nif.cpp:2245-2259 -/
def batchInsertStateItems (h : Heap) (m : Nat) (items : List (Addr × Word)) : Heap :=
  match h.maps m with
  | none => h
  | some s =>
    { h with res := h.res.modifyTree s.state_trie fun t =>
        items.foldl (fun t p => t.insertItem (Addr.bytes p.1) p.2) t }

section
variable (sha : Bytes → Word)

/-- `append_uncompacted_account`: an entry without a root of its own gets a
live storage, a live storage is held once more.
mirrors c_src/nif.cpp:2261-2282 -/
def appendUncompactedAccount (n : Nat) (acc : Heap × List (Addr × Word)) (a : Addr) (e : AccountEntry)
    (rootOverride codeHashOverride : Option Word) : Heap × List (Addr × Word) :=
  let (h, pending) := acc
  let (h, e) := match e.storage with
    | none => if rootOverride.isNone then h.materializeStorage e else (h, e)
    | some mt => (if e.compact_storage.isNone then { h with res := h.res.keep mt } else h, e)
  let root := rootOverride.getD ((e.storage.elim Tree.empty h.res.tree).rootHash sha)
  (h.setEntry n a e, pending ++
    [(a, accountHash sha e.nonce e.balance root (codeHashOverride.getD (sha e.code)))])

/-- The entry of a parsed account; its slots go to a fresh `CompactStorage`
that starts with the root hash that came along. -/
def compactEntry (h : Heap) (p : ParsedCompactAccount) : Heap × AccountEntry :=
  match p.slots with
  | none => (h, ⟨p.nonce, p.balance, none, none, p.code⟩)
  | some slots =>
    ({ h.setCompact h.nextCompact ⟨slots, p.compact_root_hash⟩ with nextCompact := h.nextCompact + 1 },
      ⟨p.nonce, p.balance, none, some h.nextCompact, p.code⟩)

def uncompactParsed (n : Nat) (acc : Heap × List (Addr × Word)) (p : Addr × ParsedCompactAccount) :
    Heap × List (Addr × Word) :=
  let (h, e) := acc.1.compactEntry p.2
  appendUncompactedAccount sha n (h, acc.2) p.1 e p.2.compact_root_hash p.2.compact_code_hash

/-- `account_map_uncompact_state` on a handle.
mirrors c_src/nif.cpp:2428-2478, 2505-2517 -/
def uncompactHandle (h : Heap) (m : Nat) : Option (Nat × Heap) :=
  (h.maps m).map fun s =>
    let (n, h) := h.accountMapNew
    let (h, pending) := s.accounts.entries.foldl
      (fun acc p => appendUncompactedAccount sha n acc p.1 p.2 none none) (h, [])
    (n, h.batchInsertStateItems n pending)

/-- The accounts of a compact state.
mirrors c_src/nif.cpp:2479-2495 -/
def parseCompactState (t : Term) : Option (List (Addr × ParsedCompactAccount)) :=
    t.entries?.bind fun l => l.mapM Term.parseCompactEntry

/-- `account_map_uncompact_state` on a compact term. A malformed account drops
the new map again; nothing else has been written by then.
mirrors c_src/nif.cpp:2428-2517 -/
def uncompactTerm (h : Heap) (t : Term) : Option (Nat × Heap) :=
  (parseCompactState t).map fun accounts =>
    let (n, h) := h.accountMapNew
    let (h, pending) := accounts.foldl (uncompactParsed sha n) (h, [])
    (n, h.batchInsertStateItems n pending)

end
end Heap
end Diode.L3
