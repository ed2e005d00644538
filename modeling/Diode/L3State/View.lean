import Diode.L3State.AccountMap

/-!
# What an account map says

`View` is what a handle means to its users: a table of accounts with their
storages and a state trie. An `Edit` is one write or one check on it, and
`View.run` performs a list of edits up to the first that fails. Every native
routine amounts to a list of edits that can be read off its argument
(`deltaEdits`, `putMapEdits`); that the routines of `AccountMap` perform them
is the subject of `Simulation`.
-/
namespace Diode.L3
open Diode.Core Diode.L1.Ext

structure Account where
  nonce : BitVec 64
  balance : Word
  code : Bytes
  storage : Tree
  deriving DecidableEq

/-- The account `ensure_account_entry` makes. -/
def Account.default : Account := ⟨0, 0, [], Tree.empty⟩

structure View where
  frozen : Bool
  trie : Tree
  accounts : SMap Addr Account
  deriving DecidableEq

/-- One write, or one check followed by a write. -/
inductive Edit where
  | ensure (a : Addr)
  | nonce (a : Addr) (old new : BitVec 64)
  | balance (a : Addr) (old new : Word)
  | code (a : Addr) (old new : Bytes)
  | slot (a : Addr) (key : Bytes) (old : Option Word) (new : Word)
  | fields (a : Addr) (nonce : BitVec 64) (balance : Word) (code : Bytes)
  | replace (a : Addr) (acc : Account)
  | erase (a : Addr)
  /-- refresh the leaf of an account -/
  | seal (a : Addr)
  | fail (f : Fault)

namespace View

def empty : View := ⟨false, Tree.empty, SMap.empty⟩

/-- Change an account, if it exists. -/
def update (v : View) (a : Addr) (f : Account → Account) : View :=
  match v.accounts.get a with
  | none => v
  | some acc => { v with accounts := v.accounts.put a (f acc) }

/-- The storage of an address, empty for no account. -/
def storage (v : View) (a : Addr) : Tree := (v.accounts.get a).elim Tree.empty Account.storage

end View

/-- The hash a leaf of the state trie holds for an account. -/
def Account.hash (sha : Bytes → Word) (acc : Account) : Word :=
  Heap.accountHash sha acc.nonce acc.balance (acc.storage.rootHash sha) (sha acc.code)

section
variable (sha : Bytes → Word)

def View.edit (v : View) : Edit → Except Fault View
  | .ensure a => .ok (if (v.accounts.get a).isSome then v else { v with accounts := v.accounts.put a Account.default })
  | .nonce a old new =>
    if (v.accounts.get a).map Account.nonce = some old then .ok
      (v.update a fun acc => { acc with nonce := new })
    else .error .mismatch
  | .balance a old new =>
    if (v.accounts.get a).map Account.balance = some old then .ok
      (v.update a fun acc => { acc with balance := new })
    else .error .mismatch
  | .code a old new =>
    if (v.accounts.get a).map Account.code = some old then .ok
      (v.update a fun acc => { acc with code := new })
    else .error .mismatch
  | .slot a key old new =>
    if old.all fun w => decide ((v.storage a).read key = w) then
      .ok (v.update a fun acc => { acc with storage := acc.storage.insertItem key new })
    else .error .mismatch
  | .fields a nonce balance code => .ok (v.update a fun acc => { acc with nonce, balance, code })
  | .replace a acc => .ok { v with accounts := v.accounts.put a acc }
  | .erase a =>
    .ok (if (v.accounts.get a).isSome then
      { v with accounts := v.accounts.del a, trie := v.trie.insertItem (Addr.bytes a) 0 } else v)
  | .seal a =>
    .ok (match v.accounts.get a with
      | none => v
      | some acc => { v with trie := v.trie.insertItem (Addr.bytes a) (acc.hash sha) })
  | .fail f => .error f

def View.run (v : View) : List Edit → View × Option Fault
  | [] => (v, none)
  | e :: es =>
    match v.edit sha e with
    | .ok v => v.run es
    | .error f => (v, some f)

/-- The edits of the list that are carried out. -/
def View.executed (v : View) : List Edit → List Edit
  | [] => []
  | e :: es =>
    match v.edit sha e with
    | .ok v => e :: v.executed es
    | .error _ => []

end

/-- The accounts whose slots the edits write. -/
def slotTargets (es : List Edit) : List Addr :=
  es.filterMap fun
    | .slot a _ _ _ => some a
    | _ => none

/-! ## The edits of an argument -/

def fieldEdits (a : Addr) (field : Field) (delta : Term) : List Edit :=
  match delta.pair? with
  | none => [.fail .mismatch]
  | some (old, new) =>
    match field with
    | .nonce =>
      match old.getUint64, new.getUint64 with
      | some o, some n => [.nonce a o n]
      | _, _ => [.fail .mismatch]
    | .balance =>
      match old.getBalance with
      | none => [.fail .mismatch]
      | some o => match new.getBalance with
        | some n => [.balance a o n]
        | none => [.balance a o 0, .fail .mismatch]
    | .code =>
      match old.getCode with
      | none => [.fail .mismatch]
      | some o => match new.getCode with
        | some n => [.code a o n]
        | none => [.code a o [], .fail .mismatch]

def slotEdits (a : Addr) (slot : Term × Term) : List Edit :=
  match slot.1.bin?, slot.2.pair? with
  | some key, some (old, new) =>
    match old.getStorageValue, new.getStorageValue with
    | some o, some n => [.slot a key (some o) n]
    | _, _ => [.fail .mismatch]
  | _, _ => [.fail .mismatch]

def storageEdits (a : Addr) (stateMap : Term) : List Edit :=
  match stateMap.entries? with
  | none => [.fail .mismatch]
  | some l => l.flatMap (slotEdits a)

/-- The edits of one entry of a difference. -/
def itemEdits (head : Term) : List Edit :=
  match head.pair? with
  | none => [.fail .badarg]
  | some (addr, report) =>
    match addr.getAddress, report.entries? with
    | some a, some _ =>
      [.ensure a] ++ (report.mapGetAtom .state).elim [] (storageEdits a) ++
        [Field.nonce, .balance, .code].flatMap (fun f => (report.mapGetAtom f.atom).elim []
          (fieldEdits a f)) ++ [.seal a]
    | _, _ => [.fail .badarg]

/-- The edits of a difference. -/
def deltaEdits (delta : Term) : List Edit := if delta.isList then delta.cells.flatMap itemEdits
    else [.fail .badarg]

def putSlotEdits (a : Addr) (kv : Term) : List Edit :=
  match kv.slot32? with
  | none => [.fail .badarg]
  | some (key, value) => [.slot a key none value]

def putItemEdits (head : Term) : List Edit :=
  match head.pair? with
  | none => [.fail .badarg]
  | some (addr, kvs) =>
    match addr.getAddress with
    | none => [.fail .badarg]
    | some a =>
      if kvs.isList then [.ensure a] ++ kvs.cells.flatMap (putSlotEdits a) ++
        [.seal a] else [.fail .badarg]

/-- The edits of a `storage_put_map` list. -/
def putMapEdits (updates : Term) : List Edit :=
  if updates.isList then updates.cells.flatMap putItemEdits else [.fail .badarg]

/-- The edits of a `put`. -/
def putEdits (addr nonce balance storage code : Term) : List Edit :=
  match addr.getAddress, nonce.getUint64, balance.getBalance, code.getCode with
  | some a, some nonce, some balance, some code =>
    if storage.isAtom .keep then [.ensure a, .fields a nonce balance code, .seal a]
    else
      match storage.storagePayload with
      | none => [.fail .badarg]
      | some tree => [.replace a ⟨nonce, balance, code, tree⟩, .seal a]
  | _, _, _, _ => [.fail .badarg]

def deleteEdits (addr : Term) : List Edit :=
  match addr.getAddress with
  | none => [.fail .badarg]
  | some a => [.erase a]

/-- A frozen map refuses every edit. -/
def View.writable (v : View) (es : List Edit) : List Edit := if v.frozen then [.fail .badarg] else es

/-! ## Running edits -/

variable {sha : Bytes → Word}

theorem View.run_append (v : View) (es fs : List Edit) :
    v.run sha (es ++ fs) = match v.run sha es with
      | (v, none) => v.run sha fs
      | (v, some f) => (v, some f) := by
  induction es generalizing v with
  | nil => rfl
  | cons e es ih =>
    rw [List.cons_append, View.run, View.run]
    cases v.edit sha e with
    | ok v => exact ih v
    | error f => rfl

theorem View.executed_append (v : View) (es fs : List Edit) :
    v.executed sha (es ++ fs) = v.executed sha es ++
      match v.run sha es with
      | (v, none) => v.executed sha fs
      | (_, some _) => [] := by
  induction es generalizing v with
  | nil => rfl
  | cons e es ih =>
    rw [List.cons_append, View.executed, View.executed, View.run]
    cases v.edit sha e with
    | ok v => dsimp only; rw [ih v]; rfl
    | error f => rfl

theorem View.get_update (v : View) (a b : Addr) (f : Account → Account) :
    (v.update a f).accounts.get b = if a = b then (v.accounts.get b).map f else v.accounts.get b := by
  unfold View.update
  cases h : v.accounts.get a with
  | none =>
    by_cases e : a = b
    · subst e; rw [if_pos rfl, h, Option.map_none]
    · rw [if_neg e]
  | some acc =>
    dsimp only
    rw [SMap.get_put]
    by_cases e : a = b
    · subst e; rw [if_pos rfl, if_pos rfl, h, Option.map_some]
    · rw [if_neg e, if_neg e]

@[simp] theorem View.update_trie (v : View) (a : Addr) (f : Account → Account) :
    (v.update a f).trie = v.trie := by
  unfold View.update
  cases v.accounts.get a <;> rfl

@[simp] theorem View.update_frozen (v : View) (a : Addr) (f : Account → Account) :
    (v.update a f).frozen = v.frozen := by
  unfold View.update
  cases v.accounts.get a <;> rfl

theorem View.update_of_get {v : View} {a : Addr} {acc : Account} (h : v.accounts.get a = some acc)
    (f : Account → Account) :
    v.update a f = { v with accounts := v.accounts.put a (f acc) } := by
  unfold View.update
  rw [h]

/-- Edits do not thaw or freeze a map. -/
theorem View.edit_frozen {v v' : View} {e : Edit} (h : v.edit sha e = .ok v') :
    v'.frozen = v.frozen := by
  cases e <;> simp only [View.edit] at h
  all_goals repeat' split at h
  all_goals cases h
  all_goals first | rfl | exact View.update_frozen ..

theorem View.run_frozen (v : View) (es : List Edit) : (v.run sha es).1.frozen = v.frozen := by
  induction es generalizing v with
  | nil => rfl
  | cons e es ih =>
    rw [View.run]
    cases h : v.edit sha e with
    | ok v' => exact (ih v').trans (View.edit_frozen h)
    | error f => rfl

/-! ## Views of a heap -/

/-- What holds a reference to a resource. -/
inductive Owner where
  | trie (m : Nat)
  | entry (m : Nat) (a : Addr)
  deriving DecidableEq

/-- The map an owner belongs to. -/
def Owner.map : Owner → Nat
  | trie m => m
  | entry m _ => m

namespace Heap

def own (h : Heap) : Owner → Option Nat
  | .trie m => (h.maps m).map SharedAccountMap.state_trie
  | .entry m a => (h.entry m a).bind AccountEntry.storage

/-- What an entry of the table says. -/
def account (h : Heap) (e : AccountEntry) : Account := ⟨e.nonce, e.balance, e.code, h.storageOf e⟩

def view (h : Heap) (m : Nat) : Option View :=
  (h.maps m).map fun s => ⟨s.frozen, h.res.tree s.state_trie, s.accounts.map h.account⟩

/-- The invariant of a heap: references are counted, two owners share a
resource only as accounts of different maps, an entry has one kind of storage,
and a cached root is the root of the slots it is cached for. -/
structure Ok (sha : Bytes → Word) (h : Heap) : Prop where
  held : h.res.Held h.own
  apart : ∀ o o' mt, h.own o = some mt → h.own o' = some mt →
    o = o' ∨ ∃ m a m' a', m ≠ m' ∧ o = .entry m a ∧ o' = .entry m' a'
  kind : ∀ m a e, h.entry m a = some e → e.storage ≠ none → e.compact_storage = none
  compact : ∀ m a e c, h.entry m a = some e → e.compact_storage = some c → ∃ cs, h.compacts c = some cs
  root : ∀ c cs w, h.compacts c = some cs → cs.root_hash = some w →
    w = (Tree.ofSlots cs.slots).rootHash sha
  freshCompact : ∀ c, h.nextCompact ≤ c → h.compacts c = none
  freshMap : ∀ m, h.nextMap ≤ m → h.maps m = none

/-- No other owner shares the storage of an account. -/
def Alone (h : Heap) (m : Nat) (a : Addr) : Prop :=
  ∀ o mt, h.own (.entry m a) = some mt → h.own o = some mt → o = .entry m a

end Heap
end Diode.L3
