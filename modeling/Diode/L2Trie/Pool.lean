import Mathlib.Logic.Function.Basic
import Diode.L2Trie.Canon

/-!
# `ItemPool` and `Tree`: tries with shared, reference-counted nodes

Model of c_src/item_pool.cpp and c_src/merkletree.cpp. Nodes live in one pool
and are named by `ItemId`; a `Tree` is a root id, and trees obtained from one
another by the copy constructor share the pool. `fork_for_write` clones a node
whose count is above one; `root_hash` collapses under-full nodes in place,
shared or not.

Every operation is an `Option`: `none` is a failed assertion, a `bits_t`
written past its 128 bits, or the read through a dangling `m_tree` pointer.
Recursion takes fuel; `FUEL` exceeds every path a 128-bit prefix allows.

Not modelled: the wrap-around of 32-bit ids and counts, the mutexes (every
operation runs under the owner's lock), the pair allocator.
-/
namespace Diode.L2
open Diode.Core Diode.L1.Ext

abbrev ItemId := Nat

def kItemNull : ItemId := 0

/-- The address of a `Tree` object; addresses are not reused. -/
abbrev TreeId := Nat

/-- mirrors c_src/merkletree.hpp:245-266 (`bits` is the member `prefix`) -/
structure Item where
  m_tree : TreeId
  is_leaf : Bool
  dirty : Bool
  hash_values : Option (List Word)
  hash_count : Nat
  bits : List Bool
  leaf_bucket : Option (List Pair)
  left_id : ItemId
  right_id : ItemId
  deriving DecidableEq, Repr

/-- mirrors c_src/merkletree.cpp:185-194 -/
def Item.new (tree : TreeId) : Item where
  m_tree := tree
  is_leaf := true
  dirty := true
  hash_values := none
  hash_count := 0
  bits := []
  leaf_bucket := some []
  left_id := kItemNull
  right_id := kItemNull

/-- `free_list` has its back first; `size` is `nodes.size()`.
mirrors c_src/item_pool.hpp:62-65 -/
structure ItemPool where
  nodes : ItemId → Option Item
  refcnt : ItemId → Nat
  free_list : List ItemId
  size : Nat

/-- Fuel for every recursion along a path of at most 128 bits. -/
def FUEL : Nat := 132

namespace ItemPool

/-- mirrors c_src/item_pool.cpp:8-17 -/
def make : ItemPool := ⟨fun _ => none, fun _ => 0, [], 1⟩

def setItem (p : ItemPool) (id : ItemId) (it : Item) : ItemPool :=
  { p with nodes := Function.update p.nodes id (some it) }

def setRef (p : ItemPool) (id : ItemId) (n : Nat) : ItemPool :=
  { p with refcnt := Function.update p.refcnt id n }

/-- mirrors c_src/item_pool.cpp:44-54 -/
def incrRef (p : ItemPool) (id : ItemId) : ItemPool :=
  if id = kItemNull then p else p.setRef id (p.refcnt id + 1)

/-- `nodes[id].reset(); free_list.push_back(id)`. -/
def free (p : ItemPool) (id : ItemId) : ItemPool :=
  { p with nodes := Function.update p.nodes id none, free_list := id :: p.free_list }

/-- mirrors c_src/item_pool.cpp:56-73 -/
def decrRef : Nat → ItemPool → ItemId → Option ItemPool
  | 0, _, _ => none
  | fuel + 1, p, id =>
    if id = kItemNull then some p
    else if p.refcnt id = 0 then none
    else if 0 < p.refcnt id - 1 then some (p.setRef id (p.refcnt id - 1))
    else do
      let it ← p.nodes id
      let p ← decrRef fuel (p.setRef id (p.refcnt id - 1)) it.left_id
      let p ← decrRef fuel p it.right_id
      some (p.free id)

/-- mirrors c_src/item_pool.cpp:75-94 -/
def allocLeaf (p : ItemPool) (tree : TreeId) : ItemId × ItemPool :=
  match p.free_list with
  | id :: rest => (id, { (p.setItem id (Item.new tree)).setRef id 0 with free_list := rest })
  | [] => (p.size, { (p.setItem p.size (Item.new tree)).setRef p.size 0 with size := p.size + 1 })

/-- mirrors c_src/item_pool.cpp:96-101 -/
def createRoot (p : ItemPool) (tree : TreeId) : ItemId × ItemPool :=
  ((p.allocLeaf tree).1, (p.allocLeaf tree).2.incrRef (p.allocLeaf tree).1)

/-- mirrors c_src/item_pool.cpp:103-110 -/
def isUnique (p : ItemPool) (id : ItemId) : Bool := id = kItemNull || p.refcnt id ≤ 1

/-- mirrors c_src/item_pool.cpp:112-136 -/
def cloneForFork (p : ItemPool) (id : ItemId) (tree : TreeId) : Option (ItemId × ItemPool) := do
  let src ← p.nodes id
  let (nid, p) := p.allocLeaf tree
  let p := p.setItem nid { Item.new tree with
    is_leaf := src.is_leaf
    dirty := true
    hash_count := src.hash_count
    bits := src.bits
    hash_values := src.hash_values
    leaf_bucket := src.leaf_bucket
    left_id := src.left_id
    right_id := src.right_id }
  some (nid, (p.incrRef src.left_id).incrRef src.right_id)

/-- mirrors c_src/item_pool.cpp:138-147 -/
def setLeft (p : ItemPool) (parent child : ItemId) : Option ItemPool := do
  let it ← p.nodes parent
  if it.left_id = child then some p
  else do
    let p ← p.decrRef FUEL it.left_id
    some ((p.setItem parent { it with left_id := child }).incrRef child)

/-- mirrors c_src/item_pool.cpp:149-158 -/
def setRight (p : ItemPool) (parent child : ItemId) : Option ItemPool := do
  let it ← p.nodes parent
  if it.right_id = child then some p
  else do
    let p ← p.decrRef FUEL it.right_id
    some ((p.setItem parent { it with right_id := child }).incrRef child)

end ItemPool

open ItemPool

/-- `bits_t::push_back`; a 129th bit is written past `m_value`.
mirrors c_src/merkletree.hpp:51-62 -/
def pushBack (bits : List Bool) (b : Bool) : Option (List Bool) :=
  if bits.length < MAX_BITS then some (bits ++ [b]) else none

/-- `Item::ensure_hashes`.
mirrors c_src/merkletree.cpp:205-210 -/
def ensureHashes (p : ItemPool) (id : ItemId) : Option (ItemPool × List Word) := do
  let it ← p.nodes id
  match it.hash_values with
  | some hv => some (p, hv)
  | none => some (p.setItem id { it with hash_values := some (List.replicate LEAF_SIZE 0) },
      List.replicate LEAF_SIZE 0)

/-- mirrors c_src/merkletree.cpp:212-220 -/
def forkForWrite (tree : TreeId) (p : ItemPool) (id : ItemId) : Option (ItemId × ItemPool) :=
  if id = kItemNull then some (id, p)
  else if p.isUnique id then some (id, p)
  else p.cloneForFork id tree

/-- `Item::each`.
mirrors c_src/merkletree.cpp:222-231 -/
def each : Nat → ItemPool → ItemId → Option (List Pair)
  | 0, _, _ => none
  | fuel + 1, p, id => do
    let it ← p.nodes id
    if it.is_leaf then it.leaf_bucket
    else do
      let l ← each fuel p it.left_id
      let r ← each fuel p it.right_id
      some (l ++ r)

section
variable (sha : Bytes → Word)

/-- mirrors c_src/merkletree.cpp:274-308 -/
def splitNode (tree : TreeId) : Nat → ItemPool → ItemId → Option ItemPool
  | 0, _, _ => none
  | fuel + 1, p, id => do
    let t ← p.nodes id
    let bucket ← t.leaf_bucket
    if bucket.length ≤ LEAF_SIZE then some p
    else do
      let (L, p) := p.allocLeaf tree
      let (R, p) := p.allocLeaf tree
      let lbits ← pushBack t.bits false
      let rbits ← pushBack t.bits true
      let p := p.setItem L { Item.new tree with
        bits := lbits, leaf_bucket := some (half sha false t.bits.length bucket) }
      let p := p.setItem R { Item.new tree with
        bits := rbits, leaf_bucket := some (half sha true t.bits.length bucket) }
      let p ← splitNode tree fuel p L
      let p ← splitNode tree fuel p R
      let p := p.setItem id { t with leaf_bucket := none, is_leaf := false, dirty := true }
      let p ← p.setLeft id L
      p.setRight id R

/-- mirrors c_src/merkletree.cpp:249-272 -/
def insertPath (tree : TreeId) (key : Bytes) (value : Word) :
    Nat → ItemPool → ItemId → Option (ItemId × ItemPool)
  | 0, _, _ => none
  | fuel + 1, p, id => do
    let (id, p) ← forkForWrite tree p id
    let node ← p.nodes id
    if node.is_leaf then do
      let bucket ← node.leaf_bucket
      if value = 0 then
        some (id, p.setItem id { node with leaf_bucket := some (Assoc.del bucket key), dirty := true })
      else do
        let p := p.setItem id { node with leaf_bucket := some (Assoc.put bucket key value) }
        let p ← splitNode sha tree FUEL p id
        let node ← p.nodes id
        some (id, p.setItem id { node with dirty := true })
    else if hashBit sha key node.bits.length then do
      let (newR, p) ← insertPath tree key value fuel p node.right_id
      let p ← p.setRight id newR
      let node ← p.nodes id
      some (id, p.setItem id { node with dirty := true })
    else do
      let (newL, p) ← insertPath tree key value fuel p node.left_id
      let p ← p.setLeft id newL
      let node ← p.nodes id
      some (id, p.setItem id { node with dirty := true })

/-- `live` says which `Tree` objects exist: the collapse reads
`it.m_tree->m_pair_allocator`.
mirrors c_src/merkletree.cpp:353-397 -/
def updateMerkleHashCount (live : TreeId → Bool) (tree : TreeId) :
    Nat → ItemPool → ItemId → Option ItemPool
  | 0, _, _ => none
  | fuel + 1, p, id =>
    if id = kItemNull then some p
    else do
      let it ← p.nodes id
      if !it.dirty then some p
      else if it.is_leaf then do
        let bucket ← it.leaf_bucket
        if LEAF_SIZE < bucket.length then do
          let p ← splitNode sha tree FUEL p id
          let p ← updateMerkleHashCount live tree fuel p id
          let it ← p.nodes id
          some (p.setItem id { it with dirty := false })
        else
          some (p.setItem id { it with
            hash_values := some (bucketToLeafes sha it.bits bucket)
            hash_count := bucket.length
            dirty := false })
      else do
        let p ← updateMerkleHashCount live tree fuel p it.left_id
        let it ← p.nodes id
        let p ← updateMerkleHashCount live tree fuel p it.right_id
        let it ← p.nodes id
        let left ← p.nodes it.left_id
        let right ← p.nodes it.right_id
        if left.hash_count + right.hash_count ≤ LEAF_SIZE then do
          -- `new pair_list_t(*it.m_tree)` when the node has no bucket
          if it.leaf_bucket.isNone && !live it.m_tree then none
          else do
            let pairs ← each FUEL p id
            let bucket := pairs.foldl (fun b q => Assoc.put b q.1 q.2) (it.leaf_bucket.getD [])
            let p := p.setItem id { it with
              leaf_bucket := some bucket, hash_count := left.hash_count + right.hash_count }
            let p ← p.setLeft id kItemNull
            let p ← p.setRight id kItemNull
            let it ← p.nodes id
            some (p.setItem id { it with
              is_leaf := true
              hash_values := some (bucketToLeafes sha it.bits bucket)
              dirty := false })
        else do
          let (p, lh) ← ensureHashes p it.left_id
          let (p, rh) ← ensureHashes p it.right_id
          some (p.setItem id { it with
            hash_values := some (nodeHashes sha lh rh)
            hash_count := left.hash_count + right.hash_count
            dirty := false })

/-- mirrors c_src/merkletree.cpp:488-497 -/
def getBucket (key : Bytes) : Nat → ItemPool → ItemId → Option (List Pair)
  | 0, _, _ => none
  | fuel + 1, p, id => do
    let it ← p.nodes id
    if it.is_leaf then it.leaf_bucket
    else if hashBit sha key it.bits.length then getBucket key fuel p it.right_id
    else getBucket key fuel p it.left_id

/-- mirrors c_src/merkletree.cpp:445-474 -/
def doGetProofs (live : TreeId → Bool) (tree : TreeId) (key : Bytes) :
    Nat → ItemPool → ItemId → Option (ItemPool × Proof)
  | 0, _, _ => none
  | fuel + 1, p, id => do
    let it ← p.nodes id
    if it.is_leaf then do
      let bucket ← it.leaf_bucket
      let i := hashToLeafindex sha key
      some (p, .term (leafExt it.bits i (bucketToLeaf sha bucket i)))
    else do
      let p ← updateMerkleHashCount sha live tree FUEL p it.left_id
      let p ← updateMerkleHashCount sha live tree FUEL p it.right_id
      let (p, rl) ← ensureHashes p it.right_id
      let (p, ll) ← ensureHashes p it.left_id
      let idx := hashToLeafindex sha key
      if hashBit sha key it.bits.length then do
        let l ← ll[idx]?
        let (p, r) ← doGetProofs live tree key fuel p it.right_id
        some (p, .pair (.hash l) r)
      else do
        let r ← rl[idx]?
        let (p, l) ← doGetProofs live tree key fuel p it.left_id
        some (p, .pair l (.hash r))

end

/-- The trees that share one pool; `trees t` is `root_id`. -/
structure World where
  pool : ItemPool
  trees : TreeId → Option ItemId
  next : TreeId

/-- `Tree()`: a fresh pool with one root.
mirrors c_src/merkletree.cpp:233-236 -/
def World.init : World :=
  ⟨(ItemPool.make.createRoot 0).2, Function.update (fun _ => none) 0
    (some (ItemPool.make.createRoot 0).1), 1⟩

def World.live (w : World) (t : TreeId) : Bool := (w.trees t).isSome

inductive Op where
  | insertItem (t : TreeId) (key : Bytes) (value : Word)
  | getItem (t : TreeId) (key : Bytes)
  | each (t : TreeId)
  | size (t : TreeId)
  | rootHash (t : TreeId)
  | getProofs (t : TreeId) (key : Bytes)
  | copy (t : TreeId)
  | destroy (t : TreeId)
  deriving DecidableEq, Repr

/-- What an operation returns. -/
inductive Obs where
  | done
  | value (v : Option Word)
  | pairs (l : List Pair)
  | count (n : Nat)
  | hash (h : Word)
  | proof (p : Proof)
  | tree (t : TreeId)
  deriving DecidableEq, Repr

def Op.tree : Op → TreeId
  | .insertItem t _ _ | .getItem t _ | .each t | .size t | .rootHash t | .getProofs t _ | .copy
      t | .destroy t => t

section
variable (sha : Bytes → Word)

/-- mirrors c_src/merkletree.cpp:315-323 -/
def insertItem (w : World) (t : TreeId) (key : Bytes) (value : Word) : Option World := do
  let root ← w.trees t
  let (new_root, p) ← insertPath sha t key value FUEL w.pool root
  if new_root ≠ root then do
    let p ← p.decrRef FUEL root
    some { w with pool := p.incrRef new_root, trees := Function.update w.trees t (some new_root) }
  else some { w with pool := p }

/-- mirrors c_src/merkletree.cpp:399-407 -/
def rootHash (w : World) (t : TreeId) : Option (World × Word) := do
  let root ← w.trees t
  let p ← updateMerkleHashCount sha w.live t FUEL w.pool root
  let (p, hv) ← ensureHashes p root
  some ({ w with pool := p }, sha (listExt hv))

/-- mirrors c_src/merkletree.cpp:476-481 -/
def getProofs (w : World) (t : TreeId) (key : Bytes) : Option (World × Proof) := do
  let root ← w.trees t
  let p ← updateMerkleHashCount sha w.live t FUEL w.pool root
  let (p, proof) ← doGetProofs sha w.live t key FUEL p root
  some ({ w with pool := p }, proof)

/-- One call on the tree `op.tree`; `none` also when that tree does not exist. -/
def step (w : World) : Op → Option (World × Obs)
  | .insertItem t key value => do
    let w ← insertItem sha w t key value
    some (w, .done)
  | .getItem t key => do
    let root ← w.trees t
    let bucket ← getBucket sha key FUEL w.pool root
    some (w, .value (Assoc.get bucket key))
  | .each t => do
    let root ← w.trees t
    let l ← each FUEL w.pool root
    some (w, .pairs l)
  | .size t => do
    let root ← w.trees t
    let l ← each FUEL w.pool root
    some (w, .count l.length)
  | .rootHash t => do
    let (w, h) ← rootHash sha w t
    some (w, .hash h)
  | .getProofs t key => do
    let (w, proof) ← getProofs sha w t key
    some (w, .proof proof)
  | .copy t => do
    let root ← w.trees t
    some (⟨w.pool.incrRef root, Function.update w.trees w.next (some root), w.next + 1⟩, .tree w.next)
  | .destroy t => do
    let root ← w.trees t
    let p ← w.pool.decrRef FUEL root
    some ({ w with pool := p, trees := Function.update w.trees t none }, .done)

/-- A sequence of calls with what they returned. -/
def run (w : World) : List Op → Option (World × List Obs)
  | [] => some (w, [])
  | op :: ops => do
    let (w, o) ← step sha w op
    let (w, os) ← run w ops
    some (w, o :: os)

end
end Diode.L2
