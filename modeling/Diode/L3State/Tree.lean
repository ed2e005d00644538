import Diode.L2Trie.Isolation

/-!
# Storage and state tries as values

What the account map needs to know of a `Tree`: it is a finite map from keys
to words in which a zero word is the absence of the key. `Tree` carries both
facts, so two trees that read alike are equal (`Tree.ext`).

The pool, the sharing and the caches under it are the subject of `L2Trie`;
`maps_insertItem` and its companions say that the operations here are the
calls on a map of that layer.
-/
namespace Diode.L3
open Diode.Core Diode.L1.Ext Diode.L2

/-- The content of a `Tree`. -/
structure Tree where
  slots : SMap Bytes Word
  nonzero : ∀ k, slots.get k ≠ some 0

namespace Tree

instance : DecidableEq Tree := fun s t =>
  decidable_of_iff (s.slots = t.slots) ⟨fun h => by cases s; cases t; simpa using h, fun h => by rw [h]⟩

def empty : Tree := ⟨SMap.empty, fun _ h => by cases h⟩

/-- `get_item`, with the zero word for an absent key.
mirrors c_src/nif.cpp:1601-1607 -/
def read (t : Tree) (key : Bytes) : Word := (t.slots.get key).getD 0

/-- `insert_item`: a zero value deletes the key.
mirrors c_src/merkletree.cpp:310-323 -/
def insertItem (t : Tree) (key : Bytes) (value : Word) : Tree :=
  if h : value = 0 then
    ⟨t.slots.del key, fun k => by rw [SMap.get_del]; split; exacts [nofun, t.nonzero k]⟩
  else
    ⟨t.slots.put key value, fun k => by
      rw [SMap.get_put]; split; exacts [fun e => h (Option.some.inj e), t.nonzero k]⟩

/-- The pairs in key order; the source visits them in the order of the trie. -/
def pairs (t : Tree) : List Pair := t.slots.entries

def size (t : Tree) : Nat := t.pairs.length

/-- A tree filled slot by slot. -/
def ofSlots (slots : List Pair) : Tree := slots.foldl (fun t s => t.insertItem s.1 s.2) empty

/-- Pairs of `t` that `other` does not have, inserted into `into`.
mirrors c_src/merkletree.cpp:504-511 -/
def difference (t other into : Tree) : Tree :=
  t.pairs.foldl (fun out p => if other.read p.1 = p.2 then out else out.insertItem p.1 p.2) into

section
variable (sha : Bytes → Word)

/-- mirrors c_src/merkletree.cpp:399-407 -/
def rootHash (t : Tree) : Word := canonicalRoot sha t.pairs

/-- The sixteen hashes of the root node.
mirrors c_src/merkletree.cpp:409-413 -/
def rootHashes (t : Tree) : List Word := (shapeAt sha [] t.pairs).hashes sha []

def getProofs (t : Tree) (key : Bytes) : Proof := canonicalProof sha key t.pairs

end

/-! ## Reading -/

theorem get_eq {t : Tree} {k : Bytes} : t.slots.get k = if t.read k = 0 then none else some
    (t.read k) := by
  unfold read
  cases h : t.slots.get k with
  | none => rfl
  | some v =>
    have hv : v ≠ 0 := fun e => t.nonzero k (by rw [h, e])
    rw [Option.getD_some, if_neg hv]

/-- Trees that read alike are equal. -/
theorem ext {s t : Tree} (h : ∀ k, s.read k = t.read k) : s = t := by
  have : s.slots = t.slots := SMap.ext fun k => by rw [get_eq, get_eq, h]
  cases s; cases t; simpa using this

@[simp] theorem read_empty (k : Bytes) : empty.read k = 0 := rfl

theorem read_insertItem (t : Tree) (k j : Bytes) (v : Word) :
    (t.insertItem k v).read j = if k = j then v else t.read j := by
  unfold insertItem read
  split
  · rename_i h
    rw [SMap.get_del]
    split <;> simp [h]
  · rw [SMap.get_put]
    split <;> simp

theorem mem_pairs {t : Tree} {p : Pair} : p ∈ t.pairs ↔ t.read p.1 = p.2 ∧ p.2 ≠ 0 := by
  obtain ⟨k, v⟩ := p
  unfold pairs
  rw [SMap.mem_iff, get_eq]
  split
  · rename_i h
    simp only [reduceCtorEq, false_iff, not_and, not_not]
    exact fun e => e.symm.trans h
  · rename_i h
    simp only [Option.some.injEq]
    exact ⟨fun e => ⟨e, e ▸ h⟩, fun e => e.1⟩

/-- A write that changes nothing. -/
theorem insertItem_read {t : Tree} {k : Bytes} {v : Word} (h : t.read k = v) :
    t.insertItem k v = t := by
  apply ext
  intro j
  rw [read_insertItem]
  split
  · rename_i e; rw [← e, h]
  · rfl

theorem read_foldl_difference (other : Tree) (k : Bytes) : ∀ (l : List Pair) (out : Tree),
    Assoc.Sorted l →
    (l.foldl (fun out p => if other.read p.1 = p.2 then out else out.insertItem p.1 p.2) out).read k =
      match Assoc.get l k with
      | some v => if other.read k = v then out.read k else v
      | none => out.read k
  | [], out, _ => rfl
  | (j, w) :: l, out, hl => by
    obtain ⟨hp, hl⟩ := List.pairwise_cons.1 hl
    rw [List.foldl_cons, read_foldl_difference other k l _ hl, Assoc.get_cons]
    dsimp only
    by_cases e : j = k
    · subst e
      have hn : Assoc.get l j = none := Assoc.get_eq_none_iff.2 fun p hm => ne_of_gt (hp p hm)
      rw [hn, if_pos rfl]
      dsimp only
      by_cases h : other.read j = w
      · rw [if_pos h, if_pos h]
      · rw [if_neg h, if_neg h, read_insertItem, if_pos rfl]
    · rw [if_neg e]
      have hr : (if other.read j = w then out else out.insertItem j w).read k = out.read k := by
        split
        · rfl
        · rw [read_insertItem, if_neg e]
      rw [hr]

/-- Two calls of `difference` collect the keys on which the trees disagree. -/
theorem read_difference (s t into : Tree) (k : Bytes) :
    (s.difference t into).read k = if s.read k ≠ 0 ∧
      s.read k ≠ t.read k then s.read k else into.read k := by
  unfold difference pairs
  rw [read_foldl_difference _ _ _ _ s.slots.sorted]
  show (match s.slots.get k with | some v => _ | none => _) = _
  rw [get_eq]
  by_cases hz : s.read k = 0
  · rw [if_pos hz, if_neg fun h => h.1 hz]
  · rw [if_neg hz]
    dsimp only
    by_cases h : t.read k = s.read k
    · rw [if_pos h, if_neg fun h' => h'.2 h.symm]
    · rw [if_neg h, if_pos ⟨hz, fun e => h e.symm⟩]

theorem mem_differences {s t : Tree} {k : Bytes} :
    (∃ p ∈ (t.difference s (s.difference t empty)).pairs, p.1 = k) ↔ s.read k ≠ t.read k := by
  have hr : (t.difference s (s.difference t empty)).read k ≠ 0 ↔ s.read k ≠ t.read k := by
    rw [read_difference, read_difference, read_empty]
    by_cases hs : s.read k = 0 <;> by_cases ht : t.read k = 0 <;> simp_all [eq_comm]
  rw [← hr]
  refine ⟨?_, ?_⟩
  · intro hx
    obtain ⟨⟨j, v⟩, hp, rfl⟩ := hx
    obtain ⟨h1, h2⟩ := mem_pairs.1 hp
    rw [h1]; exact h2
  · intro h
    exact ⟨(k, _), mem_pairs.2 ⟨rfl, h⟩, rfl⟩

/-! ## The trees of `L2Trie` -/

variable {sha : Bytes → Word} {m : Maps} {t : TreeId} {c : Tree}

theorem pairs_insertItem (c : Tree) (k : Bytes) (v : Word) :
    (c.insertItem k v).pairs = putSlot c.pairs k v := by
  unfold insertItem putSlot pairs
  split <;> rfl

/-- `insert_item` on a pool tree that holds `c` leaves it holding `c.insertItem`. -/
theorem maps_insertItem (h : m.content t = some c.pairs) (k : Bytes) (v : Word) :
    m.step sha (.insertItem t k v) =
      some ({ m with content := Function.update m.content t (some (c.insertItem k v).pairs) }, .done) := by
  simp only [Maps.step, Op.tree, h, Option.map_some, Maps.effect, Maps.answer, pairs_insertItem]

theorem maps_copy (h : m.content t = some c.pairs) :
    m.step sha (.copy t) = some (⟨Function.update m.content m.next (some c.pairs), m.next + 1⟩,
      .tree m.next) := by
  simp only [Maps.step, Op.tree, h, Option.map_some, Maps.effect, Maps.answer]

theorem maps_rootHash (h : m.content t = some c.pairs) :
    m.step sha (.rootHash t) = some (m, .hash (c.rootHash sha)) := by
  simp only [Maps.step, Op.tree, h, Option.map_some, Maps.effect, Maps.answer, rootHash]

theorem maps_getProofs (h : m.content t = some c.pairs) (k : Bytes) :
    m.step sha (.getProofs t k) = some (m, .proof (c.getProofs sha k)) := by
  simp only [Maps.step, Op.tree, h, Option.map_some, Maps.effect, Maps.answer, getProofs]

theorem maps_destroy (h : m.content t = some c.pairs) :
    m.step sha (.destroy t) = some ({ m with content := Function.update m.content t none }, .done) := by
  simp only [Maps.step, Op.tree, h, Option.map_some, Maps.effect, Maps.answer]

theorem maps_each (h : m.content t = some c.pairs) :
    m.step sha (.each t) = some (m, .pairs c.pairs) := by
  simp only [Maps.step, Op.tree, h, Option.map_some, Maps.effect, Maps.answer]

theorem maps_getItem (h : m.content t = some c.pairs) (k : Bytes) :
    m.step sha (.getItem t k) = some (m, .value (if c.read k = 0 then none else some (c.read k))) := by
  simp only [Maps.step, Op.tree, h, Option.map_some, Maps.effect, Maps.answer, ← get_eq]
  rfl

end Tree
end Diode.L3
