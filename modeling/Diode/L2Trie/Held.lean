import Diode.Core.Refs
import Diode.L2Trie.Pool

/-!
# The reference counts of an `ItemPool`

A slot is a place that holds an `ItemId`: the `root_id` of a tree, or a child
field of a node. `Held` says that the counts are the numbers of slots, that
free nodes hold and are held by nothing, and that a child's prefix extends its
parent's by one bit, which bounds every recursion.

* `decrRef_spec`: dropping a reference frees only nodes that no slot refers to
  any more, all of them below the dropped node, and leaves every other node
  as it was.
* `setKid_spec`: `set_left` and `set_right` redirect one slot.
* `allocLeaf_spec`, `cloneForFork_spec`.
-/
namespace Diode.L2
open Diode.Core ItemPool

inductive Slot where
  | root (t : TreeId)
  | kid (j : ItemId) (b : Bool)
  deriving DecidableEq

/-- The child on side `b`. -/
def Item.kid (it : Item) (b : Bool) : ItemId := if b then it.right_id else it.left_id

def Item.setKid (it : Item) (b : Bool) (c : ItemId) : Item :=
  if b then { it with right_id := c } else { it with left_id := c }

/-- `set_left` or `set_right`. -/
def setKid (b : Bool) (p : ItemPool) (parent child : ItemId) : Option ItemPool := do
  let it ← p.nodes parent
  if it.kid b = child then some p
  else do
    let p ← p.decrRef FUEL (it.kid b)
    some ((p.setItem parent (it.setKid b child)).incrRef child)

theorem setLeft_eq (p : ItemPool) (j c : ItemId) : p.setLeft j c = setKid false p j c := rfl

theorem setRight_eq (p : ItemPool) (j c : ItemId) : p.setRight j c = setKid true p j c := rfl

section
variable (it : Item) (b : Bool) (c : ItemId)

@[simp] theorem setKid_bits : (it.setKid b c).bits = it.bits := by cases b <;> rfl
@[simp] theorem setKid_is_leaf : (it.setKid b c).is_leaf = it.is_leaf := by cases b <;> rfl
@[simp] theorem setKid_dirty : (it.setKid b c).dirty = it.dirty := by cases b <;> rfl
@[simp] theorem setKid_leaf_bucket : (it.setKid b c).leaf_bucket = it.leaf_bucket := by cases b <;> rfl
@[simp] theorem setKid_hash_values : (it.setKid b c).hash_values = it.hash_values := by cases b <;> rfl
@[simp] theorem setKid_hash_count : (it.setKid b c).hash_count = it.hash_count := by cases b <;> rfl
@[simp] theorem setKid_m_tree : (it.setKid b c).m_tree = it.m_tree := by cases b <;> rfl
@[simp] theorem setKid_kid : (it.setKid b c).kid b = c := by cases b <;> rfl
@[simp] theorem setKid_kid_not : (it.setKid b c).kid (!b) = it.kid (!b) := by cases b <;> rfl

end

section
variable (p : ItemPool) (id : ItemId)

@[simp] theorem setItem_nodes (it : Item) : (p.setItem id it).nodes = Function.update p.nodes id
    (some it) := rfl
theorem setItem_self (it : Item) : (p.setItem id it).nodes id = some it := by
  rw [setItem_nodes, Function.update_self]
@[simp] theorem setItem_refcnt (it : Item) : (p.setItem id it).refcnt = p.refcnt := rfl
@[simp] theorem setItem_free_list (it : Item) : (p.setItem id it).free_list = p.free_list := rfl
@[simp] theorem setItem_size (it : Item) : (p.setItem id it).size = p.size := rfl
@[simp] theorem setRef_nodes (n : Nat) : (p.setRef id n).nodes = p.nodes := rfl
@[simp] theorem setRef_refcnt (n : Nat) : (p.setRef id n).refcnt = Function.update p.refcnt id n := rfl
@[simp] theorem setRef_free_list (n : Nat) : (p.setRef id n).free_list = p.free_list := rfl
@[simp] theorem setRef_size (n : Nat) : (p.setRef id n).size = p.size := rfl
@[simp] theorem free_nodes : (p.free id).nodes = Function.update p.nodes id none := rfl
@[simp] theorem free_refcnt : (p.free id).refcnt = p.refcnt := rfl
@[simp] theorem free_free_list : (p.free id).free_list = id :: p.free_list := rfl
@[simp] theorem free_size : (p.free id).size = p.size := rfl

@[simp] theorem incrRef_nodes : (p.incrRef id).nodes = p.nodes := by
  unfold incrRef; split <;> rfl

end

/-- The node `c` stands where slot `s` says: at the root with no bits, or one
bit below the node that holds the slot. -/
def Placed (p : ItemPool) (c : Item) : Slot → Prop
  | .root _ => c.bits = []
  | .kid j b => ∃ it, p.nodes j = some it ∧ c.bits = it.bits ++ [b]

/-- `E` is what the slots hold. The nodes of `X` are being released or
relinked: their fields may differ from their slots. `pend` is an id whose
count is still one too high, or 0. -/
structure Held (X : ItemId → Prop) (pend : ItemId) (p : ItemPool) (E : Slot → ItemId) : Prop where
  null : p.nodes 0 = none
  counted : ∀ i, i ≠ 0 → Counts E i (if i = pend then p.refcnt i - 1 else p.refcnt i)
  pending : pend ≠ 0 → 0 < p.refcnt pend
  link : ∀ j it, p.nodes j = some it → ¬X j → ∀ b, E (.kid j b) = it.kid b
  dead : ∀ j, p.nodes j = none → p.refcnt j = 0 ∧ ∀ b, E (.kid j b) = 0
  slot : ∀ s, E s ≠ 0 → ∃ c, p.nodes (E s) = some c ∧ Placed p c s
  bounded : ∀ j it, p.nodes j = some it → it.bits.length ≤ MAX_BITS
  free : ∀ j ∈ p.free_list, j ≠ 0 ∧ j < p.size ∧ p.nodes j = none
  freeNodup : p.free_list.Nodup
  fresh : ∀ j, p.size ≤ j → p.nodes j = none
  size_pos : 0 < p.size

namespace Held
variable {X Y : ItemId → Prop} {pend id : ItemId} {p : ItemPool} {E : Slot → ItemId}

theorem ne_zero (h : Held X pend p E) {j : ItemId} {it : Item} (hj : p.nodes j = some it) : j ≠ 0 := by
  intro e
  rw [e, h.null] at hj
  cases hj

theorem counts (h : Held X 0 p E) {i : ItemId} (hi : i ≠ 0) : Counts E i (p.refcnt i) := by
  have := h.counted i hi
  rwa [if_neg hi] at this

theorem weaken (h : Held X pend p E) (hY : ∀ j, X j → Y j) : Held Y pend p E :=
  { h with link := fun j it hj hy => h.link j it hj fun hx => hy (hY j hx) }

/-- Back to `X`, when the slots of the other nodes agree with their fields. -/
theorem restore (h : Held Y pend p E)
    (hY : ∀ j it, Y j → ¬X j → p.nodes j = some it → ∀ b, E (.kid j b) = it.kid b) :
      Held X pend p E := by
  refine { h with link := ?_ }
  intro j it hj hx b
  by_cases hy : Y j
  · exact hY j it hy hx hj b
  · exact h.link j it hj hy b

/-- The count that was pending is taken down. -/
theorem settle (h : Held X id p E) {it : Item} (hid : p.nodes id = some it) :
    Held X 0 (p.setRef id (p.refcnt id - 1)) E := by
  have h0 := h.ne_zero hid
  refine { h with counted := ?_, pending := fun e => absurd rfl e, dead := ?_ }
  · intro i hi
    have := h.counted i hi
    rw [if_neg hi, setRef_refcnt]
    by_cases e : i = id
    · subst e; simpa using this
    · simpa [e, Function.update_of_ne e] using this
  · intro j hj
    have hne : j ≠ id := by
      intro e
      rw [setRef_nodes, e, hid] at hj
      cases hj
    simpa [Function.update_of_ne hne] using h.dead j hj

/-- A slot lets go; its target's count is now pending. -/
theorem release (h : Held X 0 p E) {s : Slot} (hs : ∀ j b, s = .kid j b → X j) :
    Held X (E s) p (Function.update E s 0) := by
  refine { h with counted := ?_, pending := ?_, link := ?_, dead := ?_, slot := ?_ }
  · intro i hi
    have hc := h.counts hi
    by_cases e : i = E s
    · rw [if_pos e]
      exact hc.lose e.symm hi.symm
    · rw [if_neg e]
      exact hc.keep (Ne.symm e) hi.symm
  · intro h0
    exact (h.counts h0).pos rfl
  · intro j it hj hx b
    rw [Function.update_of_ne]
    · exact h.link j it hj hx b
    · intro e
      exact hx (hs j b e.symm)
  · intro j hj
    refine ⟨(h.dead j hj).1, fun b => ?_⟩
    by_cases e : Slot.kid j b = s
    · rw [e, Function.update_self]
    · rw [Function.update_of_ne e]; exact (h.dead j hj).2 b
  · intro t ht
    have e : t ≠ s := by
      intro e; rw [e, Function.update_self] at ht; exact ht rfl
    rw [Function.update_of_ne e] at ht ⊢
    exact h.slot t ht

/-- An empty slot takes hold of `c`. -/
theorem take (h : Held X 0 p E) {s : Slot} (hs : ∀ j b, s = .kid j b → X j) (h0 : E s = 0) {c : ItemId}
    (hc : c ≠ 0 → ∃ it, p.nodes c = some it ∧ Placed p it s) :
    Held X 0 (p.incrRef c) (Function.update E s c) := by
  by_cases hz : c = 0
  · subst hz
    rw [← h0, Function.update_eq_self]
    simpa [incrRef, kItemNull, h0] using h
  obtain ⟨it, hit, hpl⟩ := hc hz
  have hp : p.incrRef c = p.setRef c (p.refcnt c + 1) := by simp [incrRef, kItemNull, hz]
  rw [hp]
  refine { h with counted := ?_, pending := fun e => absurd rfl e, link := ?_, dead := ?_, slot := ?_ }
  · intro i hi
    have hcn := h.counts hi
    rw [if_neg hi, setRef_refcnt]
    by_cases e : i = c
    · subst e
      rw [Function.update_self]
      exact hcn.gain (by rw [h0]; exact hi.symm)
    · rw [Function.update_of_ne e]
      exact hcn.keep (by rw [h0]; exact hi.symm) (Ne.symm e)
  · intro j jt hj hx b
    rw [Function.update_of_ne]
    · exact h.link j jt hj hx b
    · intro e
      exact hx (hs j b e.symm)
  · intro j hj
    rw [setRef_nodes] at hj
    have hne : j ≠ c := by
      intro e
      rw [e, hit] at hj
      cases hj
    rw [setRef_refcnt, Function.update_of_ne hne]
    refine ⟨(h.dead j hj).1, fun b => ?_⟩
    rw [Function.update_of_ne]
    · exact (h.dead j hj).2 b
    · intro e
      subst e
      obtain ⟨o, ho, -⟩ := hpl
      rw [ho] at hj
      cases hj
  · intro t ht
    by_cases e : t = s
    · subst e
      rw [Function.update_self]
      refine ⟨it, hit, ?_⟩
      cases t <;> exact hpl
    · rw [Function.update_of_ne e] at ht ⊢
      obtain ⟨d, hd, hpd⟩ := h.slot t ht
      refine ⟨d, hd, ?_⟩
      cases t <;> exact hpd

/-- A node's fields change, its prefix and its slots do not. -/
theorem setItem (h : Held X 0 p E) {it it' : Item} (hid : p.nodes id = some it)
    (hb : it'.bits = it.bits)
    (hk : ¬X id → ∀ b, it'.kid b = it.kid b) : Held X 0 (p.setItem id it') E := by
  have hsome : ∀ j, (p.setItem id it').nodes j = none ↔ p.nodes j = none := by
    intro j
    rw [setItem_nodes]
    by_cases e : j = id
    · subst e; simp [hid]
    · rw [Function.update_of_ne e]
  have hplace : ∀ j jt, p.nodes j = some jt → ∃ jt', (p.setItem id it').nodes j = some jt' ∧
    jt'.bits = jt.bits := by
    intro j jt hj
    rw [setItem_nodes]
    by_cases e : j = id
    · subst e
      rw [hid] at hj
      cases hj
      exact ⟨it', by simp, hb⟩
    · exact ⟨jt, by rw [Function.update_of_ne e]; exact hj, rfl⟩
  refine { h with null := (hsome 0).2 h.null, link := ?_, dead := ?_, slot := ?_, bounded := ?_, free := ?_, fresh := ?_ }
  · intro j jt hj hx b
    rw [setItem_nodes] at hj
    by_cases e : j = id
    · subst e
      simp only [Function.update_self, Option.some.injEq] at hj
      subst hj
      rw [hk hx b]
      exact h.link j it hid hx b
    · rw [Function.update_of_ne e] at hj
      exact h.link j jt hj hx b
  · intro j hj
    exact h.dead j ((hsome j).1 hj)
  · intro s hs
    obtain ⟨c, hc, hpl⟩ := h.slot s hs
    obtain ⟨c', hc', hcb⟩ := hplace _ _ hc
    refine ⟨c', hc', ?_⟩
    cases s with
    | root t => exact hcb.trans hpl
    | kid j b =>
      obtain ⟨o, ho, hob⟩ := hpl
      obtain ⟨o', ho', hob'⟩ := hplace _ _ ho
      exact ⟨o', ho', by rw [hcb, hob, hob']⟩
  · intro j jt hj
    rw [setItem_nodes] at hj
    by_cases e : j = id
    · subst e
      simp only [Function.update_self, Option.some.injEq] at hj
      subst hj
      rw [hb]
      exact h.bounded j it hid
    · rw [Function.update_of_ne e] at hj
      exact h.bounded j jt hj
  · intro j hj
    obtain ⟨h1, h2, h3⟩ := h.free j hj
    exact ⟨h1, h2, (hsome j).2 h3⟩
  · intro j hj
    exact (hsome j).2 (h.fresh j hj)

/-- A node that nothing refers to is filled in. -/
theorem setFresh (h : Held X 0 p E) {it it' : Item} (hid : p.nodes id = some it) (h0 : p.refcnt id = 0)
    (hE : ∀ b, E (.kid id b) = 0) (hb : it'.bits.length ≤ MAX_BITS) (hk : ¬X id → ∀ b, it'.kid b = 0) :
    Held X 0 (p.setItem id it') E := by
  have hz := h.ne_zero hid
  have hother : ∀ {j}, j ≠ id → (p.setItem id it').nodes j = p.nodes j := fun e => by
    rw [setItem_nodes, Function.update_of_ne e]
  have hself : (p.setItem id it').nodes id = some it' := by rw [setItem_nodes, Function.update_self]
  have hnone : ∀ s, E s ≠ id := by
    have := h.counts hz
    rw [h0] at this
    exact Counts.zero_iff.1 this
  refine { h with null := ?_, link := ?_, dead := ?_, slot := ?_, bounded := ?_, free := ?_, fresh := ?_ }
  · rw [hother (Ne.symm hz)]; exact h.null
  · intro j jt hj hx b
    by_cases e : j = id
    · subst e
      rw [hself, Option.some.injEq] at hj
      rw [← hj, hk hx b, hE b]
    · rw [hother e] at hj
      exact h.link j jt hj hx b
  · intro j hj
    by_cases e : j = id
    · subst e; rw [hself] at hj; cases hj
    · rw [hother e] at hj
      exact h.dead j hj
  · intro s hs
    obtain ⟨c, hc, hpl⟩ := h.slot s hs
    refine ⟨c, by rw [hother (hnone s)]; exact hc, ?_⟩
    cases s with
    | root t => exact hpl
    | kid j b =>
      obtain ⟨o, ho, hob⟩ := hpl
      have hj : j ≠ id := fun e => by rw [e] at hs; exact hs (hE b)
      exact ⟨o, by rw [hother hj]; exact ho, hob⟩
  · intro j jt hj
    by_cases e : j = id
    · subst e
      rw [hself, Option.some.injEq] at hj
      rw [← hj]; exact hb
    · rw [hother e] at hj
      exact h.bounded j jt hj
  · intro j hj
    obtain ⟨a, b, c⟩ := h.free j hj
    have e : j ≠ id := fun e => by rw [e, hid] at c; cases c
    exact ⟨a, b, by rw [hother e]; exact c⟩
  · intro j hj
    have e : j ≠ id := fun e => by have := h.fresh j hj; rw [e, hid] at this; cases this
    rw [hother e]; exact h.fresh j hj

/-- A child is one bit below its parent. -/
theorem kid_node (h : Held X pend p E) {it : Item} {b : Bool} (hid : p.nodes id = some it)
    (h0 : E (.kid id b) ≠ 0) :
    ∃ c, p.nodes (E (.kid id b)) = some c ∧ c.bits = it.bits ++ [b] := by
  obtain ⟨c, hc, o, ho, hb⟩ := h.slot _ h0
  rw [hid] at ho
  cases ho
  exact ⟨c, hc, hb⟩

/-- A node that nothing refers to, with empty slots, goes to the free list. -/
theorem freeNode (h : Held (fun j => X j ∨ j = id) 0 p E) {it : Item} (hid : p.nodes id = some it)
    (h0 : p.refcnt id = 0) (hk : ∀ b, E (.kid id b) = 0) : Held X 0 (p.free id) E := by
  have hz := h.ne_zero hid
  have hnodes : ∀ {j}, j ≠ id → (p.free id).nodes j = p.nodes j := fun e => by
    rw [free_nodes, Function.update_of_ne e]
  have hnone : ∀ s, E s ≠ id := by
    have := h.counts hz
    rw [h0] at this
    exact Counts.zero_iff.1 this
  refine { h with
    null := ?_, counted := h.counted, pending := h.pending, link := ?_, dead := ?_, slot :=
      ?_, bounded := ?_,
    free := ?_, freeNodup := ?_, fresh := ?_ }
  · rw [hnodes (Ne.symm hz)]; exact h.null
  · intro j c hj hx b
    by_cases e : j = id
    · subst e; simp at hj
    · rw [hnodes e] at hj
      exact h.link j c hj (fun hx' => hx'.elim hx e) b
  · intro j hj
    by_cases e : j = id
    · subst e; exact ⟨h0, hk⟩
    · rw [hnodes e] at hj
      exact h.dead j hj
  · intro s hs
    obtain ⟨c, hc, hpl⟩ := h.slot s hs
    refine ⟨c, by rw [hnodes (hnone s)]; exact hc, ?_⟩
    cases s with
    | root t => exact hpl
    | kid j b =>
      obtain ⟨o, ho, hob⟩ := hpl
      have hj : j ≠ id := by
        intro e; subst e; exact hs (hk b)
      exact ⟨o, by rw [hnodes hj]; exact ho, hob⟩
  · intro j c hj
    by_cases e : j = id
    · subst e; simp at hj
    · rw [hnodes e] at hj
      exact h.bounded j c hj
  · intro j hj
    rw [free_free_list] at hj
    rcases List.mem_cons.1 hj with rfl | hj
    · refine ⟨hz, ?_, by simp⟩
      by_contra hge
      have := h.fresh j (Nat.le_of_not_lt hge)
      rw [hid] at this
      cases this
    · obtain ⟨a, b, c⟩ := h.free j hj
      refine ⟨a, b, ?_⟩
      by_cases e : j = id
      · subst e; simp
      · rw [hnodes e]; exact c
  · rw [free_free_list, List.nodup_cons]
    refine ⟨fun hm => ?_, h.freeNodup⟩
    have := (h.free id hm).2.2
    rw [hid] at this
    cases this
  · intro j hj
    by_cases e : j = id
    · subst e; simp
    · rw [hnodes e]; exact h.fresh j hj

end Held

/-! ## `decr_ref` -/

/-- What letting go of a node with prefix `bits` may change: nodes below it
are freed, and the slots of freed nodes are empty. -/
structure Drop (id : ItemId) (bits : List Bool) (p p' : ItemPool) (E E' : Slot → ItemId) : Prop where
  nodes : ∀ j, p'.nodes j = p.nodes j ∨ (p'.nodes j = none ∧ ∃ c, p.nodes j = some c ∧ bits <+: c.bits ∧
    (j ≠ id → bits.length < c.bits.length))
  slots : ∀ s, E' s = E s ∨ (E' s = 0 ∧ ∃ j b, s = .kid j b ∧ p'.nodes j = none)

namespace Drop
variable {id : ItemId} {bits : List Bool} {p p' : ItemPool} {E E' : Slot → ItemId}

theorem refl (bits : List Bool) (hn : p'.nodes = p.nodes) : Drop id bits p p' E E :=
  ⟨fun j => .inl (congrFun hn j), fun _ => .inl rfl⟩

theorem live (h : Drop id bits p p' E E') {j : ItemId} {c : Item} (hj : p'.nodes j = some c) :
    p.nodes j = some c := by
  rcases h.nodes j with e | ⟨e, -⟩
  · rw [← e, hj]
  · rw [e] at hj; cases hj

theorem keep (h : Drop id bits p p' E E') {j : ItemId} {c : Item} (hj : p.nodes j = some c)
    (hb : ¬bits <+: c.bits) :
    p'.nodes j = some c := by
  rcases h.nodes j with e | ⟨-, d, hd, hdb⟩
  · rw [e, hj]
  · rw [hj] at hd
    cases hd
    exact absurd hdb.1 hb

/-- Another node of the same depth is not freed. -/
theorem keep_level (h : Drop id bits p p' E E') {j : ItemId} {c : Item} (hj : p.nodes j = some c)
    (hne : j ≠ id)
    (hb : c.bits.length ≤ bits.length) : p'.nodes j = some c := by
  rcases h.nodes j with e | ⟨-, d, hd, -, hlt⟩
  · rw [e, hj]
  · rw [hj] at hd
    cases hd
    have := hlt hne
    omega

theorem root (h : Drop id bits p p' E E') (t : TreeId) : E' (.root t) = E (.root t) := by
  rcases h.slots (.root t) with e | ⟨-, j, b, e, -⟩
  · exact e
  · cases e

/-- The slots of a node that lives on are as they were. -/
theorem kid (h : Drop id bits p p' E E') {j : ItemId} {c : Item} (hj : p'.nodes j = some c) (b : Bool) :
    E' (.kid j b) = E (.kid j b) := by
  rcases h.slots (.kid j b) with e | ⟨-, k, d, e, hk⟩
  · exact e
  · cases e
    rw [hj] at hk
    cases hk

end Drop

/-- Enough fuel to walk down from a node with `n` bits. -/
def Fueled (fuel n : Nat) : Prop := MAX_BITS + 2 ≤ fuel + n

/-- What is known about an id whose count is pending. -/
structure Pending (X : ItemId → Prop) (bits : List Bool) (p : ItemPool) (id : ItemId) : Prop where
  node : id ≠ 0 → ∃ it, p.nodes id = some it ∧ it.bits = bits
  above : ∀ x c, X x → p.nodes x = some c → c.bits.length < bits.length

theorem decrRef_null {fuel : Nat} (h : 0 < fuel) (p : ItemPool) : p.decrRef fuel 0 = some p := by
  cases fuel with
  | zero => cases h
  | succ n => simp [decrRef, kItemNull]

theorem decrRef_spec : ∀ {fuel : Nat} {X : ItemId → Prop} {bits : List Bool}
    {p : ItemPool} {id : ItemId}
    {E : Slot → ItemId}, 0 < fuel → Fueled fuel bits.length → Held X id p E → Pending X bits p id →
    ∃ p' E', p.decrRef fuel id = some p' ∧ Held X 0 p' E' ∧ Drop id bits p p' E E'
  | 0, _, _, _, _, _, h0, _, _, _ => absurd h0 (lt_irrefl 0)
  | fuel + 1, X, bits, p, id, E, _, hf, h, hp => by
    by_cases hz : id = 0
    · subst hz
      exact ⟨p, E, by simp [decrRef, kItemNull], h, .refl _ rfl⟩
    obtain ⟨it, hid, rfl⟩ := hp.node hz
    have hpos := h.pending hz
    have hs := h.settle hid
    by_cases hone : 0 < p.refcnt id - 1
    · exact ⟨_, E, by simp [decrRef, kItemNull, hz, hone, Nat.ne_of_gt hpos], hs, .refl _ rfl⟩
    have hlen := h.bounded id it hid
    have hXid : ¬X id := fun hx => absurd (hp.above id it hx hid) (lt_irrefl _)
    -- the node is released: its slots are emptied one after the other
    have hw : Held (fun j => X j ∨ j = id) 0 (p.setRef id (p.refcnt id - 1)) E :=
      hs.weaken fun j hx => .inl hx
    have hnone : ∀ s, E s ≠ id := by
      have := hs.counts hz
      rw [setRef_refcnt, Function.update_self, show p.refcnt id - 1 = 0 by omega] at this
      exact Counts.zero_iff.1 this
    have above : ∀ (q : ItemPool) (b : Bool), (∀ j c, q.nodes j = some c → p.nodes j = some c) →
        ∀ x c, (X x ∨ x = id) → q.nodes x = some c → c.bits.length < (it.bits ++ [b]).length := by
      intro q b hq x c hx hc
      rw [List.length_append, List.length_singleton]
      rcases hx with hx | rfl
      · have := hp.above x c hx (hq x c hc); omega
      · have := hq _ c hc
        rw [hid] at this
        cases this
        omega
    have hfu : Fueled fuel (it.bits ++ [false]).length ∧ Fueled fuel (it.bits ++ [true]).length := by
      simp only [Fueled, List.length_append, List.length_singleton] at hf ⊢
      omega
    have h0 : 0 < fuel := by simp only [Fueled] at hf; simp only [MAX_BITS] at *; omega
    have down : ∀ {q : ItemPool} {F : Slot → ItemId} (b : Bool), Held (fun j => X j ∨ j = id) 0 q F →
        (∀ j c, q.nodes j = some c → p.nodes j = some c) → q.nodes id = some it →
        ∃ q' F', q.decrRef fuel (F (.kid id b)) = some q' ∧ Held (fun j => X j ∨ j = id) 0 q' F' ∧
          Drop (F (.kid id b)) (it.bits ++ [b]) q q' (Function.update F (.kid id b) 0) F' := by
      intro q F b hq hqp hqid
      refine decrRef_spec h0 (by cases b; exacts [hfu.1, hfu.2])
        (hq.release fun j c e => by cases e; exact .inr rfl) ⟨fun hne => ?_, above q b hqp⟩
      exact hq.kid_node hqid hne
    have notBelow : ∀ b : Bool, ¬(it.bits ++ [b]) <+: it.bits := by
      intro b hpre
      have := hpre.length_le
      simp only [List.length_append, List.length_singleton] at this
      omega
    obtain ⟨p1, E1, hr1, hh1, hd1⟩ := down false hw (fun j c hj => hj) hid
    have hid1 : p1.nodes id = some it := hd1.keep hid (notBelow false)
    obtain ⟨p2, E2, hr2, hh2, hd2⟩ := down true hh1 (fun j c hj => hd1.live hj) hid1
    have hid2 : p2.nodes id = some it := hd2.keep hid1 (notBelow true)
    have hk1 : ∀ b, E1 (.kid id b) = Function.update E (.kid id false) 0 (.kid id b) := hd1.kid hid1
    have hk2 : ∀ b, E2 (.kid id b) = Function.update E1 (.kid id true) 0 (.kid id b) := hd2.kid hid2
    have hE2 : ∀ b, E2 (.kid id b) = 0 := by
      intro b
      cases b with
      | false => rw [hk2, Function.update_of_ne (by simp), hk1, Function.update_self]
      | true => rw [hk2, Function.update_self]
    have hsub : ∀ s, E2 s = E s ∨ (E2 s = 0 ∧ ∃ j b, s = .kid j b ∧ (p2.free id).nodes j = none) := by
      intro s
      have hfree : ∀ j, p2.nodes j = none → (p2.free id).nodes j = none := by
        intro j hj
        rw [free_nodes]
        by_cases e : j = id
        · subst e; simp
        · rw [Function.update_of_ne e, hj]
      have hmono : ∀ j, p1.nodes j = none → p2.nodes j = none := by
        intro j hj
        rcases hd2.nodes j with e | ⟨e, -⟩
        · rw [e, hj]
        · exact e
      by_cases hk : ∃ b, s = .kid id b
      · obtain ⟨b, rfl⟩ := hk
        exact .inr ⟨hE2 b, id, b, rfl, by simp⟩
      · have hne : ∀ b, s ≠ .kid id b := fun b e => hk ⟨b, e⟩
        rcases hd2.slots s with e2 | ⟨e2, j, b, rfl, hj⟩
        · rw [Function.update_of_ne (hne true)] at e2
          rcases hd1.slots s with e1 | ⟨e1, j, b, rfl, hj⟩
          · rw [Function.update_of_ne (hne false)] at e1
            exact .inl (e2.trans e1)
          · exact .inr ⟨e2.trans e1, j, b, rfl, hfree j (hmono j hj)⟩
        · exact .inr ⟨e2, j, b, rfl, hfree j hj⟩
    have hl : E (.kid id false) = it.left_id := h.link id it hid hXid false
    have hr : E1 (.kid id true) = it.right_id := by
      rw [hk1, Function.update_of_ne (by simp)]
      exact h.link id it hid hXid true
    refine ⟨p2.free id, E2, ?_, ?_, ?_, hsub⟩
    · rw [hl] at hr1
      rw [hr] at hr2
      simp only [decrRef, kItemNull, hz, Nat.ne_of_gt hpos, hone, hid, if_false,
        Option.bind_eq_bind, Option.bind_some,
        hr1, hr2]
    · have hc2 : p2.refcnt id = 0 := by
        refine (hh2.counts hz).unique (Counts.zero_iff.2 fun s hs => ?_)
        rcases hsub s with e | ⟨e, -⟩
        · exact hnone s (e.symm.trans hs)
        · exact hz (hs.symm.trans e)
      exact hh2.freeNode hid2 hc2 hE2
    · intro j
      by_cases e : j = id
      · subst e
        exact .inr ⟨by simp, it, hid, List.prefix_refl _, fun hne => absurd rfl hne⟩
      · rw [free_nodes, Function.update_of_ne e]
        have below : ∀ {c : Item} {b : Bool}, it.bits ++ [b] <+: c.bits →
            it.bits <+: c.bits ∧ (j ≠ id → it.bits.length < c.bits.length) := by
          intro c b hpre
          have := hpre.length_le
          simp only [List.length_append, List.length_singleton] at this
          exact ⟨(List.prefix_append _ _).trans hpre, fun _ => by omega⟩
        rcases hd2.nodes j with e2 | ⟨e2, c, hc, hcb, -⟩
        · rcases hd1.nodes j with e1 | ⟨e1, c, hc, hcb, -⟩
          · exact .inl (e2.trans e1)
          · exact .inr ⟨e2.trans e1, c, hc, below hcb⟩
        · exact .inr ⟨e2, c, hd1.live hc, below hcb⟩

/-! ## `set_left`, `set_right`, `alloc_leaf`, `clone_for_fork` -/

/-- No node is being relinked. -/
abbrev Settled (p : ItemPool) (E : Slot → ItemId) : Prop := Held (fun _ => False) 0 p E

/-- A node's child is let go while the node is exempt from the link invariant. -/
theorem dropKid {p : ItemPool} {E : Slot → ItemId} {id : ItemId} {it : Item} (h : Settled p E)
    (hid : p.nodes id = some it) (b : Bool) : ∃ p' E', p.decrRef FUEL (it.kid b) = some p' ∧
      Held (fun j => j = id) 0 p' E' ∧ p'.nodes id = some it ∧
      Drop (it.kid b) (it.bits ++ [b]) p p' (Function.update E (.kid id b) 0) E' := by
  have hlen : ∀ d : Bool, it.bits.length < (it.bits ++ [d]).length := by simp
  have hx : Held (fun j => j = id) 0 p E := h.weaken fun _ hf => hf.elim
  have hrel := hx.release (s := .kid id b) fun j d e => by cases e; rfl
  obtain ⟨p1, E1, hr1, h1, hd1⟩ := decrRef_spec (show 0 < FUEL by decide)
    (show Fueled FUEL (it.bits ++ [b]).length by simp only [Fueled, FUEL, MAX_BITS]; omega) hrel
    ⟨fun hne => h.kid_node hid hne, fun x ct hx' hct =>
      by subst hx'; rw [hid] at hct; cases hct; exact hlen b⟩
  rw [h.link id it hid not_false b] at hr1 hd1
  exact ⟨p1, E1, hr1, h1, hd1.keep hid fun hp => absurd hp.length_le (Nat.not_le.2 (hlen b)), hd1⟩

theorem setKid_spec {p : ItemPool} {E : Slot → ItemId} {id c : ItemId} {it : Item} {b : Bool}
    (h : Settled p E)
    (hid : p.nodes id = some it) (hc : c ≠ 0 → ∃ ct, p.nodes c = some ct ∧ ct.bits = it.bits ++ [b]) :
    ∃ p' E', setKid b p id c = some p' ∧ Settled p' E' ∧ p'.nodes id = some (it.setKid b c) ∧
      (∀ s, s ≠ .kid id b → E' s = E s ∨ (E' s = 0 ∧ ∀ t, s ≠ .root t)) ∧
      (∀ j ct, j ≠ id → p'.nodes j = some ct → p.nodes j = some ct) ∧
      ∀ j ct, j ≠ id → p.nodes j = some ct → (it.kid b = 0 ∨ ¬(it.bits ++ [b]) <+: ct.bits) →
        p'.nodes j = some ct := by
  by_cases he : it.kid b = c
  · have hs : it.setKid b c = it := by subst he; cases b <;> rfl
    exact ⟨p, E, by simp [setKid, hid, he], h, by rw [hs, hid], fun _ _ => .inl rfl, fun _ _ _ hj => hj, fun _ _ _ hj _ => hj⟩
  obtain ⟨p1, E1, hr1, h1, hid1, hd1⟩ := dropKid h hid b
  have hE1 : E1 (.kid id b) = 0 := by rw [hd1.kid hid1, Function.update_self]
  have hE1' : E1 (.kid id !b) = it.kid !b := by
    rw [hd1.kid hid1, Function.update_of_ne (by cases b <;> simp)]
    exact h.link id it hid not_false _
  have h2 := h1.setItem hid1 (show (it.setKid b c).bits = it.bits by simp) fun hn => absurd rfl hn
  -- the new child was not below the old one, since it has the same depth
  have hlive : c ≠ 0 → ∃ ct, (p1.setItem id (it.setKid b c)).nodes c = some ct ∧
      Placed (p1.setItem id (it.setKid b c)) ct (.kid id b) := by
    intro hc0
    obtain ⟨ct, hct, hcb⟩ := hc hc0
    have hcid : c ≠ id := by
      intro e
      rw [e, hid] at hct
      cases hct
      exact absurd (congrArg List.length hcb) (by simp)
    have hc1 : p1.nodes c = some ct := hd1.keep_level hct (Ne.symm he) (by rw [hcb])
    refine ⟨ct, by rw [setItem_nodes, Function.update_of_ne hcid, hc1], it.setKid b c, by simp, by simpa using hcb⟩
  have h3 := h2.take (s := .kid id b) (fun j d e => by cases e; rfl) hE1 hlive
  refine ⟨_, _, by simp only [setKid, hid, he, hr1, Option.bind_eq_bind, Option.bind_some, if_false], h3.restore ?_, ?_, ?_, ?_, ?_⟩
  · intro j jt hj _ hjt d
    subst hj
    simp only [incrRef_nodes, setItem_nodes, Function.update_self, Option.some.injEq] at hjt
    subst hjt
    by_cases hd : d = b
    · subst hd; rw [Function.update_self, setKid_kid]
    · obtain rfl : d = !b := by cases d <;> cases b <;> simp_all
      rw [Function.update_of_ne (by cases b <;> simp), hE1', setKid_kid_not]
  · simp
  · intro s hs
    rw [Function.update_of_ne hs]
    rcases hd1.slots s with e | ⟨e, j, d, rfl, -⟩
    · rw [Function.update_of_ne hs] at e
      exact .inl e
    · exact .inr ⟨e, by simp⟩
  · intro j ct hj hct
    rw [incrRef_nodes, setItem_nodes, Function.update_of_ne hj] at hct
    exact hd1.live hct
  · intro j ct hj hct hb
    rw [incrRef_nodes, setItem_nodes, Function.update_of_ne hj]
    rcases hb with hb | hb
    · rw [hb, decrRef_null (by decide), Option.some.injEq] at hr1
      rw [← hr1, hct]
    · exact hd1.keep hct hb

theorem allocLeaf_spec {X : ItemId → Prop} {p : ItemPool} {E : Slot → ItemId}
    (h : Held X 0 p E) (t : TreeId) :
    (p.allocLeaf t).1 ≠ 0 ∧ p.nodes (p.allocLeaf t).1 = none ∧
      (p.allocLeaf t).2.nodes = Function.update p.nodes (p.allocLeaf t).1 (some (Item.new t)) ∧
      (p.allocLeaf t).2.refcnt = p.refcnt ∧ Held X 0 (p.allocLeaf t).2 E := by
  -- either way the new id is free, so its count is 0 already
  have key : ∀ (id : ItemId) (fl : List ItemId) (n : Nat), id ≠ 0 → p.nodes id = none →
    id < n → p.size ≤ n →
      (∀ j ∈ fl, j ∈ p.free_list ∧ j ≠ id) → fl.Nodup → (∀ j, n ≤ j → p.nodes j = none) →
      let q : ItemPool := { (p.setItem id (Item.new t)).setRef id 0 with free_list := fl, size := n }
      q.refcnt = p.refcnt ∧ Held X 0 q E := by
    intro id fl n hz hid hlt hle hfl hnd hfresh
    have hdead := h.dead id hid
    have href : Function.update p.refcnt id 0 = p.refcnt := by rw [← hdead.1, Function.update_eq_self]
    have hkid : ∀ b, (Item.new t).kid b = 0 := by intro b; cases b <;> rfl
    refine ⟨href, ?_⟩
    refine { null := ?_, counted := ?_, pending := fun e => absurd rfl e, link := ?_, dead := ?_, slot := ?_,
             bounded := ?_, free := ?_, freeNodup := hnd, fresh := ?_, size_pos := Nat.lt_of_lt_of_le h.size_pos hle }
    · exact (Function.update_of_ne (Ne.symm hz) _ _).trans h.null
    · intro i hi
      show Counts E i (if i = 0 then _ else Function.update p.refcnt id 0 i)
      rw [if_neg hi, href]
      exact h.counts hi
    · intro j it hj hx b
      replace hj : Function.update p.nodes id (some (Item.new t)) j = some it := hj
      by_cases e : j = id
      · subst e
        simp only [Function.update_self, Option.some.injEq] at hj
        rw [← hj, hkid]
        exact hdead.2 b
      · rw [Function.update_of_ne e] at hj
        exact h.link j it hj hx b
    · intro j hj
      replace hj : Function.update p.nodes id (some (Item.new t)) j = none := hj
      show Function.update p.refcnt id 0 j = 0 ∧ _
      rw [href]
      by_cases e : j = id
      · subst e; exact hdead
      · rw [Function.update_of_ne e] at hj
        exact h.dead j hj
    · intro s hs
      obtain ⟨c, hc, hpl⟩ := h.slot s hs
      have hne : E s ≠ id := fun e => by rw [e, hid] at hc; cases hc
      refine ⟨c, (Function.update_of_ne hne _ _).trans hc, ?_⟩
      cases s with
      | root t => exact hpl
      | kid j b =>
        obtain ⟨o, ho, hob⟩ := hpl
        have hj : j ≠ id := fun e => by rw [e, hid] at ho; cases ho
        exact ⟨o, (Function.update_of_ne hj _ _).trans ho, hob⟩
    · intro j it hj
      replace hj : Function.update p.nodes id (some (Item.new t)) j = some it := hj
      by_cases e : j = id
      · subst e
        simp only [Function.update_self, Option.some.injEq] at hj
        rw [← hj]
        exact Nat.zero_le _
      · rw [Function.update_of_ne e] at hj
        exact h.bounded j it hj
    · intro j hj
      obtain ⟨hm, hne⟩ := hfl j hj
      obtain ⟨a, b, c⟩ := h.free j hm
      exact ⟨a, Nat.lt_of_lt_of_le b hle, (Function.update_of_ne hne _ _).trans c⟩
    · intro j hj
      have hne : j ≠ id := by rintro rfl; exact absurd hlt (Nat.not_lt.2 hj)
      exact (Function.update_of_ne hne _ _).trans (hfresh j hj)
  unfold allocLeaf
  cases hl : p.free_list with
  | nil =>
    have hpos : p.size ≠ 0 := Nat.ne_of_gt h.size_pos
    obtain ⟨h1, h2⟩ := key p.size [] (p.size + 1) hpos (h.fresh _ (le_refl _)) (Nat.lt_succ_self _)
      (Nat.le_succ _)
      (by simp) List.nodup_nil fun j hj => h.fresh j (Nat.le_of_succ_le hj)
    refine ⟨hpos, h.fresh _ (le_refl _), rfl, h1, ?_⟩
    simpa only [setRef_free_list, setItem_free_list, hl] using h2
  | cons id rest =>
    obtain ⟨hz, hlt, hid⟩ := h.free id (by rw [hl]; exact List.mem_cons_self)
    have hnd := h.freeNodup
    rw [hl, List.nodup_cons] at hnd
    obtain ⟨h1, h2⟩ := key id rest p.size hz hid hlt (le_refl _)
      (fun j hj => ⟨by rw [hl]; exact List.mem_cons_of_mem _ hj, fun e => hnd.1 (e ▸ hj)⟩) hnd.2 h.fresh
    exact ⟨hz, hid, rfl, h1, h2⟩

theorem cloneForFork_spec {p : ItemPool} {E : Slot → ItemId} {id : ItemId} {src : Item}
    (h : Settled p E)
    (hid : p.nodes id = some src) (t : TreeId) :
    ∃ nid p' E', p.cloneForFork id t = some (nid, p') ∧ Settled p' E' ∧ nid ≠ 0 ∧ p.nodes nid = none ∧
      p'.nodes = Function.update p.nodes nid (some { src with m_tree := t, dirty := true }) ∧
      (∀ s, (∀ b, s ≠ .kid nid b) → E' s = E s) := by
  obtain ⟨hz, hdead, hn, hr, ha⟩ := allocLeaf_spec h t
  cases hpq : p.allocLeaf t with
  | mk nid q =>
  simp only [hpq] at hz hdead hn hr ha
  have hqn : q.nodes nid = some (Item.new t) := by rw [hn, Function.update_self]
  have hne : id ≠ nid := fun e => by rw [e, hdead] at hid; cases hid
  have hkids := h.link id src hid not_false
  let it : Item := { src with m_tree := t, dirty := true }
  -- the clone's fields are set while it is exempt, then its slots take hold of the children
  have h0 : Held (fun j => j = nid) 0 (q.setItem nid it) E :=
    (ha.weaken fun _ hf => hf.elim).setFresh hqn (by rw [hr]; exact (h.dead nid hdead).1)
      (h.dead nid hdead).2
      (h.bounded id src hid) fun hn => absurd rfl hn
  have hchild : ∀ b, src.kid b ≠ 0 → ∃ c, (q.setItem nid it).nodes (src.kid b) = some c ∧
    c.bits = src.bits ++ [b] := by
    intro b hb
    rw [← hkids b] at hb ⊢
    obtain ⟨c, hc, hcb⟩ := h.kid_node hid hb
    have : E (.kid id b) ≠ nid := fun e => by rw [e, hdead] at hc; cases hc
    exact ⟨c, by rw [setItem_nodes, Function.update_of_ne this, hn, Function.update_of_ne this, hc], hcb⟩
  have hit : (q.setItem nid it).nodes nid = some it := by rw [setItem_nodes, Function.update_self]
  have h1 := h0.take (s := .kid nid false) (c := src.left_id) (fun j d e => by cases e; rfl)
    ((h.dead nid hdead).2 _)
    fun hb => by
      obtain ⟨c, hc, hcb⟩ := hchild false hb
      exact ⟨c, hc, it, hit, hcb⟩
  have h2 := h1.take (s := .kid nid true) (c := src.right_id) (fun j d e => by cases e; rfl)
    (by rw [Function.update_of_ne (by simp)]; exact (h.dead nid hdead).2 _)
    fun hb => by
      obtain ⟨c, hc, hcb⟩ := hchild true hb
      exact ⟨c, by rw [incrRef_nodes]; exact hc, it, by rw [incrRef_nodes]; exact hit, hcb⟩
  refine ⟨nid, _, _, ?_, h2.restore ?_, hz, hdead, ?_, ?_⟩
  · simp only [cloneForFork, hid, hpq, Option.bind_eq_bind, Option.bind_some]
    rfl
  · intro j jt hj _ hjt b
    subst hj
    simp only [incrRef_nodes, hit, Option.some.injEq] at hjt
    subst hjt
    cases b with
    | false => rw [Function.update_of_ne (by simp), Function.update_self]; rfl
    | true => rw [Function.update_self]; rfl
  · simp only [incrRef_nodes, setItem_nodes, hn, Function.update_idem]
    rfl
  · intro s hs
    rw [Function.update_of_ne (hs true), Function.update_of_ne (hs false)]

end Diode.L2
