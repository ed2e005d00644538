import Diode.L2Trie.Isolation

/-!
# Back pointers to destroyed trees

A node keeps a pointer to the `Tree` that made it, and the collapse of an
internal node reads through it. The node outlives its maker when a copy still
refers to it, and a leaf that outlived its maker turns internal when it splits.

* `Makers`: every internal node was made by one of a set of trees. Each routine
  of the pool keeps it; the two steps that can break it are a split
  (`splitMaker`) and the destructor.
* `no_dangling_tree`: in a run in which neither does, no pointer dangles.
-/
namespace Diode.L2
open Diode.Core Diode.L1.Ext ItemPool

/-- An internal node, or a leaf that is due to split, was made by a tree of `ok`. -/
def Backed (ok : TreeId → Prop) (it : Item) : Prop :=
  ok it.m_tree ∨ it.is_leaf = true ∧ ∀ b, it.leaf_bucket = some b → b.length ≤ LEAF_SIZE

/-- Every node of the pool is backed, and is one of `p0` or made by a tree of `ok`. -/
def Makers (ok : TreeId → Prop) (p0 p : ItemPool) : Prop := ∀ j it, p.nodes j = some it →
  Backed ok it ∧ (ok it.m_tree ∨ ∃ it0, p0.nodes j = some it0 ∧ it0.m_tree = it.m_tree)

section
variable {ok : TreeId → Prop} {p0 p p' : ItemPool} {id : ItemId} {it it' : Item} {tree : TreeId}

theorem Backed.internal (h : Backed ok it) (hl : it.is_leaf = false) : ok it.m_tree := by
  rcases h with h | ⟨h, -⟩
  · exact h
  · rw [hl] at h
    cases h

theorem Backed.crowded {b : List Pair} (h : Backed ok it) (hb : it.leaf_bucket = some b)
    (hs : LEAF_SIZE < b.length) :
    ok it.m_tree := by
  rcases h with h | ⟨-, h⟩
  · exact h
  · exact absurd (h b hb) (Nat.not_le.2 hs)

namespace Makers

theorem refl (h : ∀ j it, p.nodes j = some it → Backed ok it) : Makers ok p p :=
  fun j it hj => ⟨h j it hj, .inr ⟨it, hj, rfl⟩⟩

theorem trans {p1 : ItemPool} (h0 : Makers ok p0 p) (h : Makers ok p p1) : Makers ok p0 p1 := by
  intro j it hj
  obtain ⟨hb, ht⟩ := h j it hj
  refine ⟨hb, ht.elim .inl fun ⟨it0, hn, hm⟩ => ?_⟩
  rw [← hm]
  exact (h0 j it0 hn).2

theorem backed (h : Makers ok p0 p) : ∀ j it, p.nodes j = some it → Backed ok it :=
    fun j it hj => (h j it hj).1

/-- The node `id` is set to one of the same maker. -/
theorem setItem (h : Makers ok p0 p) (hid : p.nodes id = some it) (hm : it'.m_tree = it.m_tree)
    (hb : Backed ok it') :
    Makers ok p0 (p.setItem id it') := by
  intro j jt hj
  rw [setItem_nodes] at hj
  by_cases e : j = id
  · subst e
    rw [Function.update_self, Option.some.injEq] at hj
    rw [← hj, hm]
    exact ⟨hb, (h j it hid).2⟩
  · rw [Function.update_of_ne e] at hj
    exact h j jt hj

theorem setMade (h : Makers ok p0 p) (hm : ok it.m_tree) : Makers ok p0 (p.setItem id it) := by
  intro j jt hj
  rw [setItem_nodes] at hj
  by_cases e : j = id
  · subst e
    rw [Function.update_self, Option.some.injEq] at hj
    rw [← hj]
    exact ⟨.inl hm, .inl hm⟩
  · rw [Function.update_of_ne e] at hj
    exact h j jt hj

theorem incrRef (h : Makers ok p0 p) : Makers ok p0 (p.incrRef id) := by
  intro j jt hj
  rw [incrRef_nodes] at hj
  exact h j jt hj

theorem free (h : Makers ok p0 p) : Makers ok p0 (p.free id) := by
  intro j jt hj
  rw [free_nodes] at hj
  by_cases e : j = id
  · subst e
    rw [Function.update_self] at hj
    cases hj
  · rw [Function.update_of_ne e] at hj
    exact h j jt hj

theorem decrRef : ∀ {fuel : Nat} {p p' : ItemPool} {id : ItemId}, Makers ok p0 p →
    p.decrRef fuel id = some p' →
    Makers ok p0 p'
  | 0, _, _, _, _, hr => by cases hr
  | fuel + 1, p, p', id, h, hr => by
    unfold ItemPool.decrRef at hr
    split at hr
    · cases hr; exact h
    split at hr
    · cases hr
    split at hr
    · cases hr; exact h
    simp only [Option.bind_eq_bind, Option.bind_eq_some_iff, Option.some.injEq] at hr
    obtain ⟨it, -, p1, h1, p2, h2, rfl⟩ := hr
    have hp : Makers ok p0 (p.setRef id (p.refcnt id - 1)) := h
    exact ((hp.decrRef h1).decrRef h2).free

theorem allocLeaf (ht : ok tree) (h : Makers ok p0 p) : Makers ok p0 (p.allocLeaf tree).2 := by
  unfold ItemPool.allocLeaf
  split
  · exact h.setMade ht
  · exact h.setMade ht

theorem setKid {b : Bool} {c : ItemId} (h : Makers ok p0 p) (hr : setKid b p id c = some p') :
    Makers ok p0 p' := by
  simp only [Diode.L2.setKid, Option.bind_eq_bind, Option.bind_eq_some_iff] at hr
  obtain ⟨it, hit, hr⟩ := hr
  split at hr
  · cases hr; exact h
  simp only [Option.bind_eq_some_iff, Option.some.injEq] at hr
  obtain ⟨q, hq, rfl⟩ := hr
  have hset : ∀ q' : ItemPool, Makers ok p0 q' → Makers ok p0 (q'.setItem id (it.setKid b c)) := by
    intro q' hq' j jt hj
    rw [setItem_nodes] at hj
    by_cases e : j = id
    · subst e
      rw [Function.update_self, Option.some.injEq] at hj
      unfold Backed
      rw [← hj, setKid_m_tree, setKid_is_leaf, setKid_leaf_bucket]
      exact h j it hit
    · rw [Function.update_of_ne e] at hj
      exact hq' j jt hj
  exact (hset q (h.decrRef hq)).incrRef

theorem ensureHashes {hv : List Word} (h : Makers ok p0 p)
    (hr : ensureHashes p id = some (p', hv)) : Makers ok p0 p' := by
  simp only [Diode.L2.ensureHashes, Option.bind_eq_bind, Option.bind_eq_some_iff] at hr
  obtain ⟨it, hit, hr⟩ := hr
  split at hr
  · cases hr; exact h
  · cases hr; exact h.setItem hit rfl (h.backed id it hit)

theorem forkForWrite {id' : ItemId} (ht : ok tree) (h : Makers ok p0 p)
    (hr : forkForWrite tree p id = some (id', p')) :
    Makers ok p0 p' := by
  unfold Diode.L2.forkForWrite at hr
  split at hr
  · cases hr; exact h
  split at hr
  · cases hr; exact h
  simp only [cloneForFork, Option.bind_eq_bind, Option.bind_eq_some_iff, Option.some.injEq,
    Prod.mk.injEq] at hr
  obtain ⟨src, -, -, rfl⟩ := hr
  refine (((h.allocLeaf ht).setMade ?_).incrRef).incrRef
  exact ht

end Makers
end

section
variable (sha : Bytes → Word)

/-- The tree that made the leaf which writing `key` splits, once the path to it
has been copied where it is shared. -/
def splitMaker (tree : TreeId) (key : Bytes) (value : Word) : Nat → ItemPool → ItemId → Option TreeId
  | 0, _, _ => none
  | fuel + 1, p, id => do
    let (id, p) ← forkForWrite tree p id
    let node ← p.nodes id
    if node.is_leaf then do
      let bucket ← node.leaf_bucket
      if value ≠ 0 ∧ LEAF_SIZE < (Assoc.put bucket key value).length then some node.m_tree else none
    else if hashBit sha key node.bits.length then splitMaker tree key value fuel p node.right_id
    else splitMaker tree key value fuel p node.left_id

/-- The call leaves no internal node to a tree that is gone: a write splits no
leaf of a destroyed tree in place, and a destructor takes along the internal
nodes its tree made. -/
def Op.backed (w : World) (m : Maps) : Op → Bool
  | .insertItem t key value => ((m.content t).all fun c => Sparse sha (putSlot c key value)) &&
      (w.trees t).all fun r => (splitMaker sha t key value FUEL w.pool r).all w.live
  | .destroy t => (w.trees t).all fun r => (w.pool.decrRef FUEL r).all fun p =>
      (List.range p.size).all fun j => (p.nodes j).all fun it => it.is_leaf || it.m_tree != t
  | _ => true

/-- Every call of the run is on a tree that exists, and is backed where it is made. -/
def backedRun (w : World) (m : Maps) : List Op → Bool
  | [] => true
  | op :: ops => (w.trees op.tree).isSome && op.backed sha w m &&
    match Diode.L2.step sha w op, m.step sha op with
    | some (w, _), some (m, _) => backedRun w m ops
    | _, _ => true

end

section
variable {sha : Bytes → Word} {ok : TreeId → Prop} {tree : TreeId} {p0 : ItemPool}

namespace Makers

theorem splitNode (ht : ok tree) : ∀ {fuel : Nat} {p p' : ItemPool} {id : ItemId}, Makers ok p0 p →
    splitNode sha tree fuel p id = some p' → Makers ok p0 p'
  | 0, _, _, _, _, hr => by cases hr
  | fuel + 1, p, p', id, h, hr => by
    simp only [Diode.L2.splitNode, Option.bind_eq_bind, Option.bind_eq_some_iff] at hr
    obtain ⟨t, hid, bucket, hb, hr⟩ := hr
    split at hr
    · cases hr; exact h
    rename_i hbig
    simp only [Option.bind_eq_some_iff] at hr
    obtain ⟨lbits, -, rbits, -, p1, h1, p2, h2, p3, h3, h4⟩ := hr
    have hmaker : ok t.m_tree := (h.backed id t hid).crowded hb (Nat.not_le.1 hbig)
    have hq := (h.allocLeaf ht).allocLeaf ht
    have hp2 := ((hq.setMade (by exact ht)).setMade (by exact ht)).splitNode ht h1 |>.splitNode ht h2
    rw [setLeft_eq] at h3
    rw [setRight_eq] at h4
    exact ((hp2.setMade (by exact hmaker)).setKid h3).setKid h4

theorem insertPath (ht : ok tree) {key : Bytes} {value : Word} : ∀ {fuel : Nat} {p p' : ItemPool}
    {id id' : ItemId},
    Makers ok p0 p → (∀ u, splitMaker sha tree key value fuel p id = some u → ok u) →
    insertPath sha tree key value fuel p id = some (id', p') → Makers ok p0 p'
  | 0, _, _, _, _, _, _, hr => by cases hr
  | fuel + 1, p, p', id, id', h, hs, hr => by
    unfold splitMaker at hs
    simp only [Diode.L2.insertPath, Option.bind_eq_bind, Option.bind_eq_some_iff] at hr hs
    obtain ⟨⟨id0, q⟩, hf, node, hn, hr⟩ := hr
    have h0 := h.forkForWrite ht hf
    have hnode := h0.backed id0 node hn
    split at hr
    · -- the leaf itself is written
      rename_i hl
      simp only [Option.bind_eq_some_iff] at hr
      obtain ⟨bucket, hb, hr⟩ := hr
      split at hr
      · cases hr
        refine h0.setItem hn rfl (hnode.imp_right fun hsmall => ⟨hl, fun b hd => ?_⟩)
        cases hd
        exact (Assoc.del_length bucket key).trans (hsmall.2 bucket hb)
      · rename_i hv
        simp only [Option.bind_eq_some_iff, Option.some.injEq, Prod.mk.injEq] at hr
        obtain ⟨p1, h1, n, hn1, rfl, rfl⟩ := hr
        have hput : Makers ok p0
          (q.setItem id0 { node with leaf_bucket := some (Assoc.put bucket key value) }) := by
          refine h0.setItem hn rfl ?_
          by_cases hbig : LEAF_SIZE < (Assoc.put bucket key value).length
          · refine .inl (hs node.m_tree ⟨(id0, q), hf, node, hn, ?_⟩)
            rw [if_pos hl, hb]
            exact if_pos ⟨hv, hbig⟩
          · exact .inr ⟨hl, fun b hd => by cases hd; exact Nat.not_lt.1 hbig⟩
        have hp1 := hput.splitNode ht h1
        exact hp1.setItem hn1 rfl (hp1.backed _ n hn1)
    · rename_i hl
      split at hr
      · rename_i hside
        simp only [Option.bind_eq_some_iff, Option.some.injEq, Prod.mk.injEq] at hr
        obtain ⟨⟨c, p1⟩, h1, p2, h2, n, hn2, -, rfl⟩ := hr
        rw [setRight_eq] at h2
        have hp1 := h0.insertPath ht
          (fun u hu => hs u ⟨(id0, q), hf, node, hn, by rw [if_neg hl, if_pos hside]; exact hu⟩) h1
        have hp2 := hp1.setKid h2
        exact hp2.setItem hn2 rfl (hp2.backed _ n hn2)
      · rename_i hside
        simp only [Option.bind_eq_some_iff, Option.some.injEq, Prod.mk.injEq] at hr
        obtain ⟨⟨c, p1⟩, h1, p2, h2, n, hn2, -, rfl⟩ := hr
        rw [setLeft_eq] at h2
        have hp1 := h0.insertPath ht
          (fun u hu => hs u ⟨(id0, q), hf, node, hn, by rw [if_neg hl, if_neg hside]; exact hu⟩) h1
        have hp2 := hp1.setKid h2
        exact hp2.setItem hn2 rfl (hp2.backed _ n hn2)

theorem updateMerkleHashCount {live : TreeId → Bool} (ht : ok tree) :
    ∀ {fuel : Nat} {p0 p p' : ItemPool} {id : ItemId},
    Makers ok p0 p → updateMerkleHashCount sha live tree fuel p id = some p' → Makers ok p0 p'
  | 0, _, _, _, _, _, hr => by cases hr
  | fuel + 1, p0, p, p', id, h, hr => by
    unfold Diode.L2.updateMerkleHashCount at hr
    split at hr
    · cases hr; exact h
    obtain ⟨it, hid, hr⟩ := Option.bind_eq_some_iff.1 hr
    split at hr
    · cases hr; exact h
    split at hr
    · obtain ⟨bucket, hb, hr⟩ := Option.bind_eq_some_iff.1 hr
      split at hr
      · obtain ⟨p1, h1, hr⟩ := Option.bind_eq_some_iff.1 hr
        obtain ⟨p2, h2, hr⟩ := Option.bind_eq_some_iff.1 hr
        obtain ⟨n, hn, hr⟩ := Option.bind_eq_some_iff.1 hr
        cases hr
        have hp2 := (h.splitNode ht h1).updateMerkleHashCount ht h2
        exact hp2.setItem hn rfl (hp2.backed _ n hn)
      · cases hr
        exact h.setItem hid rfl (h.backed id it hid)
    · rename_i hl
      rw [Bool.not_eq_true] at hl
      obtain ⟨p1, h1, hr⟩ := Option.bind_eq_some_iff.1 hr
      obtain ⟨it1, hn1, hr⟩ := Option.bind_eq_some_iff.1 hr
      obtain ⟨p2, h2, hr⟩ := Option.bind_eq_some_iff.1 hr
      obtain ⟨it2, hn2, hr⟩ := Option.bind_eq_some_iff.1 hr
      obtain ⟨l, -, hr⟩ := Option.bind_eq_some_iff.1 hr
      obtain ⟨r, -, hr⟩ := Option.bind_eq_some_iff.1 hr
      have hself := ((Makers.refl h.backed).updateMerkleHashCount ht h1).updateMerkleHashCount ht h2
      have hp2 := h.trans hself
      -- the children's updates leave the maker of the node
      have hmaker : ok it2.m_tree := by
        rcases (hself id it2 hn2).2 with hm | ⟨it0, h0, hm⟩
        · exact hm
        · rw [hid, Option.some.injEq] at h0
          rw [← hm, ← h0]
          exact (h.backed id it hid).internal hl
      split at hr
      · split at hr
        · cases hr
        obtain ⟨pairs, -, hr⟩ := Option.bind_eq_some_iff.1 hr
        obtain ⟨p3, h3, hr⟩ := Option.bind_eq_some_iff.1 hr
        obtain ⟨p4, h4, hr⟩ := Option.bind_eq_some_iff.1 hr
        obtain ⟨it4, hn4, hr⟩ := Option.bind_eq_some_iff.1 hr
        cases hr
        rw [setLeft_eq] at h3
        rw [setRight_eq] at h4
        have hp4 := ((hp2.setMade (by exact hmaker)).setKid h3).setKid h4
        exact hp4.setItem hn4 rfl ((hp4.backed id it4 hn4).imp_right fun hb => ⟨rfl, hb.2⟩)
      · obtain ⟨⟨p3, lh⟩, h3, hr⟩ := Option.bind_eq_some_iff.1 hr
        obtain ⟨⟨p4, rh⟩, h4, hr⟩ := Option.bind_eq_some_iff.1 hr
        cases hr
        exact ((hp2.ensureHashes h3).ensureHashes h4).setMade hmaker

theorem doGetProofs {live : TreeId → Bool} (ht : ok tree) {key : Bytes} :
    ∀ {fuel : Nat} {p p' : ItemPool} {id : ItemId}
    {proof : Proof}, Makers ok p0 p → doGetProofs sha live tree key fuel p id = some (p', proof) →
      Makers ok p0 p'
  | 0, _, _, _, _, _, hr => by cases hr
  | fuel + 1, p, p', id, proof, h, hr => by
    unfold Diode.L2.doGetProofs at hr
    obtain ⟨it, hid, hr⟩ := Option.bind_eq_some_iff.1 hr
    split at hr
    · obtain ⟨bucket, -, hr⟩ := Option.bind_eq_some_iff.1 hr
      cases hr
      exact h
    · obtain ⟨p1, h1, hr⟩ := Option.bind_eq_some_iff.1 hr
      obtain ⟨p2, h2, hr⟩ := Option.bind_eq_some_iff.1 hr
      obtain ⟨⟨p3, rl⟩, h3, hr⟩ := Option.bind_eq_some_iff.1 hr
      obtain ⟨⟨p4, ll⟩, h4, hr⟩ := Option.bind_eq_some_iff.1 hr
      have hp4 := (((h.updateMerkleHashCount ht h1).updateMerkleHashCount ht h2).ensureHashes h3).ensureHashes h4
      dsimp only at hr
      split at hr
      · obtain ⟨w, -, hr⟩ := Option.bind_eq_some_iff.1 hr
        obtain ⟨⟨p5, q⟩, h5, hr⟩ := Option.bind_eq_some_iff.1 hr
        cases hr
        exact hp4.doGetProofs ht h5
      · obtain ⟨w, -, hr⟩ := Option.bind_eq_some_iff.1 hr
        obtain ⟨⟨p5, q⟩, h5, hr⟩ := Option.bind_eq_some_iff.1 hr
        cases hr
        exact hp4.doGetProofs ht h5

/-- No collapse reads a destroyed tree. -/
theorem collapseLive {live : TreeId → Bool} {p : ItemPool} (h : Makers (live · = true) p0 p) :
    ∀ (fuel : Nat) (id : ItemId), collapseLive live fuel p id = true
  | 0, _ => rfl
  | fuel + 1, id => by
    unfold Diode.L2.collapseLive
    split
    · rfl
    · rename_i it hid
      split
      · rename_i hd
        rw [Bool.and_eq_true, Bool.not_eq_true'] at hd
        have hm : live it.m_tree = true := (h.backed id it hid).internal hd.2
        rw [hm, h.collapseLive fuel, h.collapseLive fuel]
        rfl
      · rfl

end Makers

/-! ## Runs -/

/-- No internal node of the pool was made by a destroyed tree. -/
def World.Anchored (w : World) : Prop := ∀ j it, w.pool.nodes j = some it → it.is_leaf = false →
    w.live it.m_tree = true

theorem Refines.makers {w : World} {m : Maps} {E : Slot → ItemId} {C : ItemId → List Pair}
    (h : Refines sha w m E C)
    (ha : w.Anchored) : Makers (w.live · = true) w.pool w.pool := by
  refine Makers.refl fun j it hj => ?_
  cases hl : it.is_leaf with
  | false => exact .inl (ha j it hj hl)
  | true =>
    obtain ⟨hb, -, hsmall⟩ := (h.shape.item j it hj).leaf hl
    refine .inr ⟨hl, fun b hb' => ?_⟩
    rw [hb, Option.some.injEq] at hb'
    rw [← hb']
    exact hsmall not_false

theorem Makers.anchored {w w' : World} {p : ItemPool} (h : Makers (w.live · = true) p w'.pool)
    (hl : ∀ u, w.live u = true → w'.live u = true) : w'.Anchored :=
  fun j it hj hi => hl _ ((h.backed j it hj).internal hi)

theorem live_update {w : World} {t u : TreeId} {r : ItemId} {p : ItemPool} {n : TreeId}
    (hu : w.live u = true) :
    World.live ⟨p, Function.update w.trees t (some r), n⟩ u = true := by
  unfold World.live at hu ⊢
  dsimp only
  by_cases e : u = t
  · subst e
    rw [Function.update_self, Option.isSome_some]
  · rwa [Function.update_of_ne e]

/-- What is left after the destructor of `t`. -/
theorem Refines.destroy_anchored {w : World} {m : Maps} {E : Slot → ItemId} {C : ItemId → List Pair}
    (h : Refines sha w m E C)
    (ha : w.Anchored) {t : TreeId} {r : ItemId} {p : ItemPool} (hd : w.pool.decrRef FUEL r = some p)
    (hb : ∀ j it, p.nodes j = some it → it.is_leaf = false → it.m_tree ≠ t) :
    World.Anchored ⟨p, Function.update w.trees t none, w.next⟩ := by
  intro j it hj hl
  have hold := (((h.makers ha).decrRef hd).backed j it hj).internal hl
  unfold World.live at hold ⊢
  dsimp only
  rwa [Function.update_of_ne (hb j it hj hl)]

/-- **One call.** A backed call on a tree that exists is sound, and no pointer
dangles after it. -/
theorem step_anchored {w : World} {m : Maps} {E : Slot → ItemId} {C : ItemId → List Pair}
    (h : Refines sha w m E C)
    (ha : w.Anchored) {op : Op} (ht : (w.trees op.tree).isSome = true) (hb : op.backed sha w m = true) :
    op.sound sha w m = true ∧ ∀ w' o, step sha w op = some (w', o) → w'.Anchored := by
  have hm := h.makers ha
  obtain ⟨r, hr⟩ := Option.isSome_iff_exists.1 ht
  have hlive : w.live op.tree = true := ht
  cases op with
  | insertItem t key value =>
    dsimp only [Op.tree] at hr hlive
    simp only [Op.backed, hr, Option.all_some, Bool.and_eq_true] at hb
    refine ⟨hb.1, fun w' o hs => ?_⟩
    simp only [step, insertItem, hr, Option.bind_eq_bind, Option.bind_some, Option.bind_eq_some_iff,
      Option.some.injEq,
      Prod.mk.injEq] at hs
    obtain ⟨w1, ⟨⟨r', p⟩, hi, hs⟩, rfl, -⟩ := hs
    have hp := hm.insertPath hlive (fun u hu => by rw [hu] at hb; exact hb.2) hi
    split at hs
    · obtain ⟨q, hq, hs⟩ := Option.bind_eq_some_iff.1 hs
      cases hs
      exact Makers.anchored (hp.decrRef hq).incrRef fun u hu => live_update hu
    · cases hs
      exact Makers.anchored hp fun _ hu => hu
  | rootHash t =>
    dsimp only [Op.tree] at hr hlive
    refine ⟨by simp only [Op.sound, hr, Option.all_some, hm.collapseLive], fun w' o hs => ?_⟩
    simp only [step, rootHash, hr, Option.bind_eq_bind, Option.bind_some, Option.bind_eq_some_iff,
      Option.some.injEq,
      Prod.mk.injEq] at hs
    obtain ⟨⟨w1, -⟩, ⟨p, hp, ⟨q, hv⟩, hq, rfl, -⟩, rfl, -⟩ := hs
    exact Makers.anchored ((hm.updateMerkleHashCount hlive hp).ensureHashes hq) fun _ hu => hu
  | getProofs t key =>
    dsimp only [Op.tree] at hr hlive
    refine ⟨by simp only [Op.sound, hr, Option.all_some, hm.collapseLive], fun w' o hs => ?_⟩
    simp only [step, getProofs, hr, Option.bind_eq_bind, Option.bind_some, Option.bind_eq_some_iff,
      Option.some.injEq,
      Prod.mk.injEq] at hs
    obtain ⟨⟨w1, -⟩, ⟨p, hp, ⟨q, proof⟩, hq, rfl, -⟩, rfl, -⟩ := hs
    exact Makers.anchored ((hm.updateMerkleHashCount hlive hp).doGetProofs hlive hq) fun _ hu => hu
  | copy t =>
    dsimp only [Op.tree] at hr
    refine ⟨rfl, fun w' o hs => ?_⟩
    simp only [step, hr, Option.bind_eq_bind, Option.bind_some, Option.some.injEq, Prod.mk.injEq] at hs
    obtain ⟨rfl, -⟩ := hs
    exact Makers.anchored hm.incrRef fun u hu => live_update hu
  | destroy t =>
    dsimp only [Op.tree] at hr
    refine ⟨rfl, fun w' o hs => ?_⟩
    simp only [step, hr, Option.bind_eq_bind, Option.bind_some, Option.bind_eq_some_iff,
      Option.some.injEq,
      Prod.mk.injEq] at hs
    obtain ⟨p, hp, rfl, -⟩ := hs
    simp only [Op.backed, hr, Option.all_some, hp, List.all_eq_true, List.mem_range] at hb
    obtain ⟨p', E', hd, h'⟩ := h.destroy hr
    rw [hp, Option.some.injEq] at hd
    subst hd
    refine h.destroy_anchored ha hp fun j it hj hl => ?_
    have hlt : j < p.size := by
      by_contra hn
      have := h'.held.fresh j (Nat.not_lt.1 hn)
      rw [hj] at this
      cases this
    have := hb j hlt
    rw [hj, Option.all_some, hl, Bool.false_or] at this
    exact bne_iff_ne.1 this
  | getItem t key =>
    dsimp only [Op.tree] at hr
    refine ⟨rfl, fun w' o hs => ?_⟩
    simp only [step, hr, Option.bind_eq_bind, Option.bind_some, Option.bind_eq_some_iff,
      Option.some.injEq,
      Prod.mk.injEq] at hs
    obtain ⟨_, -, rfl, -⟩ := hs
    exact ha
  | each t | size t =>
    dsimp only [Op.tree] at hr
    refine ⟨rfl, fun w' o hs => ?_⟩
    simp only [step, hr, Option.bind_eq_bind, Option.bind_some, Option.bind_eq_some_iff,
      Option.some.injEq,
      Prod.mk.injEq] at hs
    obtain ⟨_, -, rfl, -⟩ := hs
    exact ha

theorem run_anchored : ∀ {ops : List Op} {w : World} {m : Maps} {E : Slot → ItemId}
    {C : ItemId → List Pair},
    Refines sha w m E C → w.Anchored → backedRun sha w m ops = true →
    ∃ w' os m' E' C', run sha w ops = some (w', os) ∧ Refines sha w' m' E' C' ∧ w'.Anchored
  | [], w, m, E, C, h, ha, _ => ⟨w, [], m, E, C, rfl, h, ha⟩
  | op :: ops, w, m, E, C, h, ha, hb => by
    simp only [backedRun, Bool.and_eq_true] at hb
    obtain ⟨⟨ht, hop⟩, hrest⟩ := hb
    obtain ⟨hsound, hnext⟩ := step_anchored h ha ht hop
    obtain ⟨w1, o, m1, o', E1, C1, h1, h2, -, hr⟩ := step_refines h ht hsound
    rw [h1, h2] at hrest
    obtain ⟨w2, os, m2, E2, C2, h3, hr2, ha2⟩ := run_anchored hr (hnext w1 o h1) hrest
    exact ⟨w2, o :: os, m2, E2, C2, by simp [run, h1, h3], hr2, ha2⟩

theorem init_anchored : World.init.Anchored := by
  intro j it hj hl
  have hnew : it = Item.new 0 := by
    have hj' : Function.update (fun _ => none) 1 (some (Item.new 0)) j = some it := hj
    by_cases e : j = 1
    · subst e
      rw [Function.update_self, Option.some.injEq] at hj'
      exact hj'.symm
    · rw [Function.update_of_ne e] at hj'
      cases hj'
  rw [hnew] at hl
  cases hl

/-- **No back pointer dangles.** After every run in which no write splits a leaf
of a destroyed tree in place and no destructor leaves an internal node of its
tree behind, every internal node was made by a tree that exists, and hashing
any tree reads no other. -/
theorem no_dangling_tree (ops : List Op) (h : backedRun sha World.init Maps.init ops = true) :
    ∃ w os, run sha World.init ops = some (w, os) ∧ w.Anchored ∧
      ∀ t r, w.trees t = some r →
        (Diode.L2.updateMerkleHashCount sha w.live t FUEL w.pool r).isSome = true := by
  obtain ⟨E, C, h0⟩ := @refines_init sha
  obtain ⟨w, os, m, E', C', h1, h2, ha⟩ := run_anchored h0 init_anchored h
  refine ⟨w, os, h1, ha, fun t r hr => ?_⟩
  obtain ⟨-, it, hit, hb⟩ := h2.root_node hr
  obtain ⟨p', -, hp, -⟩ := updateMerkleHashCount_spec t h2.held h2.shape hit
    (by rw [hb]; exact fueled_FUEL _)
    ((h2.makers ha).collapseLive FUEL r)
  rw [hp]
  rfl

/-- Seventeen keys split the root. A copy is written and destroyed; the tree it was
made from loses a key and is hashed. -/
theorem no_dangling_tree_copy :
    ∃ w os, run Sha256.sha256 World.init (orphan.take 18 ++ [.insertItem 1 (addrKey 2) 6, .destroy 1,
        .insertItem 0 (addrKey 1) 0, .rootHash 0]) = some (w, os) ∧ w.Anchored ∧
      ∀ t r, w.trees t = some r →
        (Diode.L2.updateMerkleHashCount Sha256.sha256 w.live t FUEL w.pool r).isSome = true :=
  no_dangling_tree _ (by rw [Sha256.sha256_eq]; decide +kernel)

/-- **Where a pointer dangles.** Tree 0 splits its root and is destroyed; the
root of its copy still points to it, and hashing the copy reads it. -/
theorem orphan_root_dangles :
    ∃ w os r it, run Sha256.sha256 World.init (orphan.take 20) = some (w, os) ∧ w.trees 1 = some r ∧
      w.pool.nodes r = some it ∧
      it.is_leaf = false ∧ w.live it.m_tree = false ∧
      Diode.L2.updateMerkleHashCount Sha256.sha256 w.live 1 FUEL w.pool r = none := by
  have h : ((run Sha256.sha256 World.init (orphan.take 20)).bind fun x => (x.1.trees 1).bind fun r =>
      (x.1.pool.nodes r).map fun it => (it.is_leaf, x.1.live it.m_tree,
        (Diode.L2.updateMerkleHashCount Sha256.sha256 x.1.live 1 FUEL x.1.pool r).isSome)) = some
          (false, false, false) := by
    rw [Sha256.sha256_eq]
    decide +kernel
  simp only [Option.bind_eq_some_iff, Option.map_eq_some_iff, Prod.mk.injEq, Option.isSome_eq_false_iff,
    Option.isNone_iff_eq_none] at h
  obtain ⟨⟨w, os⟩, hw, r, hr, it, hit, h1, h2, h3⟩ := h
  exact ⟨w, os, r, it, hw, hr, hit, h1, h2, h3⟩

end
end Diode.L2
