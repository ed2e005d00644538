import Diode.L2Trie.Shape

/-!
# Hashing a shared trie

`root_hash` walks the dirty nodes, collapses the under-full ones in place and
caches hashes; it does so to nodes other trees share. `updateMerkleHashCount_spec`
says why that is harmless: no content changes, and a clean node caches what its
content, not its shape, determines.

The one read that can go wrong is `*it.m_tree`, in the collapse of a node whose
maker has been destroyed. `collapseLive` says that no such node will be met.

* `updateMerkleHashCount_spec`, `doGetProofs_spec`.
-/
namespace Diode.L2
open Diode.Core Diode.L1.Ext ItemPool

/-- No internal node that `update_merkle_hash_count` would collapse was made by
a destroyed tree: none reached from `id` through dirty internal nodes with at
most `LEAF_SIZE` pairs below it. -/
def collapseLive (live : TreeId → Bool) : Nat → ItemPool → ItemId → Bool
  | 0, _, _ => true
  | fuel + 1, p, id =>
    match p.nodes id with
    | none => true
    | some it =>
      if it.dirty && !it.is_leaf then
        (live it.m_tree || (each FUEL p id).all fun l => LEAF_SIZE < l.length) &&
          collapseLive live fuel p it.left_id && collapseLive live fuel p it.right_id
      else true

section
variable {sha : Bytes → Word} {M : TreeId → Prop} {live : TreeId → Bool}

theorem collapseLive_iff {fuel : Nat} {p : ItemPool} {E : Slot → ItemId} {C : ItemId → List Pair}
    {id : ItemId} {it : Item}
    (hp : Settled p E) (h : Whole sha M p C) (hid : p.nodes id = some it) (hd : it.dirty = true)
      (hl : it.is_leaf = false) :
    collapseLive live (fuel + 1) p id = true ↔ (live it.m_tree = true ∨ LEAF_SIZE < (C id).length) ∧
      ∀ b, collapseLive live fuel p (it.kid b) = true := by
  obtain ⟨l, hr, hperm⟩ := each_spec hp h hid (fueled_FUEL _)
  simp only [collapseLive, hid, hd, hl, hr, Bool.not_false, Bool.and_self, if_true, Option.all_some,
    hperm.length_eq,
    Bool.and_eq_true, Bool.or_eq_true, decide_eq_true_eq, Bool.forall_bool, Item.kid,
      Bool.false_eq_true, if_false, and_assoc]

/-- Only nodes below `id` matter. -/
theorem collapseLive_transport {C : ItemId → List Pair} {p p' : ItemPool} {E E' : Slot → ItemId}
    (hp : Settled p E)
    (h : Whole sha M p C) (hp' : Settled p' E') (h' : Whole sha M p' C) :
    ∀ {fuel : Nat} {id : ItemId} {it : Item}, p.nodes id = some it →
      (∀ j c, p.nodes j = some c → it.bits <+: c.bits → p'.nodes j = some c) →
      (collapseLive live fuel p id = true ↔ collapseLive live fuel p' id = true)
  | 0, _, _, _, _ => Iff.rfl
  | fuel + 1, id, it, hid, hsame => by
    have hid' := hsame id it hid (List.prefix_refl _)
    by_cases hdl : it.dirty = true ∧ it.is_leaf = false
    · obtain ⟨hd, hl⟩ := hdl
      rw [collapseLive_iff hp h hid hd hl, collapseLive_iff hp' h' hid' hd hl]
      refine and_congr_right fun _ => forall_congr' fun b => ?_
      obtain ⟨k, hk, hkb, -, -⟩ := h.child hp hid hl (((h.item id it hid).node hl).2 b)
      refine collapseLive_transport hp h hp' h' hk fun j c hj hpre => hsame j c hj ?_
      exact (List.prefix_append _ _).trans (hkb ▸ hpre)
    · have : (it.dirty && !it.is_leaf) = false := by
        cases hd : it.dirty <;> cases hl : it.is_leaf <;> simp_all
      simp [collapseLive, hid, hid', this]

theorem hashesAt_small {bits : List Bool} {c : List Pair} (h : c.length ≤ LEAF_SIZE) :
    hashesAt sha bits c = bucketToLeafes sha bits c := by
  rw [hashesAt, shapeAt_small h, Trie.hashes]

theorem hashesAt_big {bits : List Bool} {c : List Pair} (h : LEAF_SIZE < c.length)
    (hb : bits.length < MAX_BITS) :
    hashesAt sha bits c = nodeHashes sha (hashesAt sha (bits ++ [false]) (half sha false bits.length c))
      (hashesAt sha (bits ++ [true]) (half sha true bits.length c)) := by
  rw [hashesAt, shapeAt_big h hb, Trie.hashes, hashesAt, hashesAt]

/-- What `update_merkle_hash_count` does to the pool: contents stay, `id` is
clean, nodes that were clean and nodes above or beside `id` are as they were. -/
structure Updated (sha : Bytes → Word) (M : TreeId → Prop) (C : ItemId → List Pair)
    (p : ItemPool) (E : Slot → ItemId) (id : ItemId) (it : Item) (p' : ItemPool)
      (E' : Slot → ItemId) : Prop where
  held : Settled p' E'
  shape : Whole sha M p' C
  node : ∃ it', p'.nodes id = some it' ∧ it'.dirty = false ∧ it'.bits = it.bits
  roots : ∀ t, E' (.root t) = E (.root t)
  frame : ∀ j c, p.nodes j = some c → ¬it.bits <+: c.bits → p'.nodes j = some c
  same : ∀ j c', p'.nodes j = some c' → ∃ c, p.nodes j = some c ∧ (c.dirty = false → c' = c)

section
variable {tree : TreeId} {C : ItemId → List Pair} {p p' : ItemPool} {E : Slot → ItemId}
    {id : ItemId} {it : Item}

/-- The hashes cached in a clean node. -/
theorem Shape.hashes (h : Whole sha M p C) (hid : p.nodes id = some it) (hd : it.dirty = false) :
    ensureHashes p id = some (p, hashesAt sha it.bits (C id)) ∧ it.hash_count = (C id).length := by
  obtain ⟨h1, h2, -⟩ := (h.item id it hid).clean hd not_false
  exact ⟨by simp [ensureHashes, hid, h1], h2⟩

/-- Caching the hashes of a node whose children are clean, or that is a leaf. -/
theorem Shape.cache {n : Nat} {v : List Word} (hp : Settled p E) (h : Whole sha M p C)
    (hid : p.nodes id = some it)
    (hhv : v = hashesAt sha it.bits (C id)) (hn : n = (C id).length) (hbig : it.is_leaf = false →
      LEAF_SIZE < (C id).length)
    (hkids : it.is_leaf = false → ∀ b k, p.nodes (it.kid b) = some k → k.dirty = false)
      (hd : it.dirty = true) :
    Updated sha M C p E id it
      (p.setItem id { it with hash_values := some v, hash_count := n, dirty := false }) E := by
  have ho := h.item id it hid
  let it' : Item := { it with hash_values := some v, hash_count := n, dirty := false }
  have hp' : Settled (p.setItem id it') E := hp.setItem hid rfl fun _ b => by cases b <;> rfl
  have hself : (p.setItem id it').nodes id = some it' := by rw [setItem_nodes, Function.update_self]
  have hother : ∀ {j}, j ≠ id → (p.setItem id it').nodes j = p.nodes j := fun e => by
    rw [setItem_nodes, Function.update_of_ne e]
  refine ⟨hp', ?_, ⟨it', hself, rfl, rfl⟩, fun _ => rfl, ?_, ?_⟩
  · refine h.change hp' hself (fun j c hj hc => by rw [← hother hj]; exact hc) (fun _ _ _ _ => rfl)
      (fun _ _ => ⟨fun hb => hb, fun hl => hl⟩) ?_ ?_ (fun _ _ _ _ _ _ hk => hk) ?_
    · exact { sorted := ho.sorted, pairs := ho.pairs, tree := ho.tree, leaf := ho.leaf, node := ho.node
              clean := fun _ _ => ⟨congrArg some hhv, hn, hbig⟩ }
    · intro hl b hb
      obtain ⟨k, hk, hkb, hkC, -⟩ := h.child hp hid hl (b := b) hb
      have hne : it.kid b ≠ id := fun e => by
        rw [e, hid] at hk
        cases hk
        exact absurd (congrArg List.length hkb) (by simp)
      exact ⟨k, by show (p.setItem id it').nodes (it.kid b) = _; rw [hother hne, hk], hkC, fun _ => hkids hl b k hk⟩
    · intro j jt b hj hjt hl hk hs
      rw [hother hj] at hjt
      obtain ⟨k, hkn, hkC, -⟩ := h.kid j jt b hjt hl (by rw [hk]; exact hs)
      rw [hk] at hkC
      exact ⟨hkC, fun _ => rfl⟩
  · intro j c hj hnb
    have hne : j ≠ id := fun e => by
      rw [e, hid] at hj
      cases hj
      exact hnb (List.prefix_refl _)
    rw [hother hne]; exact hj
  · intro j c' hj
    by_cases e : j = id
    · subst e
      exact ⟨it, hid, fun h' => by rw [hd] at h'; cases h'⟩
    · rw [hother e] at hj
      exact ⟨c', hj, fun _ => rfl⟩

/-- An under-full internal node becomes a leaf. -/
theorem Shape.collapse (hp : Settled p E) (h : Whole sha M p C) (hid : p.nodes id = some it)
    (hd : it.dirty = true) (hsmall : (C id).length ≤ LEAF_SIZE) :
    let it1 : Item := { it with leaf_bucket := some (C id), hash_count := (C id).length }
    let it2 : Item := (it1.setKid false kItemNull).setKid true kItemNull
    ∃ p1 p2 E', (p.setItem id it1).setLeft id kItemNull = some p1 ∧ p1.setRight id kItemNull = some p2 ∧
      p2.nodes id = some it2 ∧ Updated sha M C p E id it
        (p2.setItem id { it2 with
          is_leaf := true, hash_values := some (bucketToLeafes sha it2.bits (C id)), dirty := false }) E' := by
  intro it1 it2
  have ho := h.item id it hid
  have hp0 : Settled (p.setItem id it1) E := hp.setItem hid rfl fun _ b => by cases b <;> rfl
  have hid0 : (p.setItem id it1).nodes id = some it1 := by rw [setItem_nodes, Function.update_self]
  have hother0 : ∀ {j}, j ≠ id → (p.setItem id it1).nodes j = p.nodes j := fun e => by
    rw [setItem_nodes, Function.update_of_ne e]
  obtain ⟨p1, E1, hr1, hp1, hn1, he1, hb1, hk1⟩ := setKid_spec (b := false)
    (c := kItemNull) hp0 hid0 fun e => absurd rfl e
  obtain ⟨p2, E2, hr2, hp2, hn2, he2, hb2, hk2⟩ := setKid_spec (b := true) (c := kItemNull) hp1 hn1 fun e => absurd rfl e
  let it3 : Item := { it2 with is_leaf := true, hash_values := some (bucketToLeafes sha it2.bits (C id)), dirty := false }
  have hp3 : Settled (p2.setItem id it3) E2 := hp2.setItem hn2 rfl fun _ b => by cases b <;> rfl
  have hself : (p2.setItem id it3).nodes id = some it3 := by rw [setItem_nodes, Function.update_self]
  have hother : ∀ {j}, j ≠ id → (p2.setItem id it3).nodes j = p2.nodes j := fun e => by
    rw [setItem_nodes, Function.update_of_ne e]
  have hback : ∀ j c, j ≠ id → (p2.setItem id it3).nodes j = some c → p.nodes j = some c := by
    intro j c hj hc
    rw [hother hj] at hc
    have := hb1 j c hj (hb2 j c hj hc)
    rwa [hother0 hj] at this
  have hbits : it3.bits = it.bits := rfl
  refine ⟨p1, p2, E2, hr1, hr2, hn2, hp3, ?_, ⟨it3, hself, rfl, rfl⟩, ?_, ?_, ?_⟩
  · refine h.change hp3 hself hback (fun _ _ _ _ => rfl) (fun _ _ => ⟨fun hb => hb, fun hl => hl⟩) ?_
      (fun hl => by cases hl) (fun _ _ _ _ _ _ hk => hk) ?_
    · exact { sorted := ho.sorted, pairs := ho.pairs, tree := ho.tree
              leaf := fun _ => ⟨rfl, fun b => by cases b <;> rfl, fun _ => hsmall⟩
              node := fun hl => by cases hl
              clean := fun _ _ => ⟨by rw [hashesAt_small hsmall], rfl, fun hl => by cases hl⟩ }
    · intro j jt b hj hjt hl hk hs
      obtain ⟨k, hkn, hkC, -⟩ := h.kid j jt b (hback j jt hj hjt) hl (by rw [hk]; exact hs)
      rw [hk] at hkC
      exact ⟨hkC, fun _ => rfl⟩
  · intro t
    rcases he2 (.root t) (by simp) with e | ⟨-, e⟩
    · rcases he1 (.root t) (by simp) with e' | ⟨-, e'⟩
      · exact e.trans e'
      · exact absurd rfl (e' t)
    · exact absurd rfl (e t)
  · intro j c hj hnb
    have hne : j ≠ id := fun e => by
      rw [e, hid] at hj
      cases hj
      exact hnb (List.prefix_refl _)
    have hnb' : ∀ b, ¬(it.bits ++ [b]) <+: c.bits := fun b hpre =>
      hnb ((List.prefix_append _ _).trans hpre)
    rw [hother hne]
    exact hk2 j c hne (hk1 j c hne (by rw [hother0 hne]; exact hj) (.inr (hnb' false)))
      (.inr (hnb' true))
  · intro j c' hj
    by_cases e : j = id
    · subst e
      exact ⟨it, hid, fun h' => by rw [hd] at h'; cases h'⟩
    · exact ⟨c', hback j c' e hj, fun _ => rfl⟩

/-- The children's updates and the node's own make the node's update. -/
theorem Updated.node_of_kids {p1 p2 p3 : ItemPool} {E1 E2 E3 : Slot → ItemId} {k1 k2 : ItemId}
    {l r it2 : Item}
    (h1 : Updated sha M C p E k1 l p1 E1) (h2 : Updated sha M C p1 E1 k2 r p2 E2)
    (h3 : Updated sha M C p2 E2 id it2 p3 E3) (hl : it.bits <+: l.bits) (hr : it.bits <+: r.bits)
    (hb : it2.bits = it.bits) : Updated sha M C p E id it p3 E3 := by
  refine ⟨h3.held, h3.shape, ?_, ?_, ?_, ?_⟩
  · obtain ⟨it', hn, hd, hb'⟩ := h3.node
    exact ⟨it', hn, hd, hb'.trans hb⟩
  · intro t; rw [h3.roots, h2.roots, h1.roots]
  · intro j c hj hnb
    exact h3.frame j c (h2.frame j c (h1.frame j c hj fun hpre => hnb (hl.trans hpre)) fun hpre =>
      hnb (hr.trans hpre))
      (by rw [hb]; exact hnb)
  · intro j c' hj
    obtain ⟨c2, hc2, e2⟩ := h3.same j c' hj
    obtain ⟨c1, hc1, e1⟩ := h2.same j c2 hc2
    obtain ⟨c0, hc0, e0⟩ := h1.same j c1 hc1
    refine ⟨c0, hc0, fun hd => ?_⟩
    have := e0 hd
    subst this
    have := e1 hd
    subst this
    exact e2 hd

end

/-- **`update_merkle_hash_count`.** -/
theorem updateMerkleHashCount_spec (tree : TreeId) {C : ItemId → List Pair} :
    ∀ {fuel : Nat} {p : ItemPool} {E : Slot → ItemId} {id : ItemId} {it : Item}, Settled p E →
      Whole sha M p C →
      p.nodes id = some it → Fueled fuel it.bits.length → collapseLive live fuel p id = true →
      ∃ p' E', updateMerkleHashCount sha live tree fuel p id = some p' ∧ Updated sha M C p E id it p' E'
  | 0, p, _, id, it, hp, _, hid, hf, _ => by
    obtain ⟨m, hm⟩ := hf.pos (hp.bounded _ it hid)
    cases hm
  | fuel + 1, p, E, id, it, hp, h, hid, hf, hs => by
    have hz : id ≠ kItemNull := hp.ne_zero hid
    have ho := h.item id it hid
    simp only [updateMerkleHashCount, hz, if_false, hid, Option.bind_eq_bind, Option.bind_some]
    by_cases hd : it.dirty = true
    swap
    · rw [Bool.not_eq_true] at hd
      refine ⟨p, E, by simp [hd], hp, h, ⟨it, hid, hd, rfl⟩, fun _ => rfl, fun _ _ hj _ => hj, fun j c hj => ⟨c, hj, fun _ => rfl⟩⟩
    rw [if_neg (by simp [hd])]
    by_cases hleaf : it.is_leaf = true
    · obtain ⟨hb, -, hsz⟩ := ho.leaf hleaf
      have hsmall := hsz not_false
      refine ⟨_, E, ?_, Shape.cache hp h hid (hashesAt_small hsmall).symm rfl
        (fun hl => by rw [hleaf] at hl; cases hl) (fun hl => by rw [hleaf] at hl; cases hl) hd⟩
      rw [if_pos hleaf, hb, Option.bind_some, if_neg (Nat.not_lt.2 hsmall)]
    rw [if_neg hleaf]
    rw [Bool.not_eq_true] at hleaf
    obtain ⟨hcl, hck⟩ := (collapseLive_iff hp h hid hd hleaf).1 hs
    obtain ⟨l, hln, hlb, hlC, -⟩ := h.child hp hid hleaf ((ho.node hleaf).2 false)
    obtain ⟨r, hrn, hrb, hrC, -⟩ := h.child hp hid hleaf ((ho.node hleaf).2 true)
    -- the left child
    obtain ⟨p1, E1, hr1, h1⟩ := updateMerkleHashCount_spec tree hp h hln
      (by rw [hlb]; exact hf.down false) (hck false)
    have hid1 := h1.frame id it hid (by rw [hlb]; exact not_prefix_snoc (le_refl _))
    have hrn1 := h1.frame _ r hrn (by rw [hlb, hrb]; exact not_prefix_side (by simp))
    have hs1 : collapseLive live fuel p1 (it.kid true) = true := by
      refine (collapseLive_transport hp h h1.held h1.shape hrn fun j c hj hpre =>
        h1.frame j c hj ?_).1 (hck true)
      rw [hrb] at hpre
      rw [hlb]
      exact not_prefix_both (by simp) hpre
    -- the right child
    obtain ⟨p2, E2, hr2, h2⟩ := updateMerkleHashCount_spec tree h1.held h1.shape hrn1
      (by rw [hrb]; exact hf.down true) hs1
    have hid2 := h2.frame id it hid1 (by rw [hrb]; exact not_prefix_snoc (le_refl _))
    obtain ⟨l1, hl1, hld1, hlb1⟩ := h1.node
    have hl2 := h2.frame _ l1 hl1 (by rw [hrb, hlb1, hlb]; exact not_prefix_side (by simp))
    obtain ⟨r2, hr2n, hrd2, hrb2⟩ := h2.node
    obtain ⟨hlh, hlc⟩ := h2.shape.hashes hl2 hld1
    obtain ⟨hrh, hrc⟩ := h2.shape.hashes hr2n hrd2
    have hcount : l1.hash_count + r2.hash_count = (C id).length := by
      rw [hlc, hrc, hlC, hrC, half_length]
    have hr1' : updateMerkleHashCount sha live tree fuel p it.left_id = some p1 := hr1
    have hr2' : updateMerkleHashCount sha live tree fuel p1 it.right_id = some p2 := hr2
    have hl2' : p2.nodes it.left_id = some l1 := hl2
    have hr2n' : p2.nodes it.right_id = some r2 := hr2n
    have hlh' : ensureHashes p2 it.left_id = _ := hlh
    have hrh' : ensureHashes p2 it.right_id = _ := hrh
    have hpl : it.bits <+: l.bits := by rw [hlb]; exact List.prefix_append _ _
    have hpr : it.bits <+: r.bits := by rw [hrb]; exact List.prefix_append _ _
    simp only [hr1', hid1, hr2', hid2, hl2', hr2n', hcount, Option.bind_some]
    by_cases hsmall : (C id).length ≤ LEAF_SIZE
    · obtain ⟨ps, hps, hperm⟩ := each_spec h2.held h2.shape hid2 (fueled_FUEL _)
      have hbucket : List.foldl (fun b q => Assoc.put b q.1 q.2) (it.leaf_bucket.getD [])
        ps = C id := by
        rw [(ho.node hleaf).1, Option.getD_none]
        exact ofPairs_eq ((hperm.map _).nodup_iff.2 (sorted_nodup ho.sorted)) ho.sorted hperm.symm
      obtain ⟨p3, p4, E4, hr3, hr4, hn4, h4⟩ := Shape.collapse h2.held h2.shape hid2 hd hsmall
      have hlive : ¬((it.leaf_bucket.isNone && !live it.m_tree) = true) := by
        rcases hcl with hcl | hcl
        · simp [hcl]
        · omega
      refine ⟨_, E4, ?_, h1.node_of_kids h2 h4 hpl hpr rfl⟩
      rw [if_pos hsmall, if_neg hlive, hps, Option.bind_some, hbucket, hr3, Option.bind_some, hr4,
        Option.bind_some, hn4]
      rfl
    · have hlt : it.bits.length < MAX_BITS := by
        have := hp.bounded _ l hln
        rw [hlb, List.length_append, List.length_singleton] at this
        omega
      refine ⟨_, E2, ?_, h1.node_of_kids h2 (Shape.cache h2.held h2.shape hid2 (v := nodeHashes sha
        (hashesAt sha l1.bits (C (it.kid false))) (hashesAt sha r2.bits (C (it.kid true)))) ?_ rfl
          (fun _ => by omega) ?_ hd)
        hpl hpr rfl⟩
      · rw [if_neg hsmall, hlh', Option.bind_some, hrh']
        rfl
      · rw [hlb1, hlb, hrb2, hrb, hlC, hrC, hashesAt_big (by omega) hlt]
      · intro _ b k hk
        cases b with
        | false => rw [hl2] at hk; cases hk; exact hld1
        | true => rw [hr2n] at hk; cases hk; exact hrd2

/-- The collapse reads no destroyed tree when the routine comes to its end. -/
theorem collapseLive_of_update (tree : TreeId) {C : ItemId → List Pair} :
    ∀ {fuel : Nat} {p p' : ItemPool} {E : Slot → ItemId} {id : ItemId} {it : Item}, Settled p E →
      Whole sha M p C →
      p.nodes id = some it → Fueled fuel it.bits.length → updateMerkleHashCount sha live tree fuel p
        id = some p' →
      collapseLive live fuel p id = true
  | 0, _, _, _, _, _, _, _, _, _, _ => rfl
  | fuel + 1, p, p', E, id, it, hp, h, hid, hf, hr => by
    have hz : id ≠ kItemNull := hp.ne_zero hid
    have ho := h.item id it hid
    by_cases hdl : it.dirty = true ∧ it.is_leaf = false
    swap
    · have : (it.dirty && !it.is_leaf) = false := by
        cases hd : it.dirty <;> cases hl : it.is_leaf <;> simp_all
      simp [collapseLive, hid, this]
    obtain ⟨hd, hleaf⟩ := hdl
    obtain ⟨l, hln, hlb, hlC, -⟩ := h.child hp hid hleaf ((ho.node hleaf).2 false)
    obtain ⟨r, hrn, hrb, hrC, -⟩ := h.child hp hid hleaf ((ho.node hleaf).2 true)
    unfold updateMerkleHashCount at hr
    rw [if_neg hz, hid] at hr
    simp only [Option.bind_eq_bind, Option.bind_some, hd, hleaf, Bool.not_true, Bool.false_eq_true,
      if_false] at hr
    obtain ⟨p1, hr1, hr⟩ := Option.bind_eq_some_iff.1 hr
    have hf1 : Fueled fuel l.bits.length := by rw [hlb]; exact hf.down false
    have hf2 : Fueled fuel r.bits.length := by rw [hrb]; exact hf.down true
    -- the left child, then the right one in the pool that leaves
    have hck1 := collapseLive_of_update tree hp h hln hf1 hr1
    obtain ⟨q, E1, hq, h1⟩ := updateMerkleHashCount_spec tree hp h hln hf1 hck1
    obtain rfl : p1 = q := Option.some.inj (hr1.symm.trans hq)
    have hid1 := h1.frame id it hid (by rw [hlb]; exact not_prefix_snoc (le_refl _))
    have hrn1 := h1.frame _ r hrn (by rw [hlb, hrb]; exact not_prefix_side (by simp))
    rw [hid1, Option.bind_some] at hr
    obtain ⟨p2, hr2, hr⟩ := Option.bind_eq_some_iff.1 hr
    have hck2 := collapseLive_of_update tree h1.held h1.shape hrn1 hf2 hr2
    have hck : collapseLive live fuel p (it.kid true) = true := by
      refine (collapseLive_transport hp h h1.held h1.shape hrn fun j c hj hpre =>
        h1.frame j c hj ?_).2 hck2
      rw [hrb] at hpre
      rw [hlb]
      exact not_prefix_both (by simp) hpre
    obtain ⟨q, E2, hq, h2⟩ := updateMerkleHashCount_spec tree h1.held h1.shape hrn1 hf2 hck2
    obtain rfl : p2 = q := Option.some.inj (hr2.symm.trans hq)
    rw [collapseLive_iff hp h hid hd hleaf]
    refine ⟨?_, fun b => by cases b <;> assumption⟩
    obtain ⟨l1, hl1, hld1, hlb1⟩ := h1.node
    have hl2 : p2.nodes it.left_id = some l1 := h2.frame _ l1 hl1
      (by rw [hrb, hlb1, hlb]; exact not_prefix_side (by simp))
    obtain ⟨r2, hr2n, hrd2, hrb2⟩ := h2.node
    have hr2n' : p2.nodes it.right_id = some r2 := hr2n
    have hcount : l1.hash_count + r2.hash_count = (C id).length := by
      rw [(h2.shape.hashes hl2 hld1).2, (h2.shape.hashes hr2n hrd2).2]
      exact (congrArg₂ (fun c d => c.length + d.length) hlC hrC).trans (half_length _ _)
    rw [h2.frame id it hid1 (by rw [hrb]; exact not_prefix_snoc (le_refl _)), Option.bind_some, hl2,
      Option.bind_some, hr2n',
      Option.bind_some, hcount] at hr
    rcases Nat.lt_or_ge LEAF_SIZE (C id).length with hbig | hsmall
    · exact .inr hbig
    · left
      rw [if_pos hsmall, (ho.node hleaf).1] at hr
      cases hlive : live it.m_tree with
      | true => rfl
      | false =>
        rw [hlive] at hr
        cases hr

/-- A clean node is left alone. -/
theorem updateMerkleHashCount_clean {tree : TreeId} {fuel : Nat} {p : ItemPool} {id : ItemId}
    {it : Item} (hf : 0 < fuel)
    (hid : p.nodes id = some it) (hd : it.dirty = false) :
      updateMerkleHashCount sha live tree fuel p id = some p := by
  cases fuel with
  | zero => cases hf
  | succ n =>
    by_cases hz : id = kItemNull
    · simp [updateMerkleHashCount, hz]
    · simp [updateMerkleHashCount, hz, hid, hd]

theorem hashesAt_length (bits : List Bool) (c : List Pair) :
    (hashesAt sha bits c).length = LEAF_SIZE := hashes_length _ _

theorem getElem?_hashesAt {bits : List Bool} {c : List Pair} (key : Bytes) :
    (hashesAt sha bits c)[hashToLeafindex sha key]? = some
      ((hashesAt sha bits c).getD (hashToLeafindex sha key) 0) := by
  have hlt : hashToLeafindex sha key < (hashesAt sha bits c).length := by
    rw [hashesAt_length]; exact hashToLeafindex_lt key
  rw [List.getElem?_eq_getElem hlt, List.getD_eq_getElem?_getD, List.getElem?_eq_getElem hlt,
    Option.getD_some]

/-- **`do_get_proofs`** below a clean node reads the proof of its content. -/
theorem doGetProofs_spec (live : TreeId → Bool) (tree : TreeId) {C : ItemId → List Pair} {p : ItemPool}
    {E : Slot → ItemId} (key : Bytes) (hp : Settled p E) (h : Whole sha M p C) :
      ∀ {fuel : Nat} {id : ItemId} {it : Item}, p.nodes id = some it →
    it.dirty = false → Fueled fuel it.bits.length →
    doGetProofs sha live tree key fuel p id = some
      (p, (shapeAt sha it.bits (C id)).proof sha key it.bits)
  | 0, id, it, hid, _, hf => by
    obtain ⟨m, hm⟩ := hf.pos (hp.bounded _ it hid)
    cases hm
  | fuel + 1, id, it, hid, hd, hf => by
    have ho := h.item id it hid
    obtain ⟨-, -, hbig⟩ := ho.clean hd not_false
    simp only [doGetProofs, hid, Option.bind_eq_bind, Option.bind_some]
    by_cases hleaf : it.is_leaf = true
    · obtain ⟨hb, -, hsz⟩ := ho.leaf hleaf
      rw [if_pos hleaf, hb, Option.bind_some, shapeAt_small (hsz not_false), Trie.proof]
    rw [if_neg hleaf]
    rw [Bool.not_eq_true] at hleaf
    obtain ⟨l, hln, hlb, hlC, hld⟩ := h.child hp hid hleaf ((ho.node hleaf).2 false)
    obtain ⟨r, hrn, hrb, hrC, hrd⟩ := h.child hp hid hleaf ((ho.node hleaf).2 true)
    have hlt : it.bits.length < MAX_BITS := by
      have := hp.bounded _ l hln
      rw [hlb, List.length_append, List.length_singleton] at this
      omega
    have hul : updateMerkleHashCount sha live tree FUEL p it.left_id = some p :=
      updateMerkleHashCount_clean (by decide) hln (hld hd)
    have hur : updateMerkleHashCount sha live tree FUEL p it.right_id = some p :=
      updateMerkleHashCount_clean (by decide) hrn (hrd hd)
    have hhl : ensureHashes p it.left_id = _ := (h.hashes hln (hld hd)).1
    have hhr : ensureHashes p it.right_id = _ := (h.hashes hrn (hrd hd)).1
    have hl : doGetProofs sha live tree key fuel p it.left_id = _ :=
      doGetProofs_spec live tree key hp h hln (hld hd) (by rw [hlb]; exact hf.down false)
    have hr : doGetProofs sha live tree key fuel p it.right_id = _ :=
      doGetProofs_spec live tree key hp h hrn (hrd hd) (by rw [hrb]; exact hf.down true)
    have hlC' : C it.left_id = _ := hlC
    have hrC' : C it.right_id = _ := hrC
    simp only [hul, hur, hhl, hhr, hl, hr, getElem?_hashesAt, Option.bind_some, hlb, hrb, hlC,
      hrC, hlC', hrC']
    rw [shapeAt_big (hbig hleaf) hlt, Trie.proof]
    split <;> rfl

end
end Diode.L2
