import Diode.L2Trie.Shape

/-!
# Writes into a shared trie

`insert_path` walks down from the root, cloning every node that has more than
one reference, and links the clones upwards.

* `splitNode_spec`: an over-full leaf becomes an internal node over new leaves.
* `insertPath_spec`: the returned node holds the content with the key written;
  no node that a root slot refers to changes its content, except a root that
  was written in place because nothing else refers to it.
-/
namespace Diode.L2
open Diode.Core Diode.L1.Ext ItemPool

section
variable {sha : Bytes → Word} {M : TreeId → Prop}

/-! ## `split_node` -/

/-- What `split_node` leaves of node `id`. -/
structure Split (sha : Bytes → Word) (M : TreeId → Prop) (stale : ItemId) (big loose : ItemId → Prop)
    (p : ItemPool) (E : Slot → ItemId) (C : ItemId → List Pair) (id : ItemId) (it : Item)
    (p' : ItemPool) (E' : Slot → ItemId) (C' : ItemId → List Pair) (it' : Item) : Prop where
  held : Settled p' E'
  shape : Shape sha M stale big loose p' C'
  node : p'.nodes id = some it'
  fields : it'.bits = it.bits ∧ it'.m_tree = it.m_tree ∧ (it.dirty = true → it'.dirty = true)
  content : ∀ j c, p.nodes j = some c → C' j = C j
  frame : ∀ j c, j ≠ id → p.nodes j = some c → p'.nodes j = some c
  roots : ∀ t, E' (.root t) = E (.root t)
  slots : ∀ s j c, p.nodes j = some c → E' s = j → E s = j

/-- A new leaf for the half `c` of a bucket. -/
def newLeaf (tree : TreeId) (bits : List Bool) (c : List Pair) : Item :=
  { Item.new tree with bits := bits, leaf_bucket := some c }

theorem newLeaf_kid (tree : TreeId) (bits : List Bool) (c : List Pair) (b : Bool) :
    (newLeaf tree bits c).kid b = 0 := by
  cases b <;> rfl

theorem newLeaf_ok {tree : TreeId} (ht : M tree) {big loose : Prop} {bits : List Bool} {c : List Pair}
    (hs : Assoc.Sorted c) (hc : ∀ q ∈ c, q.2 ≠ 0 ∧ Under sha bits q.1) (hb : big) :
    ItemOk sha M big loose c (newLeaf tree bits c) where
  sorted := hs
  pairs := hc
  tree := ht
  leaf := fun _ => ⟨rfl, newLeaf_kid tree bits c, fun h => absurd hb h⟩
  node := fun h => by cases h
  clean := fun h => by cases h

/-- A new leaf joins the pool. -/
theorem Shape.addLeaf {stale n : ItemId} {big loose : ItemId → Prop} {p q : ItemPool}
    {E : Slot → ItemId}
    {C : ItemId → List Pair} (h : Shape sha M stale big loose p C) (hq : Settled q E)
      {tree : TreeId} (ht : M tree)
    {bits : List Bool} {c : List Pair} (hn : q.nodes = Function.update p.nodes n
      (some (newLeaf tree bits c)))
    (hp : Settled p E) (hdead : p.nodes n = none) (hs : Assoc.Sorted c)
    (hc : ∀ r ∈ c, r.2 ≠ 0 ∧ Under sha bits r.1) :
    Shape sha M stale (fun j => big j ∨ j = n) loose q (Function.update C n c) := by
  have hother : ∀ j, j ≠ n → q.nodes j = p.nodes j := fun j e => by rw [hn, Function.update_of_ne e]
  have hnone : ∀ s, E s ≠ n := by
    intro s e
    have h0 := hq.ne_zero (show q.nodes n = some (newLeaf tree bits c) by rw [hn, Function.update_self])
    obtain ⟨k, hk, -⟩ := hp.slot s (by rw [e]; exact h0)
    rw [e, hdead] at hk
    cases hk
  refine h.change hq (show q.nodes n = some (newLeaf tree bits c) by rw [hn, Function.update_self])
    (fun j it e hj => by rw [← hother j e]; exact hj) (fun j it e _ => Function.update_of_ne e _ _)
    (fun j _ => ⟨.inl, fun hl => hl⟩) ?_ (fun hl => by cases hl) (fun j it b _ _ _ hk => hk) ?_
  · rw [Function.update_self]
    exact newLeaf_ok ht hs hc (.inr rfl)
  · intro j it b e hj _ hk
    exact absurd ((hq.link j it hj not_false b).trans hk) (hnone _)

theorem half_pairs {bits : List Bool} {c : List Pair} (h : ∀ q ∈ c, q.2 ≠ 0 ∧ Under sha bits q.1) (b : Bool) :
    ∀ q ∈ half sha b bits.length c, q.2 ≠ 0 ∧ Under sha (bits ++ [b]) q.1 := by
  intro q hq
  obtain ⟨hm, hb⟩ := mem_half.1 hq
  exact ⟨(h q hm).1, under_snoc.2 ⟨(h q hm).2, hb⟩⟩

theorem sparse_half {c : List Pair} (h : Sparse sha c) (b : Bool) (d : Nat) :
    Sparse sha (half sha b d c) :=
  sparse_sublist h List.filter_sublist

/-- An over-full leaf has bits left to split on. -/
theorem bits_lt_of_big {bits : List Bool} {c : List Pair} (hl : bits.length ≤ MAX_BITS)
    (h : Sparse sha c)
    (hc : ∀ q ∈ c, Under sha bits q.1) (hbig : LEAF_SIZE < c.length) : bits.length < MAX_BITS := by
  by_contra hn
  have he : bits.length = MAX_BITS := by omega
  have := h.length_le bits fun q hq => by
    have := hc q hq
    rwa [Under, he] at this
  omega

/-- The pool with the two new leaves of a split. -/
def withLeaves (sha : Bytes → Word) (tree : TreeId) (p : ItemPool) (bits : List Bool)
    (c : List Pair) : ItemId × ItemId × ItemPool :=
  let (L, p) := p.allocLeaf tree
  let (R, p) := p.allocLeaf tree
  (L, R, (p.setItem L (newLeaf tree (bits ++ [false]) (half sha false bits.length c))).setItem R
    (newLeaf tree (bits ++ [true]) (half sha true bits.length c)))

/-- What the two new leaves are. -/
structure Leaves (p q : ItemPool) (C Cq : ItemId → List Pair) (tree : TreeId) (bits : List Bool)
    (cl cr : List Pair)
    (L R : ItemId) : Prop where
  ne : L ≠ R
  contents : Cq L = cl ∧ Cq R = cr
  content : ∀ j c, p.nodes j = some c → Cq j = C j
  left : L ≠ 0 ∧ p.nodes L = none
  right : R ≠ 0 ∧ p.nodes R = none
  nodes : q.nodes = Function.update
    (Function.update p.nodes L (some (newLeaf tree (bits ++ [false]) cl))) R
    (some (newLeaf tree (bits ++ [true]) cr))

section
variable {p q : ItemPool} {C Cq : ItemId → List Pair} {tree : TreeId} {bits : List Bool}
  {cl cr : List Pair} {L R : ItemId}

theorem Leaves.node_left (h : Leaves p q C Cq tree bits cl cr L R) :
    q.nodes L = some (newLeaf tree (bits ++ [false]) cl) := by
  rw [h.nodes, Function.update_of_ne h.ne, Function.update_self]

theorem Leaves.node_right (h : Leaves p q C Cq tree bits cl cr L R) :
    q.nodes R = some (newLeaf tree (bits ++ [true]) cr) := by
  rw [h.nodes, Function.update_self]

/-- The two were free before. -/
theorem Leaves.ne_of_live (h : Leaves p q C Cq tree bits cl cr L R) {j : ItemId} {c : Item}
    (hj : p.nodes j = some c) : j ≠ L ∧ j ≠ R := by
  refine ⟨?_, ?_⟩
  · intro e
    rw [e, h.left.2] at hj
    cases hj
  · intro e
    rw [e, h.right.2] at hj
    cases hj

/-- All other items stay. -/
theorem Leaves.node_live (h : Leaves p q C Cq tree bits cl cr L R) {j : ItemId} {c : Item}
    (hj : p.nodes j = some c) : q.nodes j = some c := by
  obtain ⟨hjL, hjR⟩ := h.ne_of_live hj
  rw [h.nodes, Function.update_of_ne hjR, Function.update_of_ne hjL, hj]

end

theorem withLeaves_spec {tree : TreeId} (ht : M tree) {stale : ItemId} {big loose : ItemId → Prop}
    {p : ItemPool}
    {E : Slot → ItemId} {C : ItemId → List Pair} (hp : Settled p E)
      (h : Shape sha M stale big loose p C)
    {bits : List Bool} {c : List Pair} (hb : bits.length < MAX_BITS) (hs : Assoc.Sorted c)
    (hc : ∀ q ∈ c, q.2 ≠ 0 ∧ Under sha bits q.1) :
    ∃ L R q Cq, withLeaves sha tree p bits c = (L, R, q) ∧
      Leaves p q C Cq tree bits (half sha false bits.length c) (half sha true bits.length c) L R ∧ Settled q E ∧
      Shape sha M stale (fun j => (big j ∨ j = L) ∨ j = R) loose q Cq := by
  obtain ⟨hL0, hLd, hn1, hr1, hp1⟩ := allocLeaf_spec hp tree
  obtain ⟨hR0, hRd, hn2, hr2, hp2⟩ := allocLeaf_spec hp1 tree
  unfold withLeaves
  generalize p.allocLeaf tree = r1 at *
  obtain ⟨L, q1⟩ := r1
  dsimp only at *
  generalize q1.allocLeaf tree = r2 at *
  obtain ⟨R, q2⟩ := r2
  dsimp only at *
  have hne : L ≠ R := by
    intro e
    rw [← e, hn1, Function.update_self] at hRd
    cases hRd
  have hRd' : p.nodes R = none := by rw [hn1, Function.update_of_ne (Ne.symm hne)] at hRd; exact hRd
  have hlen : ∀ b : Bool, (bits ++ [b]).length ≤ MAX_BITS := by
    intro b; rw [List.length_append, List.length_singleton]; omega
  -- the left leaf alone, to add the two one after the other
  have hqL : Settled (q1.setItem L (newLeaf tree (bits ++ [false]) (half sha false bits.length c))) E :=
    hp1.setFresh (show q1.nodes L = some (Item.new tree) by rw [hn1, Function.update_self])
      (by rw [hr1]; exact (hp.dead L hLd).1)
      (hp.dead L hLd).2 (hlen false) fun _ b => newLeaf_kid _ _ _ b
  have hnL : (q1.setItem L (newLeaf tree (bits ++ [false]) (half sha false bits.length c))).nodes =
      Function.update p.nodes L
        (some (newLeaf tree (bits ++ [false]) (half sha false bits.length c))) := by
    rw [setItem_nodes, hn1, Function.update_idem]
  have hSL := h.addLeaf hqL ht hnL hp hLd (half_sorted hs) (half_pairs hc false)
  have hq2 : Settled (q2.setItem L (newLeaf tree (bits ++ [false]) (half sha false bits.length c))) E :=
    hp2.setFresh (show q2.nodes L = some (Item.new tree) by
      rw [hn2, Function.update_of_ne hne, hn1, Function.update_self])
      (by rw [hr2, hr1]; exact (hp.dead L hLd).1) (hp.dead L hLd).2 (hlen false) fun _ b =>
        newLeaf_kid _ _ _ b
  have hq : Settled ((q2.setItem L (newLeaf tree (bits ++ [false]) (half sha false bits.length c))).setItem R
      (newLeaf tree (bits ++ [true]) (half sha true bits.length c))) E :=
    hq2.setFresh (show (q2.setItem L _).nodes R = some (Item.new tree) by
      rw [setItem_nodes, Function.update_of_ne (Ne.symm hne), hn2, Function.update_self])
      (by rw [setItem_refcnt, hr2, hr1]; exact (hp.dead R hRd').1) (hp.dead R hRd').2 (hlen true)
      fun _ b => newLeaf_kid _ _ _ b
  have hnq : ((q2.setItem L (newLeaf tree (bits ++ [false]) (half sha false bits.length c))).setItem R
      (newLeaf tree (bits ++ [true]) (half sha true bits.length c))).nodes =
      Function.update (Function.update p.nodes L
        (some (newLeaf tree (bits ++ [false]) (half sha false bits.length c)))) R
        (some (newLeaf tree (bits ++ [true]) (half sha true bits.length c))) := by
    rw [setItem_nodes, setItem_nodes, hn2, hn1]
    funext j
    by_cases e : j = R
    · subst e; simp
    · by_cases e' : j = L
      · subst e'; simp [e]
      · simp [e, e']
  refine ⟨L, R, _, Function.update (Function.update C L (half sha false bits.length c)) R
    (half sha true bits.length c),
    rfl, ⟨hne, ⟨by simp [hne], by simp⟩, fun j d hj => ?_, ⟨hL0, hLd⟩, ⟨hR0, hRd'⟩, hnq⟩, hq, ?_⟩
  · have hjL : j ≠ L := fun e => by rw [e, hLd] at hj; cases hj
    have hjR : j ≠ R := fun e => by rw [e, hRd'] at hj; cases hj
    rw [Function.update_of_ne hjR, Function.update_of_ne hjL]
  refine hSL.addLeaf hq ht (by rw [hnq, hnL]) hqL ?_ (half_sorted hs) (half_pairs hc true)
  rw [hnL, Function.update_of_ne (Ne.symm hne)]
  exact hRd'

/-- What linking `L` and `R` below `id` leaves. -/
structure Grafted (sha : Bytes → Word) (M : TreeId → Prop) (stale : ItemId) (big loose : ItemId → Prop)
    (p : ItemPool) (E : Slot → ItemId) (C : ItemId → List Pair) (id L R : ItemId) (it : Item)
    (p' : ItemPool) (E' : Slot → ItemId) (it' : Item) : Prop where
  held : Settled p' E'
  shape : Shape sha M stale big loose p' C
  node : p'.nodes id = some it'
  fields : it'.bits = it.bits ∧ it'.m_tree = it.m_tree ∧ (it.dirty = true → it'.dirty = true)
  frame : ∀ j c, j ≠ id → p.nodes j = some c → p'.nodes j = some c
  roots : ∀ t, E' (.root t) = E (.root t)
  slots : ∀ s, E' s ≠ L → E' s ≠ R → E' s ≠ 0 → E' s = E s

theorem graft {stale id L R : ItemId} {big loose : ItemId → Prop} {p : ItemPool} {E : Slot → ItemId}
    {C : ItemId → List Pair} {it itL itR : Item} (hp : Settled p E)
    (h : Shape sha M stale (fun j => big j ∨ j = id) loose p C) (hid : p.nodes id = some it)
      (hleaf : it.is_leaf = true)
    (hst : stale = id ∨ it.dirty = true) (hL : p.nodes L = some itL)
      (hLb : itL.bits = it.bits ++ [false])
    (hR : p.nodes R = some itR) (hRb : itR.bits = it.bits ++ [true])
    (hC : C L = half sha false it.bits.length (C id) ∧ C R = half sha true it.bits.length (C id)) :
    ∃ p' E' it', (do
        let p ← (p.setItem id { it with leaf_bucket := none, is_leaf := false, dirty :=
          true }).setLeft id L
        p.setRight id R) = some p' ∧ Grafted sha M stale big loose p E C id L R it p' E' it' := by
  have ho := h.item id it hid
  have hkid0 := (ho.leaf hleaf).2.1
  let it0 : Item := { it with leaf_bucket := none, is_leaf := false, dirty := true }
  have hp0 : Settled (p.setItem id it0) E := hp.setItem hid rfl fun _ b => by cases b <;> rfl
  have hid0 : (p.setItem id it0).nodes id = some it0 := by rw [setItem_nodes, Function.update_self]
  have hneL : L ≠ id := fun e => by
    rw [e, hid] at hL
    cases hL
    exact absurd (congrArg List.length hLb) (by simp)
  have hneR : R ≠ id := fun e => by
    rw [e, hid] at hR
    cases hR
    exact absurd (congrArg List.length hRb) (by simp)
  have hother : ∀ {j}, j ≠ id → (p.setItem id it0).nodes j = p.nodes j := fun e => by
    rw [setItem_nodes, Function.update_of_ne e]
  have hL0 := hp.ne_zero hL
  have hR0 := hp.ne_zero hR
  obtain ⟨p1, E1, hs1, hp1, hn1, he1, hb1, hk1⟩ := setKid_spec (b := false) (c := L) hp0 hid0 fun _ =>
    ⟨itL, by rw [hother hneL, hL], hLb⟩
  have hkeep1 : ∀ j c, j ≠ id → p.nodes j = some c → p1.nodes j = some c := by
    intro j c hj hc
    exact hk1 j c hj (by rw [hother hj, hc]) (.inl (hkid0 false))
  have hk0 : (it0.setKid false L).kid true = 0 := hkid0 true
  obtain ⟨p2, E2, hs2, hp2, hn2, he2, hb2, hk2⟩ := setKid_spec (b := true) (c := R) hp1 hn1 fun _ =>
    ⟨itR, hkeep1 R itR hneR hR, by rw [setKid_bits]; exact hRb⟩
  have hkeep2 : ∀ j c, j ≠ id → p.nodes j = some c → p2.nodes j = some c :=
    fun j c hj hc => hk2 j c hj (hkeep1 j c hj hc) (.inl hk0)
  have hback : ∀ j c, j ≠ id → p2.nodes j = some c → p.nodes j = some c := by
    intro j c hj hc
    have := hb1 j c hj (hb2 j c hj hc)
    rwa [hother hj] at this
  let it' : Item := (it0.setKid false L).setKid true R
  have hkL : it'.kid false = L := rfl
  have hkR : it'.kid true = R := rfl
  refine ⟨p2, E2, it', ?_, hp2, ?_, hn2, ⟨rfl, rfl, fun _ => rfl⟩, hkeep2, ?_, ?_⟩
  · simp only [setLeft_eq, setRight_eq, Option.bind_eq_bind]
    show (setKid false (p.setItem id it0) id L).bind _ = _
    rw [hs1, Option.bind_some, hs2]
  · refine h.change hp2 hn2 hback (fun _ _ _ _ => rfl)
      (fun j hj => ⟨fun hb => hb.resolve_right hj, fun hl => hl⟩) ?_ ?_
      (fun _ _ _ _ _ _ hk => hk) ?_
    · exact { sorted := ho.sorted, pairs := ho.pairs, tree := ho.tree
              leaf := fun hl => by cases hl
              node := fun _ => ⟨rfl, fun b => by cases b; exacts [hL0, hR0]⟩
              clean := fun hd => by cases hd }
    · intro _ b _
      cases b with
      | false => exact ⟨itL, hkeep2 L itL hneL hL, hC.1, fun hd => by cases hd⟩
      | true => exact ⟨itR, hkeep2 R itR hneR hR, hC.2, fun hd => by cases hd⟩
    · intro j jt b hj hjt hl hk hs
      -- the parent is dirty, or its slot is the stale one
      obtain ⟨k, hkn, hkC, hkd⟩ := h.kid j jt b (hback j jt hj hjt) hl (by rw [hk]; exact hs)
      rw [hk] at hkn hkC
      rw [hid] at hkn
      cases hkn
      refine ⟨hkC, fun hd => ?_⟩
      rw [hst.resolve_left (Ne.symm hs)] at hkd
      exact absurd (hkd hd) (by simp)
  · intro t
    rcases he2 (.root t) (by simp) with e | ⟨-, e⟩
    · rcases he1 (.root t) (by simp) with e' | ⟨-, e'⟩
      · exact e.trans e'
      · exact absurd rfl (e' t)
    · exact absurd rfl (e t)
  · intro s h1 h2 h3
    have hlink := hp2.link id _ hn2 not_false
    have n1 : s ≠ .kid id true := fun e => h2 (by rw [e, hlink]; rfl)
    have n2 : s ≠ .kid id false := fun e => h1 (by rw [e, hlink]; rfl)
    rcases he2 s n1 with e | ⟨e, -⟩
    · rcases he1 s n2 with e' | ⟨e', -⟩
      · exact e.trans e'
      · exact absurd (e.trans e') h3
    · exact absurd e h3

theorem splitNode_big {tree : TreeId} {fuel : Nat} {p q : ItemPool} {id L R : ItemId}
    {it : Item} {c : List Pair}
    (hid : p.nodes id = some it) (hb : it.leaf_bucket = some c) (hbig : LEAF_SIZE < c.length)
    (hlt : it.bits.length < MAX_BITS) (hq : withLeaves sha tree p it.bits c = (L, R, q)) :
    splitNode sha tree (fuel + 1) p id = (do
      let p ← splitNode sha tree fuel q L
      let p ← splitNode sha tree fuel p R
      let p ← (p.setItem id { it with leaf_bucket := none, is_leaf := false, dirty :=
        true }).setLeft id L
      p.setRight id R) := by
  unfold withLeaves at hq
  simp only [Prod.mk.injEq] at hq
  obtain ⟨hL, hR, hq⟩ := hq
  subst hL hR hq
  simp only [splitNode, hid, hb, Nat.not_le.2 hbig, if_false, Option.bind_eq_bind,
    Option.bind_some, pushBack, hlt,
    if_true]
  rfl

theorem splitNode_spec {tree : TreeId} (ht : M tree) : ∀ {fuel : Nat} {stale id : ItemId}
    (big loose : ItemId → Prop)
    {p : ItemPool} {E : Slot → ItemId} {C : ItemId → List Pair} {it : Item}, Settled p E →
    Shape sha M stale (fun j => big j ∨ j = id) loose p C → p.nodes id = some it → it.is_leaf = true →
    Sparse sha (C id) → Fueled fuel it.bits.length → (stale = id ∨ it.dirty = true) →
    ∃ p' E' C' it', splitNode sha tree fuel p id = some p' ∧
      Split sha M stale big loose p E C id it p' E' C' it'
  | 0, _, _, _, _, _, _, _, it, hp, _, hid, _, _, hf, _ => by
    obtain ⟨m, hm⟩ := hf.pos (hp.bounded _ it hid)
    cases hm
  | fuel + 1, stale, id, big, loose, p, E, C, it, hp, h, hid, hleaf, hsp, hf, hst => by
    have ho := h.item id it hid
    obtain ⟨hbucket, hkid0, -⟩ := ho.leaf hleaf
    by_cases hsmall : (C id).length ≤ LEAF_SIZE
    · refine ⟨p, E, C, it, by simp [splitNode, hid, hbucket, hsmall], hp, ?_, hid, ⟨rfl, rfl, fun hd => hd⟩,
        fun _ _ _ => rfl, fun _ _ _ hj => hj, fun _ => rfl, fun _ _ _ _ hs => hs⟩
      refine ⟨fun j jt hj => ?_, h.kid⟩
      have hj' := h.item j jt hj
      refine { hj' with leaf := fun hl => ⟨(hj'.leaf hl).1, (hj'.leaf hl).2.1, fun hb => ?_⟩ }
      by_cases e : j = id
      · subst e; exact hsmall
      · exact (hj'.leaf hl).2.2 fun hb' => hb'.elim hb e
    have hlt : it.bits.length < MAX_BITS :=
      bits_lt_of_big (hp.bounded id it hid) hsp (fun q hq => (ho.pairs q hq).2) (by omega)
    obtain ⟨L, R, q, Cq, hq, hLR, hpq, hSq⟩ := withLeaves_spec ht hp h hlt ho.sorted ho.pairs
    have hqn : ∀ {j}, j ≠ L → j ≠ R → q.nodes j = p.nodes j := by
      intro j h1 h2
      rw [hLR.nodes, Function.update_of_ne h2, Function.update_of_ne h1]
    have hlive : ∀ {j c}, p.nodes j = some c → j ≠ L ∧ j ≠ R := hLR.ne_of_live
    have hq0 : ∀ {j c}, p.nodes j = some c → q.nodes j = some c := hLR.node_live
    obtain ⟨hCL, hCR⟩ := hLR.contents
    have hqL := hLR.node_left
    have hqR := hLR.node_right
    -- split the left leaf, then the right one
    obtain ⟨p1, E1, C1, itL, hs1, h1⟩ := splitNode_spec ht (fun j => (big j ∨ j = id) ∨ j = R) loose hpq
      (hSq.mono (by tauto) fun _ hl => hl) hqL rfl (by rw [hCL]; exact sparse_half hsp false _)
        (hf.down false) (.inr rfl)
    have h1R := h1.frame R _ hLR.ne.symm hqR
    obtain ⟨p2, E2, C2, itR, hs2, h2⟩ := splitNode_spec ht (fun j => big j ∨ j = id) loose h1.held
      h1.shape h1R rfl
      (by rw [h1.content R _ hqR, hCR]; exact sparse_half hsp true _) (hf.down true) (.inr rfl)
    have hid2 : p2.nodes id = some it :=
      h2.frame id _ (hlive hid).2 (h1.frame id _ (hlive hid).1 (hq0 hid))
    have hL2 : p2.nodes L = some itL := h2.frame L _ hLR.ne h1.node
    have hC2 : ∀ {j c}, q.nodes j = some c → C2 j = Cq j := by
      intro j c hj
      by_cases e : j = L
      · subst e; rw [h2.content _ _ h1.node, h1.content _ _ hj]
      · rw [h2.content _ _ (h1.frame _ _ e hj), h1.content _ _ hj]
    obtain ⟨p4, E4, it4, hr4, hg⟩ := graft h2.held h2.shape hid2 hleaf hst hL2
      (h1.fields.1.trans rfl) h2.node (h2.fields.1.trans rfl)
      ⟨by rw [hC2 hqL, hCL, hC2 (hq0 hid), hLR.content _ _ hid], by rw [hC2 hqR, hCR, hC2 (hq0 hid), hLR.content _ _ hid]⟩
    refine ⟨p4, E4, C2, it4, ?_, hg.held, hg.shape, hg.node, hg.fields, ?_, ?_, ?_, ?_⟩
    · rw [splitNode_big hid hbucket (by omega) hlt hq, hs1, Option.bind_eq_bind, Option.bind_some, hs2]
      exact hr4
    · intro j c hj
      rw [hC2 (hq0 hj), hLR.content _ _ hj]
    · intro j c hj hc
      exact hg.frame j c hj (h2.frame j c (hlive hc).2 (h1.frame j c (hlive hc).1 (hq0 hc)))
    · intro t
      rw [hg.roots, h2.roots, h1.roots]
    · intro s j c hj hs
      have h0 : j ≠ 0 := hp.ne_zero hj
      have := hg.slots s (by rw [hs]; exact (hlive hj).1) (by rw [hs]; exact (hlive hj).2)
        (by rw [hs]; exact h0)
      rw [this] at hs
      exact h1.slots s j c (hq0 hj) (h2.slots s j c (h1.frame j c (hlive hj).1 (hq0 hj)) hs)

/-! ## `fork_for_write` -/

/-- The node `id0` that may be written in place of `id`: `id` itself when one
slot refers to it, else a clone that no slot refers to. -/
structure Forked (sha : Bytes → Word) (M : TreeId → Prop) (p : ItemPool) (E : Slot → ItemId)
    (C : ItemId → List Pair) (id : ItemId) (it : Item) (id0 : ItemId) (p0 : ItemPool)
      (E0 : Slot → ItemId) (it0 : Item) :
    Prop where
  held : Settled p0 E0
  shape : Whole sha M p0 (Function.update C id0 (C id))
  node : p0.nodes id0 = some it0
  fields : it0.bits = it.bits ∧ it0.is_leaf = it.is_leaf ∧ it0.leaf_bucket = it.leaf_bucket ∧
    ∀ b, it0.kid b = it.kid b
  keep : ∀ j c, p.nodes j = some c → p0.nodes j = some c
  which : (id0 = id ∧ p.refcnt id ≤ 1) ∨ (p.nodes id0 = none ∧ 2 ≤ p.refcnt id)
  slots : ∀ s, (p.nodes id0 = none → ∀ b, s ≠ .kid id0 b) → E0 s = E s
  single : ∀ s t, E0 s = id0 → E0 t = id0 → s = t
  fresh : p.nodes id0 = none → ∀ s, E0 s ≠ id0

theorem forkForWrite_spec {tree : TreeId} (ht : M tree) {p : ItemPool} {E : Slot → ItemId}
    {C : ItemId → List Pair}
    {id : ItemId} {it : Item} (hp : Settled p E) (h : Whole sha M p C) (hid : p.nodes id = some it) :
    ∃ id0 p0 E0 it0, forkForWrite tree p id = some (id0, p0) ∧
      Forked sha M p E C id it id0 p0 E0 it0 := by
  have hz := hp.ne_zero hid
  by_cases hu : p.refcnt id ≤ 1
  · refine ⟨id, p, E, it, by simp [forkForWrite, kItemNull, isUnique, hu], hp, ?_, hid,
      ⟨rfl, rfl, rfl, fun _ => rfl⟩, fun _ _ hj => hj, .inl ⟨rfl, hu⟩, fun _ _ => rfl,
      fun s t hs ht => (hp.counts hz).eq_of_le_one hu hs ht, fun hn => by rw [hid] at hn; cases hn⟩
    rw [Function.update_eq_self]
    exact h
  obtain ⟨nid, p0, E0, hr, hp0, hn0, hdead, hn, he⟩ := cloneForFork_spec hp hid tree
  let it0 : Item := { it with m_tree := tree, dirty := true }
  have hself : p0.nodes nid = some it0 := by rw [hn, Function.update_self]
  have hother : ∀ {j}, j ≠ nid → p0.nodes j = p.nodes j := fun e => by rw [hn, Function.update_of_ne e]
  have hne : ∀ {j c}, p.nodes j = some c → j ≠ nid := fun hj e => by rw [e, hdead] at hj; cases hj
  have hkids : ∀ b, it0.kid b = it.kid b := fun b => by cases b <;> rfl
  have hlink0 := hp0.link nid it0 hself not_false
  have ho := h.item id it hid
  -- the clone's own slots lead to its children, every other slot is as it was
  have hnone : ∀ s, E0 s ≠ nid := by
    intro s e
    by_cases hk : ∃ b, s = .kid nid b
    · obtain ⟨b, rfl⟩ := hk
      obtain ⟨k, hk, hkb⟩ := hp0.kid_node (b := b) hself (by rw [e]; exact hn0)
      rw [e, hself] at hk
      cases hk
      exact absurd (congrArg List.length hkb) (by simp)
    · have e' := he s fun b hb => hk ⟨b, hb⟩
      obtain ⟨k, hk, -⟩ := hp.slot s (by rw [← e', e]; exact hn0)
      exact hne hk (by rw [← e', e])
  refine ⟨nid, p0, E0, it0, by simp [forkForWrite, kItemNull, isUnique, hz, hu, hr], hp0, ?_, hself,
    ⟨rfl, rfl, rfl, hkids⟩, fun j c hj => by rw [hother (hne hj)]; exact hj, .inr ⟨hdead, by omega⟩,
    fun s hs => he s (hs hdead), fun s t hs _ => absurd hs (hnone s), fun _ => hnone⟩
  refine h.change hp0 hself (fun j c hj hc => by rw [← hother hj]; exact hc)
    (fun j c hj _ => Function.update_of_ne hj _ _)
    (fun _ _ => ⟨fun hb => hb, fun hl => hl⟩) ?_ ?_ (fun _ _ _ _ _ _ hk => hk) ?_
  · rw [Function.update_self]
    exact { sorted := ho.sorted, pairs := ho.pairs, tree := ht
            leaf := fun hl => ⟨(ho.leaf hl).1, fun b => (hkids b).trans ((ho.leaf hl).2.1 b),
              (ho.leaf hl).2.2⟩
            node := fun hl => ⟨(ho.node hl).1, fun b => by rw [hkids]; exact (ho.node hl).2 b⟩
            clean := fun hd => by cases hd }
  · intro hl b hb
    rw [hkids] at hb
    obtain ⟨k, hk, -, hkC, -⟩ := h.child hp hid hl hb
    refine ⟨k, by rw [hkids, hother (hne hk), hk], ?_, fun hd => by cases hd⟩
    rw [hkids, Function.update_of_ne (hne hk), Function.update_self]
    exact hkC
  · intro j jt b _ hjt _ hk
    exact absurd ((hp0.link j jt hjt not_false b).trans hk) (hnone _)

/-! ## `insert_path` -/

/-- Writing `key` under node `id`, which at most one slot refers to. -/
structure Written (sha : Bytes → Word) (M : TreeId → Prop) (key : Bytes) (value : Word)
    (p : ItemPool) (E : Slot → ItemId) (C : ItemId → List Pair) (id : ItemId) (it : Item)
    (p' : ItemPool) (E' : Slot → ItemId) (C' : ItemId → List Pair) : Prop where
  held : Settled p' E'
  shape : Shape sha M id noNode noNode p' C'
  node : ∃ it', p'.nodes id = some it' ∧ it'.bits = it.bits
  content : C' id = putSlot (C id) key value
  roots : ∀ t, E' (.root t) = E (.root t)
  keepRoot : ∀ t, E (.root t) ≠ 0 → E (.root t) ≠ id → C' (E (.root t)) = C (E (.root t))
  frame : ∀ j c, p.nodes j = some c → ¬it.bits <+: c.bits → p'.nodes j = some c ∧ C' j = C j
  slots : ∀ s j c, p.nodes j = some c → c.bits.length ≤ it.bits.length → E' s = j → E s = j

/-- The result of `insert_path` at `id`. -/
structure Inserted (sha : Bytes → Word) (M : TreeId → Prop) (key : Bytes) (value : Word)
    (p : ItemPool) (E : Slot → ItemId) (C : ItemId → List Pair) (id : ItemId) (it : Item)
    (id' : ItemId) (p' : ItemPool) (E' : Slot → ItemId) (C' : ItemId → List Pair) : Prop where
  held : Settled p' E'
  shape : Shape sha M id' noNode noNode p' C'
  node : ∃ it', p'.nodes id' = some it' ∧ it'.bits = it.bits
  content : C' id' = putSlot (C id) key value
  roots : ∀ t, E' (.root t) = E (.root t)
  keepRoot : ∀ t, E (.root t) ≠ 0 → (E (.root t) = id → 2 ≤ p.refcnt id) →
    C' (E (.root t)) = C (E (.root t))
  frame : ∀ j c, p.nodes j = some c → ¬it.bits <+: c.bits → p'.nodes j = some c ∧ C' j = C j
  slots : ∀ s j c, p.nodes j = some c → c.bits.length ≤ it.bits.length → E' s = j → E s = j
  which : (id' = id ∧ p.refcnt id ≤ 1) ∨ (p.nodes id' = none ∧ 2 ≤ p.refcnt id)
  single : ∀ s t, E' s = id' → E' t = id' → s = t
  fresh : p.nodes id' = none → ∀ s, E' s ≠ id'

section
variable {key : Bytes} {value : Word} {p : ItemPool} {E : Slot → ItemId} {C : ItemId → List Pair}
    {id : ItemId} {it : Item}

theorem putSlot_pairs {bits : List Bool} {c : List Pair} (hs : Assoc.Sorted c) (hu : Under sha bits key)
    (h : ∀ q ∈ c, q.2 ≠ 0 ∧ Under sha bits q.1) :
    ∀ q ∈ putSlot c key value, q.2 ≠ 0 ∧ Under sha bits q.1 := by
  intro q hq
  rcases (mem_putSlot hs).1 hq with ⟨-, hm⟩ | ⟨hv, rfl⟩
  · exact h q hm
  · exact ⟨hv, hu⟩

/-- A leaf is written in place. -/
theorem Shape.writeLeaf (big loose : Prop) (value : Word) (it' : Item) (hp : Settled p E)
    (h : Whole sha M p C) (hid : p.nodes id = some it)
    (hleaf : it.is_leaf = true) (hu : Under sha it.bits key) (hb : it'.bits = it.bits)
    (hl' : it'.is_leaf = true) (hbk : it'.leaf_bucket = some (putSlot (C id) key value))
      (hkid : ∀ b, it'.kid b = 0)
    (hm : it'.m_tree = it.m_tree) (hsz : ¬big → (putSlot (C id) key value).length ≤ LEAF_SIZE)
    (hd : it'.dirty = false → loose) :
    Settled (p.setItem id it') E ∧ Shape sha M id (fun j => noNode j ∨ (j = id ∧ big))
      (fun j => j = id ∧ loose)
      (p.setItem id it') (Function.update C id (putSlot (C id) key value)) := by
  have ho := h.item id it hid
  have hp' : Settled (p.setItem id it') E :=
    hp.setItem hid hb fun _ b => by rw [hkid, (ho.leaf hleaf).2.1 b]
  refine ⟨hp', h.change hp' (by rw [setItem_nodes, Function.update_self])
    (fun j c hj hc => by rwa [setItem_nodes, Function.update_of_ne hj] at hc)
      (fun j c hj _ => Function.update_of_ne hj _ _)
    (fun _ _ => ⟨False.elim, False.elim⟩) ?_ (fun hl => by rw [hl'] at hl; cases hl) ?_ fun _ _ _ _
      _ _ _ hs => absurd rfl hs⟩
  · rw [Function.update_self]
    exact { sorted := putSlot_sorted ho.sorted key value
            pairs := by rw [hb]; exact putSlot_pairs ho.sorted hu ho.pairs
            tree := by rw [hm]; exact ho.tree
            leaf := fun _ => ⟨hbk, hkid, fun hn => hsz fun hbig => hn (.inr ⟨rfl, hbig⟩)⟩
            node := fun hl => by rw [hl'] at hl; cases hl
            clean := fun hdf hn => absurd ⟨rfl, hd hdf⟩ hn }
  · intro j jt b hj hjt hl hk0
    rw [setItem_nodes, Function.update_of_ne hj] at hjt
    exact absurd hk0 (((h.item j jt hjt).node hl).2 b)

theorem delete_leaf (hp : Settled p E) (h : Whole sha M p C) (hid : p.nodes id = some it)
    (hleaf : it.is_leaf = true)
    (hu : Under sha it.bits key) {b : List Pair} (hb : it.leaf_bucket = some b) :
    Written sha M key 0 p E C id it
      (p.setItem id { it with leaf_bucket := some (Assoc.del b key), dirty := true }) E
      (Function.update C id (putSlot (C id) key 0)) := by
  have ho := h.item id it hid
  obtain ⟨hbk, hkid, hsz⟩ := ho.leaf hleaf
  rw [hbk, Option.some.injEq] at hb
  subst hb
  have hw := Shape.writeLeaf False False 0
    { it with leaf_bucket := some (Assoc.del (C id) key), dirty := true } hp h hid hleaf hu rfl hleaf
    (by simp [putSlot]) (fun b => hkid b) rfl
    (fun _ => by simp only [putSlot, if_true]; exact (Assoc.del_length _ _).trans (hsz not_false))
      fun hd => by cases hd
  have hother : ∀ {j}, j ≠ id →
    (p.setItem id { it with leaf_bucket := some (Assoc.del (C id) key), dirty := true }).nodes j =
      p.nodes j := fun e => by rw [setItem_nodes, Function.update_of_ne e]
  refine ⟨hw.1, hw.2.mono (by simp) (by simp),
    ⟨{ it with leaf_bucket := some (Assoc.del (C id) key), dirty := true },
      by rw [setItem_nodes, Function.update_self], rfl⟩,
    Function.update_self _ _ _, fun _ => rfl, fun t _ hne => Function.update_of_ne hne _ _, ?_,
      fun _ _ _ _ _ hs => hs⟩
  intro j c hj hnb
  have hne : j ≠ id := fun e => by
    rw [e, hid] at hj
    cases hj
    exact hnb (List.prefix_refl _)
  exact ⟨by rw [hother hne]; exact hj, Function.update_of_ne hne _ _⟩

/-- A leaf takes one more pair and may be over-full until it is split. -/
theorem Shape.putLeaf (hp : Settled p E) (h : Whole sha M p C) (hid : p.nodes id = some it)
    (hleaf : it.is_leaf = true)
    (hu : Under sha it.bits key) (hv : value ≠ 0) {b : List Pair} (hb : it.leaf_bucket = some b) :
    Settled (p.setItem id { it with leaf_bucket := some (Assoc.put b key value) }) E ∧
      Shape sha M id (fun j => noNode j ∨ j = id) (fun j => j = id)
        (p.setItem id { it with leaf_bucket := some (Assoc.put b key value) }) (Function.update C id (putSlot (C id) key value)) := by
  obtain ⟨hbk, hkid, -⟩ := (h.item id it hid).leaf hleaf
  rw [hbk, Option.some.injEq] at hb
  subst hb
  have hput : putSlot (C id) key value = Assoc.put (C id) key value := by rw [putSlot, if_neg hv]
  obtain ⟨hp0, hS0⟩ := Shape.writeLeaf True True value { it with leaf_bucket := some (Assoc.put (C id) key value) } hp h hid
    hleaf hu rfl hleaf (by rw [hput]) (fun b => hkid b) rfl (fun hn => absurd trivial hn) fun _ => trivial
  exact ⟨hp0, hS0.mono (by simp) (by simp)⟩

theorem put_leaf {tree : TreeId} (ht : M tree) (hp : Settled p E) (h : Whole sha M p C)
    (hid : p.nodes id = some it) (hleaf : it.is_leaf = true) (hu : Under sha it.bits key)
      (hv : value ≠ 0)
    (hsp : Sparse sha (putSlot (C id) key value)) {b : List Pair} (hb : it.leaf_bucket = some b) :
    ∃ p1 E' C' it1, splitNode sha tree FUEL
      (p.setItem id { it with leaf_bucket := some (Assoc.put b key value) }) id = some p1 ∧
      p1.nodes id = some it1 ∧ Written sha M key value p E C id it
        (p1.setItem id { it1 with dirty := true }) E' C' := by
  let it0 : Item := { it with leaf_bucket := some (Assoc.put b key value) }
  obtain ⟨hp0, hS0⟩ := Shape.putLeaf hp h hid hleaf hu hv hb
  have hother : ∀ {j}, j ≠ id → (p.setItem id it0).nodes j = p.nodes j := fun e => by
    rw [setItem_nodes, Function.update_of_ne e]
  have hid0 : (p.setItem id it0).nodes id = some it0 := by rw [setItem_nodes, Function.update_self]
  have hC0 : Function.update C id (putSlot (C id) key value) id = putSlot (C id) key value :=
    Function.update_self _ _ _
  obtain ⟨p1, E1, C1, it1, hr1, h1⟩ := splitNode_spec ht noNode (fun j => j = id) hp0 hS0 hid0 hleaf
    (by rw [hC0]; exact hsp) (fueled_FUEL _) (.inl rfl)
  have hp2 : Settled (p1.setItem id { it1 with dirty := true }) E1 :=
    h1.held.setItem h1.node rfl fun _ b => by cases b <;> rfl
  have ho1 := h1.shape.item id it1 h1.node
  have hC1 : ∀ {j c}, p.nodes j = some c → j ≠ id → C1 j = C j := by
    intro j c hj hne
    rw [h1.content j c (by rw [hother hne]; exact hj), Function.update_of_ne hne]
  have hkey : C1 id = putSlot (C id) key value := by rw [h1.content id _ hid0, hC0]
  refine ⟨p1, E1, C1, it1, hr1, h1.node, hp2, ?_,
    ⟨{ it1 with dirty := true }, by rw [setItem_nodes, Function.update_self], h1.fields.1⟩, hkey,
    h1.roots, ?_, ?_, ?_⟩
  · refine h1.shape.change hp2 (by rw [setItem_nodes, Function.update_self])
      (fun j c hj hc => by rwa [setItem_nodes, Function.update_of_ne hj] at hc) (fun _ _ _ _ => rfl)
      (fun j hj => ⟨fun hb => hb, fun hl => absurd hl hj⟩) ?_ ?_ (fun _ _ _ _ _ _ hk => hk)
      fun _ _ _ _ _ _ _ hs => absurd rfl hs
    · exact { sorted := ho1.sorted, pairs := ho1.pairs, tree := ho1.tree
              leaf := ho1.leaf, node := ho1.node, clean := fun hd => by cases hd }
    · intro hl b hb
      obtain ⟨k, hk1, hkb, hkC, -⟩ := h1.shape.child h1.held (b := b) h1.node hl hb
      have hne : it1.kid b ≠ id := hb
      exact ⟨k, by show Function.update _ _ _ (it1.kid b) = _; rw [Function.update_of_ne hne]; exact hk1, hkC,
        fun hd => by cases hd⟩
  · intro t h0 hne
    obtain ⟨c, hc, -⟩ := hp.slot _ h0
    exact hC1 hc hne
  · intro j c hj hnb
    have hne : j ≠ id := fun e => by
      rw [e, hid] at hj
      cases hj
      exact hnb (List.prefix_refl _)
    refine ⟨?_, hC1 hj hne⟩
    rw [setItem_nodes, Function.update_of_ne hne]
    exact h1.frame j c hne (by rw [hother hne]; exact hj)
  · intro s j c hj _ hs1
    by_cases e : j = id
    · subst e; exact h1.slots s j _ hid0 hs1
    · exact h1.slots s j c (by rw [hother e]; exact hj) hs1

/-- The child that was written is linked below `id`. -/
theorem insert_kid (hp : Settled p E) (h : Whole sha M p C) (hid : p.nodes id = some it)
    (hleaf : it.is_leaf = false)
    (hu : Under sha it.bits key) {b : Bool} (hb : hashBit sha key it.bits.length = b)
    {k : Item} (hkn : p.nodes (it.kid b) = some k) (hkb : k.bits = it.bits ++ [b])
    {c : ItemId} {p1 : ItemPool} {E1 : Slot → ItemId} {C1 : ItemId → List Pair}
    (h1 : Inserted sha M key value p E C (it.kid b) k c p1 E1 C1) :
    ∃ p2 E2 C2, setKid b p1 id c = some p2 ∧ p2.nodes id = some (it.setKid b c) ∧
      Written sha M key value p E C id it (p2.setItem id { it.setKid b c with dirty := true }) E2 C2 := by
  have ho := h.item id it hid
  have hz := hp.ne_zero hid
  obtain ⟨ct, hct, hctb⟩ := h1.node
  have hc0 := h1.held.ne_zero hct
  have hlink := hp.link id it hid not_false
  have hkz := hp.ne_zero hkn
  -- the parent was not touched below
  obtain ⟨hid1, hC1id⟩ := h1.frame id it hid (by rw [hkb]; exact not_prefix_snoc (le_refl _))
  obtain ⟨p2, E2, hr2, hp2, hn2, he2, hb2, hk2⟩ := setKid_spec (b := b) h1.held hid1 fun _ =>
    ⟨ct, hct, hctb.trans hkb⟩
  let it' : Item := { it.setKid b c with dirty := true }
  have hp3 : Settled (p2.setItem id it') E2 := hp2.setItem hn2 rfl fun _ d => by cases d <;> rfl
  have hself : (p2.setItem id it').nodes id = some it' := by rw [setItem_nodes, Function.update_self]
  have hother : ∀ {j}, j ≠ id → (p2.setItem id it').nodes j = p2.nodes j := fun e => by
    rw [setItem_nodes, Function.update_of_ne e]
  have hback : ∀ j jt, j ≠ id → (p2.setItem id it').nodes j = some jt → p1.nodes j = some jt :=
    fun j jt hj hjt =>
    hb2 j jt hj (by rw [← hother hj]; exact hjt)
  have hcid : c ≠ id := fun e => by
    rw [e, hid1] at hct
    cases hct
    exact absurd (congrArg List.length (hctb.trans hkb)) (by simp)
  have hlink2 := hp2.link id _ hn2 not_false
  -- only the slot of `id` holds the written child
  have hsingle : ∀ s, s ≠ .kid id b → E2 s ≠ c := by
    intro s hs e
    have e1 : E1 s = c := by
      rcases he2 s hs with e' | ⟨e', -⟩
      · exact e'.symm.trans e
      · exact absurd (e.symm.trans e') hc0
    rcases h1.which with ⟨rfl, hone⟩ | ⟨hdead, -⟩
    · have e0 := h1.slots s _ k hkn (le_refl _) e1
      exact hs ((hp.counts hkz).eq_of_le_one hone e0 (hlink b))
    · exact h1.fresh hdead s e1
  refine ⟨p2, E2, Function.update C1 id (putSlot (C id) key value), hr2, hn2, hp3, ?_,
    ⟨it', hself, setKid_bits _ _ _⟩,
    Function.update_self _ _ _, ?_, ?_, ?_, ?_⟩
  · refine h1.shape.change hp3 hself hback (fun j _ hj _ => Function.update_of_ne hj _ _)
      (fun _ _ => ⟨fun hb => hb, fun hl => hl⟩) ?_ ?_ ?_ fun _ _ _ _ _ _ _ hs => absurd rfl hs
    · rw [Function.update_self]
      exact { sorted := putSlot_sorted ho.sorted key value
              pairs := by
                have hbits : it'.bits = it.bits := setKid_bits it b c
                rw [hbits]; exact putSlot_pairs ho.sorted hu ho.pairs
              tree := by show M (it.setKid b c).m_tree; rw [setKid_m_tree]; exact ho.tree
              leaf := fun hl => by
                have : it.is_leaf = true := by rw [← setKid_is_leaf it b c]; exact hl
                rw [hleaf] at this; cases this
              node := fun _ => by
                refine ⟨by show (it.setKid b c).leaf_bucket = none; rw [setKid_leaf_bucket]; exact (ho.node hleaf).1, fun d => ?_⟩
                by_cases e : d = b
                · subst e; show (it.setKid d c).kid d ≠ 0; rw [setKid_kid]; exact hc0
                · obtain rfl : d = !b := by cases d <;> cases b <;> simp_all
                  show (it.setKid b c).kid (!b) ≠ 0
                  rw [setKid_kid_not]; exact (ho.node hleaf).2 _
              clean := fun hd => by cases hd }
    · intro _ d _
      have hkd : it'.kid d = (it.setKid b c).kid d := by cases d <;> rfl
      rw [Function.update_self]
      by_cases e : d = b
      · subst e
        obtain ⟨n, hn, -⟩ := hp3.slot (.kid id d)
          (by rw [hp3.link id _ hself not_false, hkd, setKid_kid]; exact hc0)
        rw [hp3.link id _ hself not_false, hkd, setKid_kid] at hn
        refine ⟨n, by rw [hkd, setKid_kid]; exact hn, ?_, fun hd => by cases hd⟩
        rw [hkd, setKid_kid, Function.update_of_ne hcid, h1.content]
        show _ = half sha d (it.setKid d c).bits.length _
        obtain ⟨k', hk', -, hkC, -⟩ := h.child hp hid hleaf (b := d) hkz
        rw [setKid_bits, half_putSlot ho.sorted value hb, hkC]
      · obtain rfl : d = !b := by cases d <;> cases b <;> simp_all
        obtain ⟨k', hk', hkb', hkC, -⟩ := h.child hp hid hleaf (b := !b) ((ho.node hleaf).2 _)
        have hkid' : it'.kid (!b) = it.kid (!b) := by rw [hkd, setKid_kid_not]
        obtain ⟨hs1, hsC⟩ := h1.frame _ k' hk'
          (by rw [hkb, hkb']; exact not_prefix_side (by cases b <;> simp))
        have hne : it.kid (!b) ≠ id := fun e' => by
          rw [e', hid] at hk'
          cases hk'
          exact absurd (congrArg List.length hkb') (by simp)
        have hk2' := hk2 _ k' hne hs1 (.inr (by rw [hkb']; exact not_prefix_side (by cases b <;> simp)))
        refine ⟨k', by rw [hkid', hother hne]; exact hk2', ?_, fun hd => by cases hd⟩
        rw [hkid', Function.update_of_ne hne, hsC, hkC]
        show _ = half sha (!b) (it.setKid b c).bits.length _
        rw [setKid_bits, half_putSlot_ne ho.sorted value (by rw [hb]; cases b <;> simp)]
    · intro j jt d hj hjt _ hkd
      refine absurd ((hp3.link j jt hjt not_false d).trans hkd) (hsingle _ ?_)
      intro e; cases e; exact hj rfl
  · intro t
    rcases he2 (.root t) (by simp) with e | ⟨-, e⟩
    · exact e.trans (h1.roots t)
    · exact absurd rfl (e t)
  · intro t h0 hne
    rw [Function.update_of_ne hne]
    exact h1.keepRoot t h0 fun e => (hp.counts hkz).two_le (s := .root t) (t := .kid id b)
      (by simp) e (hlink b)
  · intro j jt hj hnb
    have hne : j ≠ id := fun e => by
      rw [e, hid] at hj
      cases hj
      exact hnb (List.prefix_refl _)
    have hnb' : ¬(it.bits ++ [b]) <+: jt.bits := fun hpre => hnb ((List.prefix_append _ _).trans hpre)
    obtain ⟨hj1, hC1⟩ := h1.frame j jt hj (by rw [hkb]; exact hnb')
    exact ⟨by rw [hother hne]; exact hk2 j jt hne hj1 (.inr hnb'), by rw [Function.update_of_ne hne]; exact hC1⟩
  · intro s j jt hj hlen hs
    have hlen' : jt.bits.length ≤ k.bits.length := by rw [hkb, List.length_append]; omega
    by_cases e : s = .kid id b
    · -- that slot holds the written child, which is further down
      exfalso
      rw [e, hlink2, setKid_kid] at hs
      rcases h1.which with ⟨hc, -⟩ | ⟨hdead, -⟩
      · rw [← hs, hc, hkn] at hj
        cases hj
        rw [hkb, List.length_append, List.length_singleton] at hlen
        omega
      · rw [← hs, hdead] at hj
        cases hj
    · rcases he2 s e with e' | ⟨e', -⟩
      · exact h1.slots s j jt hj hlen' (e'.symm.trans hs)
      · exact absurd (hs.symm.trans e') (hp.ne_zero hj)

/-- What was written in the forked node was written in `id`. -/
theorem Forked.inserted {id0 : ItemId} {p0 p' : ItemPool} {E0 E' : Slot → ItemId}
    {C' : ItemId → List Pair} {it0 : Item}
    (hp : Settled p E) (hid : p.nodes id = some it) (hf : Forked sha M p E C id it id0 p0 E0 it0)
    (hw : Written sha M key value p0 E0 (Function.update C id0 (C id)) id0 it0 p' E' C') :
    Inserted sha M key value p E C id it id0 p' E' C' := by
  obtain ⟨hbits, -, -, hkids⟩ := hf.fields
  have hroot : ∀ t, E0 (.root t) = E (.root t) := fun t => hf.slots _ fun _ b e => by cases e
  have hback : ∀ s, E' s = id0 → E0 s = id0 := fun s hs => hw.slots s _ it0 hf.node (le_refl _) hs
  refine ⟨hw.held, hw.shape, ?_, ?_, ?_, ?_, ?_, ?_, hf.which, ?_, ?_⟩
  · obtain ⟨it', hit', hb⟩ := hw.node
    exact ⟨it', hit', hb.trans hbits⟩
  · rw [hw.content, Function.update_self]
  · intro t; rw [hw.roots, hroot]
  · intro t h0 hsh
    have hne : E (.root t) ≠ id0 := by
      intro e
      rcases hf.which with ⟨rfl, hone⟩ | ⟨hdead, -⟩
      · have := hsh e
        omega
      · obtain ⟨c, hc, -⟩ := hp.slot _ h0
        rw [e, hdead] at hc
        cases hc
    have := hw.keepRoot t (by rw [hroot]; exact h0) (by rw [hroot]; exact hne)
    rw [hroot, Function.update_of_ne hne] at this
    exact this
  · intro j c hj hnb
    have hne : j ≠ id0 := by
      rintro rfl
      rcases hf.which with ⟨rfl, -⟩ | ⟨hdead, -⟩
      · rw [hid] at hj
        cases hj
        exact hnb (List.prefix_refl _)
      · rw [hdead] at hj
        cases hj
    obtain ⟨h1, h2⟩ := hw.frame j c (hf.keep j c hj) (by rw [hbits]; exact hnb)
    exact ⟨h1, by rw [h2, Function.update_of_ne hne]⟩
  · intro s j c hj hlen hs
    have hs0 := hw.slots s j c (hf.keep j c hj) (by rw [hbits]; exact hlen) hs
    by_cases hk : p.nodes id0 = none ∧ ∃ b, s = .kid id0 b
    · -- the clone's slots lead further down
      exfalso
      obtain ⟨-, b, rfl⟩ := hk
      have hl := hf.held.link id0 it0 hf.node not_false b
      obtain ⟨k, hk, hkb⟩ := hf.held.kid_node (b := b) hf.node (by rw [hs0]; exact hp.ne_zero hj)
      rw [hs0, hf.keep j c hj] at hk
      cases hk
      rw [hkb, hbits, List.length_append, List.length_singleton] at hlen
      omega
    · rw [← hf.slots s fun hd b e => hk ⟨hd, b, e⟩]
      exact hs0
  · exact fun s t hs ht => hf.single s t (hback s hs) (hback t ht)
  · exact fun hd s hs => hf.fresh hd s (hback s hs)

end

/-- **`insert_path`.** -/
theorem insertPath_spec {tree : TreeId} (ht : M tree) {key : Bytes} (value : Word) :
    ∀ {fuel : Nat} {p : ItemPool} {E : Slot → ItemId} {C : ItemId → List Pair}
      {id : ItemId} {it : Item},
      Settled p E → Whole sha M p C → p.nodes id = some it → Under sha it.bits key →
        Fueled fuel it.bits.length →
      Sparse sha (putSlot (C id) key value) →
      ∃ id' p' E' C', insertPath sha tree key value fuel p id = some (id', p') ∧
        Inserted sha M key value p E C id it id' p' E' C'
  | 0, p, _, _, id, it, hp, _, hid, _, hf, _ => by
    obtain ⟨m, hm⟩ := hf.pos (hp.bounded _ it hid)
    cases hm
  | fuel + 1, p, E, C, id, it, hp, h, hid, hu, hf, hsp => by
    obtain ⟨id0, p0, E0, it0, hr0, hfk⟩ := forkForWrite_spec ht hp h hid
    have ho0 := hfk.shape.item id0 it0 hfk.node
    rw [← hfk.fields.1] at hu hf
    have hsp0 : Sparse sha (putSlot (Function.update C id0 (C id) id0) key value) := by
      rwa [Function.update_self]
    suffices hw : ∃ p' E' C', insertPath sha tree key value (fuel + 1) p id = some (id0, p') ∧
        Written sha M key value p0 E0 (Function.update C id0 (C id)) id0 it0 p' E' C' by
      obtain ⟨p', E', C', hr, hw⟩ := hw
      exact ⟨id0, p', E', C', hr, hfk.inserted hp hid hw⟩
    simp only [insertPath, hr0, hfk.node, Option.bind_eq_bind, Option.bind_some]
    by_cases hleaf : it0.is_leaf = true
    · obtain ⟨hb, -, -⟩ := ho0.leaf hleaf
      rw [if_pos hleaf, hb, Option.bind_some]
      by_cases hv : value = 0
      · subst hv
        exact ⟨_, _, _, if_pos rfl, delete_leaf hfk.held hfk.shape hfk.node hleaf hu hb⟩
      · obtain ⟨p1, E1, C1, it1, hs, hn, hw⟩ := put_leaf ht hfk.held hfk.shape hfk.node hleaf hu hv hsp0 hb
        refine ⟨_, E1, C1, ?_, hw⟩
        rw [if_neg hv, hs, Option.bind_some, hn]
        rfl
    · rw [if_neg hleaf]
      rw [Bool.not_eq_true] at hleaf
      -- both sides alike: the child is written, then linked
      have key' : ∀ b, hashBit sha key it0.bits.length = b → ∃ c p1 p2 E2 C2,
          insertPath sha tree key value fuel p0 (it0.kid b) = some (c, p1) ∧
            setKid b p1 id0 c = some p2 ∧
          p2.nodes id0 = some (it0.setKid b c) ∧ Written sha M key value p0 E0
            (Function.update C id0 (C id)) id0 it0
            (p2.setItem id0 { it0.setKid b c with dirty := true }) E2 C2 := by
        intro b hb
        obtain ⟨k, hkn, hkb, hkC, -⟩ := hfk.shape.child hfk.held hfk.node hleaf ((ho0.node hleaf).2 b)
        obtain ⟨c, p1, E1, C1, hr, h1⟩ := insertPath_spec ht value hfk.held hfk.shape hkn
          (by rw [hkb]; exact under_snoc.2 ⟨hu, hb⟩) (by rw [hkb]; exact hf.down b)
          (by rw [hkC, ← half_putSlot ho0.sorted value hb]; exact sparse_half hsp0 b _)
        obtain ⟨p2, E2, C2, hr2, hn2, hw⟩ := insert_kid hfk.held hfk.shape hfk.node hleaf hu hb hkn hkb h1
        exact ⟨c, p1, p2, E2, C2, hr, hr2, hn2, hw⟩
      cases hb : hashBit sha key it0.bits.length with
      | false =>
        obtain ⟨c, p1, p2, E2, C2, hr, hr2, hn2, hw⟩ := key' false hb
        refine ⟨_, E2, C2, ?_, hw⟩
        have hr' : insertPath sha tree key value fuel p0 it0.left_id = some (c, p1) := hr
        simp [hr', setLeft_eq, hr2, hn2]
      | true =>
        obtain ⟨c, p1, p2, E2, C2, hr, hr2, hn2, hw⟩ := key' true hb
        refine ⟨_, E2, C2, ?_, hw⟩
        have hr' : insertPath sha tree key value fuel p0 it0.right_id = some (c, p1) := hr
        simp [hr', setRight_eq, hr2, hn2]

end
end Diode.L2
