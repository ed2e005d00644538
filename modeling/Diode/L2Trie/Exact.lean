import Mathlib.Logic.Relation
import Diode.L2Trie.Isolation

/-!
# The counts of an `ItemPool` are exact

`Settled` bounds what the counts may be while an operation is under way. This
module says what they are between operations, in every state that is reached.

* `Tidy Z p`: every free slot is listed, and the nodes nobody refers to are in
  `Z`: the clone on its way up, the new leaf not yet linked.
* `splitNode_tidy`, `insertPath_tidy`, `updateMerkleHashCount_tidy`: what each
  routine makes it links or returns.
* `sound_of_step`: a call that comes back met no defect on its way.
* `reference_counts_exact`.
-/
namespace Diode.L2
open Diode.Core Diode.L1.Ext ItemPool

/-! ## A write that comes back met no crowd -/

section
variable {sha : Bytes → Word} {M : TreeId → Prop}

theorem hashBit_of_prefix {k k' : Bytes} {n d : Nat} (h : hashPrefix sha k n = hashPrefix sha k' n)
    (hd : d < n) :
    hashBit sha k d = hashBit sha k' d := by
  have := congrArg (·[d]?) h
  simpa [hashPrefix, hd] using this

/-- Keys with the same 128 bits are on the same side. -/
theorem sparse_of_halves {c : List Pair} {d : Nat} (hd : d < MAX_BITS)
    (h : ∀ b, Sparse sha (half sha b d c)) :
    Sparse sha c := by
  intro q hq
  have hside := h (hashBit sha q.1 d) q (mem_half.2 ⟨hq, rfl⟩)
  rw [half, List.filter_filter] at hside
  rw [List.filter_congr fun r _ => ?_]
  · exact hside
  by_cases he : hashPrefix sha r.1 MAX_BITS = hashPrefix sha q.1 MAX_BITS
  · simp [he, hashBit_of_prefix he hd]
  · simp [he]

theorem sparse_of_length {c : List Pair} (h : c.length ≤ LEAF_SIZE) : Sparse sha c :=
  fun _ _ => (List.length_filter_le _ _).trans h

theorem del_sublist (k : Bytes) : ∀ c : List Pair, (Assoc.del c k).Sublist c
  | [] => List.Sublist.slnil
  | p :: c => by
    rw [Assoc.del]
    split
    · exact List.sublist_cons_self p c
    · exact (del_sublist k c).cons_cons p

section
variable {p p' : ItemPool} {E : Slot → ItemId} {C : ItemId → List Pair} {id : ItemId} {it : Item}

/-- What a pool holds fits in its leaves. -/
theorem Shape.sparse (hp : Settled p E) (h : Whole sha M p C) : ∀ {n : Nat} {id : ItemId} {it : Item},
    MAX_BITS - it.bits.length ≤ n → p.nodes id = some it → Sparse sha (C id)
  | n, id, it, hn, hid => by
    have ho := h.item id it hid
    cases hl : it.is_leaf with
    | true => exact sparse_of_length ((ho.leaf hl).2.2 not_false)
    | false =>
      have hlt : it.bits.length < MAX_BITS := by
        obtain ⟨k, hk, hkb, -⟩ := h.child hp hid hl ((ho.node hl).2 false)
        have := hp.bounded _ k hk
        rw [hkb, List.length_append, List.length_singleton] at this
        omega
      obtain ⟨m, rfl⟩ : ∃ m, n = m + 1 := ⟨n - 1, by omega⟩
      refine sparse_of_halves hlt fun b => ?_
      obtain ⟨k, hk, hkb, hkC, -⟩ := h.child hp hid hl ((ho.node hl).2 b)
      rw [← hkC]
      refine Shape.sparse hp h (n := m) ?_ hk
      rw [hkb, List.length_append, List.length_singleton]
      omega

/-- A split that comes to its end found no crowd. -/
theorem sparse_of_split {tree : TreeId} (ht : M tree) : ∀ {fuel : Nat} {stale id : ItemId}
    (big loose : ItemId → Prop)
    {p p' : ItemPool} {E : Slot → ItemId} {C : ItemId → List Pair} {it : Item}, Settled p E →
    Shape sha M stale (fun j => big j ∨ j = id) loose p C → p.nodes id = some it → it.is_leaf = true →
    Fueled fuel it.bits.length → splitNode sha tree fuel p id = some p' → Sparse sha (C id)
  | 0, _, _, _, _, _, _, _, _, _, _, _, _, _, _, hr => by cases hr
  | fuel + 1, stale, id, big, loose, p, p', E, C, it, hp, h, hid, hleaf, hf, hr => by
    have ho := h.item id it hid
    obtain ⟨hbucket, -, -⟩ := ho.leaf hleaf
    by_cases hsmall : (C id).length ≤ LEAF_SIZE
    · exact sparse_of_length hsmall
    have hlt : it.bits.length < MAX_BITS := by
      by_contra hn
      simp [splitNode, hid, hbucket, hsmall, pushBack, hn] at hr
    obtain ⟨L, R, q, Cq, hq, hLR, hpq, hSq⟩ := withLeaves_spec ht hp h hlt ho.sorted ho.pairs
    obtain ⟨hCL, hCR⟩ := hLR.contents
    have hqL := hLR.node_left
    have hqR := hLR.node_right
    rw [splitNode_big hid hbucket (by omega) hlt hq] at hr
    obtain ⟨p1, hr1, hr⟩ := Option.bind_eq_some_iff.1 hr
    obtain ⟨p2, hr2, -⟩ := Option.bind_eq_some_iff.1 hr
    have hbig : ∀ j, ((big j ∨ j = id) ∨ j = L) ∨ j = R → ((big j ∨ j = id) ∨ j = R) ∨ j = L := by tauto
    have hSL := hSq.mono hbig fun _ hl => hl
    have hl := sparse_of_split ht (fun j => (big j ∨ j = id) ∨ j = R) loose hpq hSL hqL rfl
      (hf.down false) hr1
    obtain ⟨q1, E1, C1, itL, hs1, h1⟩ := splitNode_spec ht (fun j => (big j ∨ j = id) ∨ j = R) loose
      hpq hSL hqL rfl hl
      (hf.down false) (.inr rfl)
    obtain rfl : p1 = q1 := Option.some.inj (hr1.symm.trans hs1)
    have hr' := sparse_of_split ht (fun j => big j ∨ j = id) loose h1.held h1.shape
      (h1.frame R _ hLR.ne.symm hqR) rfl
      (hf.down true) hr2
    rw [h1.content R _ hqR, hCR] at hr'
    rw [hCL] at hl
    refine sparse_of_halves hlt fun b => ?_
    cases b <;> assumption

/-- A write that comes to its end found no crowd. -/
theorem sparse_of_insert {tree : TreeId} (ht : M tree) {key : Bytes} {value : Word} :
    ∀ {fuel : Nat} {p : ItemPool}
    {E : Slot → ItemId} {C : ItemId → List Pair} {id : ItemId} {it : Item} {r : ItemId × ItemPool}, Settled p E →
    Whole sha M p C → p.nodes id = some it → Under sha it.bits key → Fueled fuel it.bits.length →
    insertPath sha tree key value fuel p id = some r → Sparse sha (putSlot (C id) key value)
  | 0, _, _, _, _, _, _, _, _, _, _, _, hr => by cases hr
  | fuel + 1, p, E, C, id, it, r, hp, h, hid, hu, hf, hr => by
    obtain ⟨id0, p0, E0, it0, hr0, hfk⟩ := forkForWrite_spec ht hp h hid
    have ho0 := hfk.shape.item id0 it0 hfk.node
    rw [← hfk.fields.1] at hu hf
    have hsp := hfk.shape.sparse hfk.held (le_refl _) hfk.node
    have hCid : Function.update C id0 (C id) id0 = C id := Function.update_self _ _ _
    rw [hCid] at ho0 hsp
    simp only [insertPath, hr0, hfk.node, Option.bind_eq_bind, Option.bind_some] at hr
    by_cases hleaf : it0.is_leaf = true
    · obtain ⟨hb, -, -⟩ := ho0.leaf hleaf
      rw [if_pos hleaf, hb, Option.bind_some] at hr
      by_cases hv : value = 0
      · rw [putSlot, if_pos hv]
        exact sparse_sublist hsp (del_sublist key _)
      · rw [if_neg hv] at hr
        obtain ⟨p1, hr1, -⟩ := Option.bind_eq_some_iff.1 hr
        obtain ⟨hp1, hS1⟩ := Shape.putLeaf hfk.held hfk.shape hfk.node hleaf hu hv hb
        rw [hCid] at hS1
        have := sparse_of_split ht noNode (fun j => j = id0) hp1 hS1 (setItem_self _ _ _) hleaf
          (fueled_FUEL _) hr1
        rwa [Function.update_self] at this
    · rw [if_neg hleaf] at hr
      rw [Bool.not_eq_true] at hleaf
      -- the side of the key was written, the other side is as it was
      have key' : ∀ b r, hashBit sha key it0.bits.length = b → insertPath sha tree key value fuel p0
        (it0.kid b) = some r →
          Sparse sha (putSlot (C id) key value) := by
        intro b r hb hr
        obtain ⟨k, hkn, hkb, hkC, -⟩ := hfk.shape.child hfk.held hfk.node hleaf ((ho0.node hleaf).2 b)
        have hlt : it0.bits.length < MAX_BITS := by
          have := hfk.held.bounded _ k hkn
          rw [hkb, List.length_append, List.length_singleton] at this
          omega
        have hk := sparse_of_insert ht hfk.held hfk.shape hkn (by rw [hkb]; exact under_snoc.2 ⟨hu, hb⟩)
          (by rw [hkb]; exact hf.down b) hr
        rw [hkC, hCid, ← half_putSlot ho0.sorted value hb] at hk
        refine sparse_of_halves hlt fun d => ?_
        by_cases hd : d = b
        · rw [hd]
          exact hk
        · rw [half_putSlot_ne ho0.sorted value (fun e => hd (e.symm.trans hb))]
          exact sparse_half hsp d _
      cases hb : hashBit sha key it0.bits.length with
      | false =>
        rw [hb] at hr
        obtain ⟨r', hr', -⟩ := Option.bind_eq_some_iff.1 hr
        exact key' false r' hb hr'
      | true =>
        rw [hb] at hr
        obtain ⟨r', hr', -⟩ := Option.bind_eq_some_iff.1 hr
        exact key' true r' hb hr'

end

/-! ## No node is lost on the way -/

/-- A slot that holds no node is listed, and a node that nothing refers to is
in `Z`. -/
structure Tidy (Z : ItemId → Prop) (p : ItemPool) : Prop where
  listed : ∀ j, j ≠ 0 → j < p.size → p.nodes j = none → j ∈ p.free_list
  counted : ∀ j it, p.nodes j = some it → p.refcnt j = 0 → Z j

theorem ensureHashes_live {p p' : ItemPool} {id j : ItemId} {it : Item} {v : List Word}
    (hr : ensureHashes p id = some (p', v)) (hj : p.nodes j = some it) :
      ∃ it', p'.nodes j = some it' := by
  obtain ⟨n, -, hr⟩ := Option.bind_eq_some_iff.1 hr
  split at hr
  · cases hr
    exact ⟨it, hj⟩
  · cases hr
    by_cases e : j = id
    · subst e
      exact ⟨_, setItem_self _ _ _⟩
    · exact ⟨it, by rw [setItem_nodes, Function.update_of_ne e]; exact hj⟩

namespace Tidy
variable {Z Y : ItemId → Prop} {p p' : ItemPool} {E : Slot → ItemId} {id c : ItemId} {it : Item}

theorem mono (h : Tidy Z p) (hY : ∀ j, Z j → Y j) : Tidy Y p :=
    ⟨h.listed, fun j jt hj h0 => hY j (h.counted j jt hj h0)⟩

/-- A node that a slot holds is not loose. -/
theorem forget (h : Tidy Z p) (hp : Settled p E) {s : Slot} (hs : E s = c) :
    Tidy (fun j => Z j ∧ j ≠ c) p := by
  refine ⟨h.listed, fun j jt hj h0 => ⟨h.counted j jt hj h0, fun e => ?_⟩⟩
  have := (hp.counts (hp.ne_zero hj)).pos (hs.trans e.symm)
  omega

theorem setItem (h : Tidy Z p) {it' : Item} (hid : p.nodes id = some it) :
    Tidy Z (p.setItem id it') := by
  refine ⟨?_, ?_⟩
  · intro j hz hj hn
    by_cases e : j = id
    · subst e
      rw [setItem_nodes, Function.update_self] at hn
      cases hn
    · rw [setItem_nodes, Function.update_of_ne e] at hn
      exact h.listed j hz hj hn
  · intro j jt hj h0
    by_cases e : j = id
    · subst e
      exact h.counted j it hid h0
    · rw [setItem_nodes, Function.update_of_ne e] at hj
      exact h.counted j jt hj h0

theorem setRef (h : Tidy Z p) {n : Nat} (hn : 0 < n) : Tidy (fun j => Z j ∧ j ≠ id)
    (p.setRef id n) := by
  refine ⟨h.listed, fun j jt hj h0 => ?_⟩
  rw [setRef_refcnt] at h0
  by_cases e : j = id
  · subst e
    rw [Function.update_self] at h0
    omega
  · rw [Function.update_of_ne e] at h0
    exact ⟨h.counted j jt hj h0, e⟩

/-- The node gains a reference. -/
theorem incrRef (h : Tidy Z p) (h0 : p.nodes 0 = none) : Tidy (fun j => Z j ∧ j ≠ c) (p.incrRef c) := by
  unfold ItemPool.incrRef
  split
  · rename_i hc
    refine ⟨h.listed, fun j jt hj hz => ⟨h.counted j jt hj hz, fun e => ?_⟩⟩
    rw [e, hc] at hj
    exact absurd (h0.symm.trans hj) (by simp)
  · exact h.setRef (Nat.succ_pos _)

theorem free (h : Tidy (fun j => Z j ∨ j = id) p) : Tidy Z (p.free id) := by
  refine ⟨?_, ?_⟩
  · intro j hz hj hn
    rw [free_free_list, List.mem_cons]
    by_cases e : j = id
    · exact .inl e
    · rw [free_nodes, Function.update_of_ne e] at hn
      exact .inr (h.listed j hz hj hn)
  · intro j jt hj h0
    by_cases e : j = id
    · subst e
      rw [free_nodes, Function.update_self] at hj
      cases hj
    · rw [free_nodes, Function.update_of_ne e] at hj
      exact (h.counted j jt hj h0).resolve_right e

theorem decrRef : ∀ {fuel : Nat} {Z : ItemId → Prop} {p p' : ItemPool} {id : ItemId}, Tidy Z p →
    p.decrRef fuel id = some p' → Tidy Z p'
  | 0, _, _, _, _, _, hr => by cases hr
  | fuel + 1, Z, p, p', id, h, hr => by
    unfold ItemPool.decrRef at hr
    split at hr
    · cases hr
      exact h
    split at hr
    · cases hr
    split at hr
    · rename_i hpos
      cases hr
      exact (h.setRef hpos).mono fun j hj => hj.1
    · obtain ⟨it, hid, hr⟩ := Option.bind_eq_some_iff.1 hr
      obtain ⟨p1, h1, hr⟩ := Option.bind_eq_some_iff.1 hr
      obtain ⟨p2, h2, hr⟩ := Option.bind_eq_some_iff.1 hr
      cases hr
      -- the node is loose while its children are let go
      have h0 : Tidy (fun j => Z j ∨ j = id) (p.setRef id (p.refcnt id - 1)) := by
        refine ⟨h.listed, fun j jt hj hz => ?_⟩
        rw [setRef_refcnt] at hz
        by_cases e : j = id
        · exact .inr e
        · rw [Function.update_of_ne e] at hz
          exact .inl (h.counted j jt hj hz)
      exact ((h0.decrRef h1).decrRef h2).free

/-- The new node is loose. -/
theorem allocLeaf (h : Tidy Z p) (t : TreeId) : Tidy (fun j => Z j ∨ j = (p.allocLeaf t).1)
    (p.allocLeaf t).2 := by
  have counted : ∀ (i : ItemId) (q : ItemPool), q.nodes = Function.update p.nodes i
    (some (Item.new t)) →
      q.refcnt = Function.update p.refcnt i 0 → ∀ j jt, q.nodes j = some jt → q.refcnt j = 0 →
        Z j ∨ j = i := by
    intro i q hn hr j jt hj h0
    by_cases e : j = i
    · exact .inr e
    · rw [hn, Function.update_of_ne e] at hj
      rw [hr, Function.update_of_ne e] at h0
      exact .inl (h.counted j jt hj h0)
  unfold ItemPool.allocLeaf
  cases hl : p.free_list with
  | nil =>
    refine ⟨fun j hz hj hn => ?_, counted p.size _ rfl rfl⟩
    by_cases e : j = p.size
    · subst e
      simp at hn
    · have hj' : j < p.size + 1 := hj
      have hn' : p.nodes j = none := by simpa [Function.update_of_ne e] using hn
      have := h.listed j hz (by omega) hn'
      rw [hl] at this
      cases this
  | cons i rest =>
    refine ⟨fun j hz hj hn => ?_, counted i _ rfl rfl⟩
    by_cases e : j = i
    · subst e
      simp at hn
    · have hn' : p.nodes j = none := by simpa [Function.update_of_ne e] using hn
      have := h.listed j hz hj hn'
      rw [hl, List.mem_cons] at this
      exact this.resolve_left e

theorem setKid (h : Tidy Z p) (hp : Settled p E) (hid : p.nodes id = some it) {b : Bool}
    (hr : setKid b p id c = some p') :
    Tidy (fun j => Z j ∧ j ≠ c) p' := by
  rw [Diode.L2.setKid, hid, Option.bind_eq_bind, Option.bind_some] at hr
  split at hr
  · rename_i he
    cases hr
    exact h.forget hp ((hp.link id it hid not_false b).trans he)
  · obtain ⟨p1, h1, hr⟩ := Option.bind_eq_some_iff.1 hr
    cases hr
    obtain ⟨q, E1, hq, hh, hid1, -⟩ := dropKid hp hid b
    obtain rfl : p1 = q := Option.some.inj (h1.symm.trans hq)
    refine ((h.decrRef h1).setItem hid1).incrRef ?_
    rw [setItem_nodes, Function.update_of_ne (Ne.symm (hp.ne_zero hid))]
    exact hh.null

theorem cloneForFork (h : Tidy Z p) (hp : Settled p E) {t nid : ItemId}
    (hr : p.cloneForFork id t = some (nid, p')) :
    Tidy (fun j => Z j ∨ j = nid) p' := by
  obtain ⟨src, -, hr⟩ := Option.bind_eq_some_iff.1 hr
  obtain ⟨hz, -, hn, -, ha⟩ := allocLeaf_spec hp t
  have hq := h.allocLeaf t
  cases hpq : p.allocLeaf t with
  | mk i q =>
  simp only [hpq] at hz hn ha hq hr
  obtain ⟨rfl, rfl⟩ := Prod.mk.inj (Option.some.inj hr)
  have hnew : q.nodes i = some (Item.new t) := by rw [hn, Function.update_self]
  have h0 : ∀ it', (q.setItem i it').nodes 0 = none := by
    intro it'
    rw [setItem_nodes, Function.update_of_ne (Ne.symm hz)]
    exact ha.null
  refine (((hq.setItem hnew).incrRef (h0 _)).incrRef ?_).mono fun j hj => hj.1.1
  rw [incrRef_nodes]
  exact h0 _

theorem forkForWrite (h : Tidy Z p) (hp : Settled p E) {t nid : ItemId}
    (hr : forkForWrite t p id = some (nid, p')) :
    Tidy (fun j => Z j ∨ j = nid) p' := by
  unfold Diode.L2.forkForWrite at hr
  split at hr
  · cases hr
    exact h.mono fun j hj => .inl hj
  split at hr
  · cases hr
    exact h.mono fun j hj => .inl hj
  · exact h.cloneForFork hp hr

/-- A node is filled in and both its children are let go. -/
theorem collapse (h : Tidy Z p) (hp : Settled p E) (hid : p.nodes id = some it) {it' : Item}
    {p1 p2 : ItemPool}
    (hb : it'.bits = it.bits) (hk : ∀ b, it'.kid b = it.kid b)
      (h1 : (p.setItem id it').setLeft id kItemNull = some p1)
    (h2 : p1.setRight id kItemNull = some p2) : Tidy Z p2 := by
  have hp0 : Settled (p.setItem id it') E := hp.setItem hid hb fun _ b => hk b
  have hid0 : (p.setItem id it').nodes id = some it' := setItem_self _ _ _
  obtain ⟨q, E1, hs, hp1, hn1, -⟩ := setKid_spec (b := false) (c := kItemNull) hp0 hid0 fun e => absurd rfl e
  rw [setLeft_eq] at h1
  rw [setRight_eq] at h2
  obtain rfl : p1 = q := Option.some.inj (h1.symm.trans hs)
  exact (((h.setItem hid).setKid hp0 hid0 h1).setKid hp1 hn1 h2).mono fun j hj => hj.1.1

theorem ensureHashes (h : Tidy Z p) {v : List Word} (hr : ensureHashes p id = some (p', v)) :
    Tidy Z p' := by
  obtain ⟨it, hid, hr⟩ := Option.bind_eq_some_iff.1 hr
  split at hr
  · cases hr
    exact h
  · cases hr
    exact h.setItem hid

end Tidy

theorem withLeaves_tidy {tree : TreeId} {Z : ItemId → Prop} {bits : List Bool} {c : List Pair}
    {L R : ItemId} {q : ItemPool}
    (hp : Settled p E) (h : Tidy Z p) (hq : withLeaves sha tree p bits c = (L, R, q)) :
    Tidy (fun j => (Z j ∨ j = L) ∨ j = R) q := by
  obtain ⟨-, -, hn1, -, hp1⟩ := allocLeaf_spec hp tree
  obtain ⟨-, hRd, hn2, -, -⟩ := allocLeaf_spec hp1 tree
  have h2 := (h.allocLeaf tree).allocLeaf tree
  unfold withLeaves at hq
  generalize p.allocLeaf tree = r1 at *
  obtain ⟨L', q1⟩ := r1
  dsimp only at *
  generalize q1.allocLeaf tree = r2 at *
  obtain ⟨R', q2⟩ := r2
  dsimp only at *
  simp only [Prod.mk.injEq] at hq
  obtain ⟨rfl, rfl, rfl⟩ := hq
  have hne : L' ≠ R' := by
    intro e
    rw [← e, hn1, Function.update_self] at hRd
    cases hRd
  have hL : q2.nodes L' = some (Item.new tree) := by
    rw [hn2, Function.update_of_ne hne, hn1, Function.update_self]
  have hR : q2.nodes R' = some (Item.new tree) := by rw [hn2, Function.update_self]
  have hR' : (q2.setItem L' (newLeaf tree (bits ++ [false]) (half sha false bits.length c))).nodes
    R' = some (Item.new tree) := by
    rw [setItem_nodes, Function.update_of_ne (Ne.symm hne)]
    exact hR
  exact (h2.setItem hL).setItem hR'

theorem splitNode_tidy {tree : TreeId} (ht : M tree) : ∀ {fuel : Nat} {stale id : ItemId}
    (big loose : ItemId → Prop)
    {p p' : ItemPool} {E : Slot → ItemId} {C : ItemId → List Pair} {it : Item} {Z : ItemId → Prop}, Settled p E →
    Shape sha M stale (fun j => big j ∨ j = id) loose p C → p.nodes id = some it → it.is_leaf = true →
    Fueled fuel it.bits.length → (stale = id ∨ it.dirty = true) →
      splitNode sha tree fuel p id = some p' → Tidy Z p → Tidy Z p'
  | 0, _, _, _, _, _, _, _, _, _, _, _, _, _, _, _, _, hr, _ => by cases hr
  | fuel + 1, stale, id, big, loose, p, p', E, C, it, Z, hp, h, hid, hleaf, hf, hst, hr, hz => by
    have ho := h.item id it hid
    have hsp := sparse_of_split ht big loose hp h hid hleaf hf hr
    obtain ⟨hbucket, -, -⟩ := ho.leaf hleaf
    by_cases hsmall : (C id).length ≤ LEAF_SIZE
    · simp only [splitNode, hid, hbucket, hsmall, if_true, Option.bind_eq_bind, Option.bind_some,
        Option.some.injEq] at hr
      rwa [← hr]
    have hlt : it.bits.length < MAX_BITS :=
      bits_lt_of_big (hp.bounded id it hid) hsp (fun q hq => (ho.pairs q hq).2) (by omega)
    obtain ⟨L, R, q, Cq, hq, hLR, hpq, hSq⟩ := withLeaves_spec ht hp h hlt ho.sorted ho.pairs
    have hzq := withLeaves_tidy hp hz hq
    obtain ⟨hCL, hCR⟩ := hLR.contents
    have hqL := hLR.node_left
    have hqR := hLR.node_right
    obtain ⟨hidL, hidR⟩ := hLR.ne_of_live hid
    have hqid := hLR.node_live hid
    rw [splitNode_big hid hbucket (by omega) hlt hq] at hr
    obtain ⟨p1, hr1, hr⟩ := Option.bind_eq_some_iff.1 hr
    obtain ⟨p2, hr2, hr⟩ := Option.bind_eq_some_iff.1 hr
    obtain ⟨p3, hr3, hr4⟩ := Option.bind_eq_some_iff.1 hr
    -- the halves are split, each in the pool the other leaves
    have hbig : ∀ j, ((big j ∨ j = id) ∨ j = L) ∨ j = R → ((big j ∨ j = id) ∨ j = R) ∨ j = L := by tauto
    have hSL := hSq.mono hbig fun _ hl => hl
    obtain ⟨q1, E1, C1, itL, hs1, h1⟩ := splitNode_spec ht (fun j => (big j ∨ j = id) ∨ j = R) loose
      hpq hSL hqL rfl
      (by rw [hCL]; exact sparse_half hsp false _) (hf.down false) (.inr rfl)
    obtain rfl : p1 = q1 := Option.some.inj (hr1.symm.trans hs1)
    have hz1 := splitNode_tidy ht (fun j => (big j ∨ j = id) ∨ j = R) loose hpq hSL hqL rfl
      (hf.down false) (.inr rfl) hr1 hzq
    have h1R := h1.frame R _ hLR.ne.symm hqR
    obtain ⟨q2, E2, C2, itR, hs2, h2⟩ := splitNode_spec ht (fun j => big j ∨ j = id) loose h1.held
      h1.shape h1R rfl
      (by rw [h1.content R _ hqR, hCR]; exact sparse_half hsp true _) (hf.down true) (.inr rfl)
    obtain rfl : p2 = q2 := Option.some.inj (hr2.symm.trans hs2)
    have hz2 := splitNode_tidy ht (fun j => big j ∨ j = id) loose h1.held h1.shape h1R rfl
      (hf.down true) (.inr rfl) hr2 hz1
    -- then they are linked
    have hid2 : p2.nodes id = some it := h2.frame id _ hidR (h1.frame id _ hidL hqid)
    let it0 : Item := { it with leaf_bucket := none, is_leaf := false, dirty := true }
    have hp0 : Settled (p2.setItem id it0) E2 := h2.held.setItem hid2 rfl fun _ b => by cases b <;> rfl
    have hid0 : (p2.setItem id it0).nodes id = some it0 := setItem_self _ _ _
    obtain ⟨q3, E3, hs3, hp3, hn3, -⟩ := setKid_spec (b := false) (c := L) hp0 hid0 fun _ =>
      ⟨itL, by rw [setItem_nodes, Function.update_of_ne hidL.symm, h2.frame L _ hLR.ne h1.node], h1.fields.1⟩
    obtain rfl : p3 = q3 := Option.some.inj (hr3.symm.trans hs3)
    rw [setRight_eq] at hr4
    refine (((hz2.setItem hid2).setKid hp0 hid0 hs3).setKid hp3 hn3 hr4).mono ?_
    intro j hj
    exact (hj.1.1.resolve_right hj.2).resolve_right hj.1.2

/-- The node that comes back is not linked yet. -/
theorem insertPath_tidy {tree : TreeId} (ht : M tree) {key : Bytes} {value : Word} :
    ∀ {fuel : Nat} {p p' : ItemPool}
    {E : Slot → ItemId} {C : ItemId → List Pair} {id id' : ItemId} {it : Item} {Z : ItemId → Prop}, Settled p E →
    Whole sha M p C → p.nodes id = some it → Under sha it.bits key → Fueled fuel it.bits.length →
    insertPath sha tree key value fuel p id = some (id', p') → Tidy Z p →
      Tidy (fun j => Z j ∨ j = id') p'
  | 0, _, _, _, _, _, _, _, _, _, _, _, _, _, hr, _ => by cases hr
  | fuel + 1, p, p', E, C, id, id', it, Z, hp, h, hid, hu, hf, hr, hz => by
    obtain ⟨id0, p0, E0, it0, hr0, hfk⟩ := forkForWrite_spec ht hp h hid
    have hz0 := hz.forkForWrite hp hr0
    have ho0 := hfk.shape.item id0 it0 hfk.node
    rw [← hfk.fields.1] at hu hf
    simp only [insertPath, hr0, hfk.node, Option.bind_eq_bind, Option.bind_some] at hr
    by_cases hleaf : it0.is_leaf = true
    · obtain ⟨hb, -, -⟩ := ho0.leaf hleaf
      rw [if_pos hleaf, hb, Option.bind_some] at hr
      by_cases hv : value = 0
      · rw [if_pos hv] at hr
        cases hr
        exact hz0.setItem hfk.node
      · rw [if_neg hv] at hr
        obtain ⟨p1, hr1, hr⟩ := Option.bind_eq_some_iff.1 hr
        obtain ⟨n, hn, hr⟩ := Option.bind_eq_some_iff.1 hr
        cases hr
        obtain ⟨hp1, hS1⟩ := Shape.putLeaf hfk.held hfk.shape hfk.node hleaf hu hv hb
        exact (splitNode_tidy ht noNode (fun j => j = id') hp1 hS1 (setItem_self _ _ _) hleaf
          (fueled_FUEL _) (.inl rfl) hr1
          (hz0.setItem hfk.node)).setItem hn
    · rw [if_neg hleaf] at hr
      rw [Bool.not_eq_true] at hleaf
      have key' : ∀ b c p1 p2 n, insertPath sha tree key value fuel p0 (it0.kid b) = some (c, p1) →
          hashBit sha key it0.bits.length = b → setKid b p1 id0 c = some p2 → p2.nodes id0 = some n →
          Tidy (fun j => Z j ∨ j = id0) (p2.setItem id0 { n with dirty := true }) := by
        intro b c p1 p2 n h1 hb h2 hn
        obtain ⟨k, hkn, hkb, hkC, -⟩ := hfk.shape.child hfk.held hfk.node hleaf ((ho0.node hleaf).2 b)
        have hu' : Under sha k.bits key := by rw [hkb]; exact under_snoc.2 ⟨hu, hb⟩
        have hf' : Fueled fuel k.bits.length := by rw [hkb]; exact hf.down b
        obtain ⟨c', q1, E1, C1, hs1, hin⟩ := insertPath_spec ht value hfk.held hfk.shape hkn hu' hf'
          (sparse_of_insert ht hfk.held hfk.shape hkn hu' hf' h1)
        obtain ⟨rfl, rfl⟩ := Prod.mk.inj (Option.some.inj (h1.symm.trans hs1))
        have hid1 := (hin.frame id0 it0 hfk.node (by rw [hkb]; exact not_prefix_snoc (le_refl _))).1
        have hz1 := insertPath_tidy ht hfk.held hfk.shape hkn hu' hf' h1 hz0
        exact ((hz1.setKid hin.held hid1 h2).mono fun j hj => hj.1.resolve_right hj.2).setItem hn
      cases hb : hashBit sha key it0.bits.length with
      | false =>
        rw [hb] at hr
        obtain ⟨⟨c, p1⟩, h1, hr⟩ := Option.bind_eq_some_iff.1 hr
        obtain ⟨p2, h2, hr⟩ := Option.bind_eq_some_iff.1 hr
        obtain ⟨n, hn, hr⟩ := Option.bind_eq_some_iff.1 hr
        cases hr
        exact key' false c p1 p2 n h1 hb h2 hn
      | true =>
        rw [hb] at hr
        obtain ⟨⟨c, p1⟩, h1, hr⟩ := Option.bind_eq_some_iff.1 hr
        obtain ⟨p2, h2, hr⟩ := Option.bind_eq_some_iff.1 hr
        obtain ⟨n, hn, hr⟩ := Option.bind_eq_some_iff.1 hr
        cases hr
        exact key' true c p1 p2 n h1 hb h2 hn

theorem updateMerkleHashCount_tidy {live : TreeId → Bool} {tree : TreeId} {C : ItemId → List Pair} :
    ∀ {fuel : Nat} {p p' : ItemPool} {E : Slot → ItemId} {id : ItemId} {it : Item}
      {Z : ItemId → Prop}, Settled p E →
      Whole sha M p C → p.nodes id = some it → Fueled fuel it.bits.length →
      updateMerkleHashCount sha live tree fuel p id = some p' → Tidy Z p → Tidy Z p'
  | 0, _, _, _, _, _, _, _, _, _, _, hr, _ => by cases hr
  | fuel + 1, p, p', E, id, it, Z, hp, h, hid, hf, hr, hz => by
    have ho := h.item id it hid
    unfold updateMerkleHashCount at hr
    rw [if_neg (show id ≠ kItemNull from hp.ne_zero hid), hid, Option.bind_eq_bind,
      Option.bind_some] at hr
    split at hr
    · cases hr
      exact hz
    split at hr
    · rename_i hleaf
      obtain ⟨hb, -, hsz⟩ := ho.leaf hleaf
      rw [hb, Option.bind_eq_bind, Option.bind_some, if_neg (Nat.not_lt.2 (hsz not_false))] at hr
      cases hr
      exact hz.setItem hid
    · rename_i hleaf
      rw [Bool.not_eq_true] at hleaf
      obtain ⟨l, hln, hlb, hlC, -⟩ := h.child hp hid hleaf ((ho.node hleaf).2 false)
      obtain ⟨r, hrn, hrb, hrC, -⟩ := h.child hp hid hleaf ((ho.node hleaf).2 true)
      have hf1 : Fueled fuel l.bits.length := by rw [hlb]; exact hf.down false
      have hf2 : Fueled fuel r.bits.length := by rw [hrb]; exact hf.down true
      obtain ⟨p1, hr1, hr⟩ := Option.bind_eq_some_iff.1 hr
      obtain ⟨q1, E1, hq1, h1⟩ := updateMerkleHashCount_spec tree hp h hln hf1
        (collapseLive_of_update tree hp h hln hf1 hr1)
      obtain rfl : p1 = q1 := Option.some.inj (hr1.symm.trans hq1)
      have hz1 := updateMerkleHashCount_tidy hp h hln hf1 hr1 hz
      have hid1 := h1.frame id it hid (by rw [hlb]; exact not_prefix_snoc (le_refl _))
      have hrn1 := h1.frame _ r hrn (by rw [hlb, hrb]; exact not_prefix_side (by simp))
      rw [hid1, Option.bind_some] at hr
      obtain ⟨p2, hr2, hr⟩ := Option.bind_eq_some_iff.1 hr
      obtain ⟨q2, E2, hq2, h2⟩ := updateMerkleHashCount_spec tree h1.held h1.shape hrn1 hf2
        (collapseLive_of_update tree h1.held h1.shape hrn1 hf2 hr2)
      obtain rfl : p2 = q2 := Option.some.inj (hr2.symm.trans hq2)
      have hz2 := updateMerkleHashCount_tidy h1.held h1.shape hrn1 hf2 hr2 hz1
      have hid2 := h2.frame id it hid1 (by rw [hrb]; exact not_prefix_snoc (le_refl _))
      rw [hid2, Option.bind_some] at hr
      obtain ⟨l2, -, hr⟩ := Option.bind_eq_some_iff.1 hr
      obtain ⟨r2, -, hr⟩ := Option.bind_eq_some_iff.1 hr
      split at hr
      · split at hr
        · cases hr
        obtain ⟨pairs, -, hr⟩ := Option.bind_eq_some_iff.1 hr
        obtain ⟨p3, h3, hr⟩ := Option.bind_eq_some_iff.1 hr
        obtain ⟨p4, h4, hr⟩ := Option.bind_eq_some_iff.1 hr
        obtain ⟨it4, hn4, hr⟩ := Option.bind_eq_some_iff.1 hr
        cases hr
        exact (hz2.collapse h2.held hid2 (by rfl) (by intro b; cases b <;> rfl) h3 h4).setItem hn4
      · obtain ⟨⟨p3, lh⟩, h3, hr⟩ := Option.bind_eq_some_iff.1 hr
        obtain ⟨⟨p4, rh⟩, h4, hr⟩ := Option.bind_eq_some_iff.1 hr
        cases hr
        obtain ⟨it3, hn3⟩ := ensureHashes_live h3 hid2
        obtain ⟨it4, hn4⟩ := ensureHashes_live h4 hn3
        exact ((hz2.ensureHashes h3).ensureHashes h4).setItem hn4

/-- **A call that comes back reached no defect.** -/
theorem sound_of_step {w : World} {m : Maps} {E : Slot → ItemId} {C : ItemId → List Pair}
    (h : Refines sha w m E C) {op : Op}
    {r : World × Obs} (hs : step sha w op = some r) : (w.trees op.tree).isSome = true ∧
      op.sound sha w m = true := by
  cases op with
  | insertItem t key value =>
    obtain ⟨w1, hs, -⟩ := Option.bind_eq_some_iff.1 hs
    obtain ⟨root, hr, hs⟩ := Option.bind_eq_some_iff.1 hs
    obtain ⟨q, hq, -⟩ := Option.bind_eq_some_iff.1 hs
    obtain ⟨-, it, hit, hb⟩ := h.root_node hr
    have hsp := sparse_of_insert (M := fun t => t < w.next) (h.lt_next hr) h.held h.shape hit
      (by rw [hb]; exact under_nil key)
      (fueled_FUEL _) hq
    refine ⟨by simp only [Op.tree, hr, Option.isSome_some], ?_⟩
    simp only [Op.sound, h.maps_some hr, Option.all_some, hsp, decide_true]
  | rootHash t =>
    obtain ⟨w1, hs, -⟩ := Option.bind_eq_some_iff.1 hs
    obtain ⟨root, hr, hs⟩ := Option.bind_eq_some_iff.1 hs
    obtain ⟨q, hq, -⟩ := Option.bind_eq_some_iff.1 hs
    obtain ⟨-, it, hit, hb⟩ := h.root_node hr
    refine ⟨by simp only [Op.tree, hr, Option.isSome_some], ?_⟩
    simp only [Op.sound, hr, Option.all_some, collapseLive_of_update t h.held h.shape hit
      (fueled_FUEL _) hq]
  | getProofs t key =>
    obtain ⟨w1, hs, -⟩ := Option.bind_eq_some_iff.1 hs
    obtain ⟨root, hr, hs⟩ := Option.bind_eq_some_iff.1 hs
    obtain ⟨q, hq, -⟩ := Option.bind_eq_some_iff.1 hs
    obtain ⟨-, it, hit, hb⟩ := h.root_node hr
    refine ⟨by simp only [Op.tree, hr, Option.isSome_some], ?_⟩
    simp only [Op.sound, hr, Option.all_some, collapseLive_of_update t h.held h.shape hit
      (fueled_FUEL _) hq]
  | getItem t | each t | size t | copy t | destroy t =>
    obtain ⟨root, hr, -⟩ := Option.bind_eq_some_iff.1 hs
    exact ⟨by simp only [Op.tree, hr, Option.isSome_some], rfl⟩

/-! ## Runs -/

/-- No node is loose between operations. -/
theorem step_tidy {w w' : World} {m m' : Maps} {E E' : Slot → ItemId} {C C' : ItemId → List Pair}
    (h : Refines sha w m E C)
    {op : Op} {o : Obs} (hs : step sha w op = some (w', o)) (h' : Refines sha w' m' E' C')
      (hz : Tidy noNode w.pool) :
    Tidy noNode w'.pool := by
  cases op with
  | insertItem t key value =>
    obtain ⟨w1, h1, hw⟩ := Option.bind_eq_some_iff.1 hs
    cases hw
    obtain ⟨root, hr, hs⟩ := Option.bind_eq_some_iff.1 h1
    obtain ⟨⟨new_root, p⟩, hq, hs⟩ := Option.bind_eq_some_iff.1 hs
    obtain ⟨-, it, hit, hb⟩ := h.root_node hr
    have hz1 := insertPath_tidy (M := fun t => t < w.next) (h.lt_next hr) h.held h.shape hit
      (by rw [hb]; exact under_nil key) (fueled_FUEL _) hq hz
    dsimp only at hs
    split at hs
    · obtain ⟨p2, h2, hs⟩ := Option.bind_eq_some_iff.1 hs
      cases hs
      have h0 : p2.nodes 0 = none := by
        have := h'.held.null
        rwa [incrRef_nodes] at this
      exact ((hz1.decrRef h2).incrRef h0).mono fun j hj => hj.1.resolve_right hj.2
    · rename_i hne
      cases hs
      obtain rfl : new_root = root := not_not.1 hne
      have hE : E' (.root t) = new_root := by
        rw [h'.roots, show Option.getD (w.trees t) 0 = new_root by rw [hr]; rfl]
      exact (hz1.forget h'.held hE).mono fun j hj => hj.1.resolve_right hj.2
  | rootHash t =>
    obtain ⟨⟨w1, v⟩, h1, hw⟩ := Option.bind_eq_some_iff.1 hs
    cases hw
    obtain ⟨root, hr, hs⟩ := Option.bind_eq_some_iff.1 h1
    obtain ⟨p, hq, hs⟩ := Option.bind_eq_some_iff.1 hs
    obtain ⟨⟨q, hv⟩, hq', hs⟩ := Option.bind_eq_some_iff.1 hs
    cases hs
    obtain ⟨-, it, hit, -⟩ := h.root_node hr
    exact (updateMerkleHashCount_tidy h.held h.shape hit (fueled_FUEL _) hq hz).ensureHashes hq'
  | getProofs t key =>
    obtain ⟨⟨w1, v⟩, h1, hw⟩ := Option.bind_eq_some_iff.1 hs
    cases hw
    obtain ⟨root, hr, hs⟩ := Option.bind_eq_some_iff.1 h1
    obtain ⟨p, hq, hs⟩ := Option.bind_eq_some_iff.1 hs
    obtain ⟨⟨q, proof⟩, hq', hs⟩ := Option.bind_eq_some_iff.1 hs
    cases hs
    obtain ⟨-, it, hit, -⟩ := h.root_node hr
    have hz1 := updateMerkleHashCount_tidy h.held h.shape hit (fueled_FUEL _) hq hz
    -- below a clean root the proof is only read
    obtain ⟨p', E1, hp', hu⟩ := updateMerkleHashCount_spec t h.held h.shape hit (fueled_FUEL _)
      (collapseLive_of_update t h.held h.shape hit (fueled_FUEL _) hq)
    obtain rfl : p = p' := Option.some.inj (hq.symm.trans hp')
    obtain ⟨it', hit', hd, -⟩ := hu.node
    have hg := doGetProofs_spec w.live t key hu.held hu.shape hit' hd (fueled_FUEL _)
    obtain ⟨rfl, -⟩ := Prod.mk.inj (Option.some.inj (hq'.symm.trans hg))
    exact hz1
  | copy t =>
    obtain ⟨root, hr, hs⟩ := Option.bind_eq_some_iff.1 hs
    cases hs
    exact (hz.incrRef h.held.null).mono fun j hj => hj.1
  | destroy t =>
    obtain ⟨root, hr, hs⟩ := Option.bind_eq_some_iff.1 hs
    obtain ⟨p, hp, hs⟩ := Option.bind_eq_some_iff.1 hs
    cases hs
    exact hz.decrRef hp
  | getItem t key =>
    obtain ⟨root, hr, hs⟩ := Option.bind_eq_some_iff.1 hs
    obtain ⟨b, hb, hs⟩ := Option.bind_eq_some_iff.1 hs
    cases hs
    exact hz
  | each t | size t =>
    obtain ⟨root, hr, hs⟩ := Option.bind_eq_some_iff.1 hs
    obtain ⟨l, hl, hs⟩ := Option.bind_eq_some_iff.1 hs
    cases hs
    exact hz

theorem run_tidy : ∀ {ops : List Op} {w w' : World} {m : Maps} {E : Slot → ItemId}
    {C : ItemId → List Pair} {os : List Obs},
    Refines sha w m E C → Tidy noNode w.pool → run sha w ops = some (w', os) →
    ∃ m' E' C', Refines sha w' m' E' C' ∧ Tidy noNode w'.pool
  | [], w, w', m, E, C, os, h, hz, hr => by
    cases hr
    exact ⟨m, E, C, h, hz⟩
  | op :: ops, w, w', m, E, C, os, h, hz, hr => by
    obtain ⟨⟨w1, o⟩, hs, hrest⟩ := Option.bind_eq_some_iff.1 hr
    obtain ⟨⟨w2, os'⟩, hr', he⟩ := Option.bind_eq_some_iff.1 hrest
    cases he
    obtain ⟨ht, hsound⟩ := sound_of_step h hs
    obtain ⟨w1', o', m1, _, E1, C1, h1, -, -, h2⟩ := step_refines h ht hsound
    obtain ⟨rfl, rfl⟩ := Prod.mk.inj (Option.some.inj (hs.symm.trans h1))
    exact run_tidy h2 (step_tidy h hs h2 hz) hr'

/-- **A run that comes back** reached no defect. -/
theorem sound_of_run : ∀ {ops : List Op} {w : World} {m : Maps} {E : Slot → ItemId} {C : ItemId → List Pair}
    {x : World × List Obs}, Refines sha w m E C → run sha w ops = some x → soundRun sha w m ops = true
  | [], _, _, _, _, _, _, _ => rfl
  | op :: ops, w, m, E, C, x, h, hr => by
    obtain ⟨⟨w1, o⟩, hs, hrest⟩ := Option.bind_eq_some_iff.1 hr
    obtain ⟨y, hr', -⟩ := Option.bind_eq_some_iff.1 hrest
    obtain ⟨ht, hsound⟩ := sound_of_step h hs
    obtain ⟨w1', o', m1, o'', E1, C1, h1, h2, -, hR⟩ := step_refines h ht hsound
    obtain ⟨rfl, rfl⟩ := Prod.mk.inj (Option.some.inj (hs.symm.trans h1))
    rw [soundRun, ht, hsound, h1, h2]
    exact sound_of_run hR hr'

theorem tidy_init : Tidy noNode World.init.pool := by
  refine ⟨?_, ?_⟩
  · intro j hz hj hn
    have hj' : j < 2 := hj
    obtain rfl : j = 1 := by omega
    cases hn
  · intro j it hj h0
    have hj' : Function.update (fun _ => none) 1 (some (Item.new 0)) j = some it := hj
    by_cases e : j = 1
    · subst e
      cases h0
    · rw [Function.update_of_ne e] at hj'
      cases hj'

/-! ## Exact counts -/

/-- What the slots of a world hold: the roots of its trees and the children of
its nodes. -/
def World.holds (w : World) : Slot → ItemId
  | .root t => (w.trees t).getD kItemNull
  | .kid j b => ((w.pool.nodes j).map fun it => it.kid b).getD kItemNull

/-- `j` is a child of `i`. -/
def ItemPool.Link (p : ItemPool) (i j : ItemId) : Prop := ∃ it b, p.nodes i = some it ∧
    it.kid b = j ∧ j ≠ kItemNull

/-- The counts are exact: every node is counted by the slots that hold it, the
free slots are listed once each (id 0 is no slot), what a tree reaches is not
free, and nothing outlives the last tree. -/
structure World.Exact (w : World) : Prop where
  counts : ∀ j it, w.pool.nodes j = some it → Counts w.holds j (w.pool.refcnt j)
  free : ∀ j, j ≠ kItemNull → j < w.pool.size → (j ∈ w.pool.free_list ↔ w.pool.nodes j = none)
  inside : ∀ j, (j ∈ w.pool.free_list ∨ (w.pool.nodes j).isSome = true) →
    j ≠ kItemNull ∧ j < w.pool.size
  nodup : w.pool.free_list.Nodup
  reach : ∀ t r j, w.trees t = some r → Relation.ReflTransGen w.pool.Link r j →
    (w.pool.nodes j).isSome = true ∧ j ∉ w.pool.free_list
  last : (∀ t, w.trees t = none) → ∀ j, w.pool.nodes j = none

namespace Refines
variable {w : World} {m : Maps} {E : Slot → ItemId} {C : ItemId → List Pair}

theorem holds (h : Refines sha w m E C) : w.holds = E := by
  funext s
  cases s with
  | root t => exact (h.roots t).symm
  | kid j b =>
    cases hj : w.pool.nodes j with
    | none => simp only [World.holds, hj, Option.map_none, Option.getD_none, (h.held.dead j hj).2 b, kItemNull]
    | some it => simp only [World.holds, hj, Option.map_some, Option.getD_some,
        h.held.link j it hj not_false b]

theorem reaches (h : Refines sha w m E C) {t : TreeId} {r j : ItemId} (hr : w.trees t = some r)
    (hj : Relation.ReflTransGen w.pool.Link r j) : ∃ it, w.pool.nodes j = some it := by
  induction hj with
  | refl =>
    obtain ⟨-, it, hit, -⟩ := h.root_node hr
    exact ⟨it, hit⟩
  | tail _ hl _ =>
    obtain ⟨it, b, hi, rfl, h0⟩ := hl
    have hlink := h.held.link _ it hi not_false b
    obtain ⟨c, hc, -⟩ := h.held.kid_node (b := b) hi (by rw [hlink]; exact h0)
    rw [hlink] at hc
    exact ⟨c, hc⟩

/-- Every node hangs below a tree: the slot that holds it is a root, or belongs
to a node with fewer bits. -/
theorem below_tree (h : Refines sha w m E C) (hz : Tidy noNode w.pool) :
    ∀ {n : Nat} {j : ItemId} {it : Item},
    w.pool.nodes j = some it → it.bits.length ≤ n → ∃ t r, w.trees t = some r
  | n, j, it, hj, hn => by
    have hj0 := h.held.ne_zero hj
    obtain ⟨s, hs⟩ := (h.held.counts hj0).exists_of_pos (Nat.pos_of_ne_zero fun h0 =>
      hz.counted j it hj h0)
    obtain ⟨c, hc, hpl⟩ := h.held.slot s (by rw [hs]; exact hj0)
    rw [hs, hj] at hc
    cases hc
    cases s with
    | root t =>
      rw [h.roots] at hs
      cases ht : w.trees t with
      | none => rw [ht] at hs; exact absurd hs.symm hj0
      | some r => exact ⟨t, r, ht⟩
    | kid i b =>
      obtain ⟨o, ho, hob⟩ := hpl
      rw [hob, List.length_append, List.length_singleton] at hn
      obtain ⟨k, rfl⟩ : ∃ k, n = k + 1 := ⟨n - 1, by omega⟩
      exact below_tree h hz ho (Nat.le_of_succ_le_succ hn)

theorem exact (h : Refines sha w m E C) (hz : Tidy noNode w.pool) : w.Exact where
  counts := fun j it hj => by
    rw [h.holds]
    exact h.held.counts (h.held.ne_zero hj)
  free := fun j h0 hj => ⟨fun hm => (h.held.free j hm).2.2, hz.listed j h0 hj⟩
  inside := fun j hj => by
    rcases hj with hj | hj
    · obtain ⟨h0, hlt, -⟩ := h.held.free j hj
      exact ⟨h0, hlt⟩
    · obtain ⟨it, hit⟩ := Option.isSome_iff_exists.1 hj
      refine ⟨h.held.ne_zero hit, ?_⟩
      by_contra hn
      have := h.held.fresh j (Nat.not_lt.1 hn)
      rw [hit] at this
      cases this
  nodup := h.held.freeNodup
  reach := fun t r j hr hj => by
    obtain ⟨it, hit⟩ := h.reaches hr hj
    refine ⟨by rw [hit]; rfl, fun hm => ?_⟩
    have := (h.held.free j hm).2.2
    rw [hit] at this
    cases this
  last := fun hn j => by
    cases hj : w.pool.nodes j with
    | none => rfl
    | some it =>
      obtain ⟨t, r, ht⟩ := h.below_tree hz hj (le_refl _)
      rw [hn t] at ht
      cases ht

end Refines

/-- **The counts are exact** in every state between calls on trees that share a
pool. -/
theorem reference_counts_exact (ops : List Op) (w : World) (os : List Obs)
    (h : run sha World.init ops = some (w, os)) :
    w.Exact := by
  obtain ⟨E, C, h0⟩ := @refines_init sha
  obtain ⟨m, E', C', h', hz⟩ := run_tidy h0 tidy_init h
  exact h'.exact hz

/-- Seventeen keys split the root, a copy is written, and both trees go. -/
theorem reference_counts_exact_split : ∃ w os, run Sha256.sha256 World.init
    ((List.range 17).map (fun i => .insertItem 0 (addrKey i) 1) ++
    [.copy 0, .insertItem 1 (addrKey 3) 0, .rootHash 1, .getProofs 0 (addrKey 5), .destroy 1,
      .destroy 0]) = some (w, os) ∧
      w.Exact := by
  obtain ⟨⟨w, os⟩, h⟩ := Option.isSome_iff_exists.1 (show (run Sha256.sha256 World.init
    ((List.range 17).map (fun i => Op.insertItem 0 (addrKey i) 1) ++
    [.copy 0, .insertItem 1 (addrKey 3) 0, .rootHash 1, .getProofs 0 (addrKey 5), .destroy 1,
      .destroy 0])).isSome = true by
      rw [Sha256.sha256_eq]
      decide +kernel)
  exact ⟨w, os, h, reference_counts_exact _ w os h⟩

end
end Diode.L2
