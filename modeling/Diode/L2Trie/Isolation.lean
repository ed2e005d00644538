import Diode.Core.Sha256
import Diode.L2Trie.Insert
import Diode.L2Trie.Hash

/-!
# Trees that share a pool behave like independent maps

`Maps` is what the trees of one pool are for: a finite map for each tree,
copied when the tree is copied. `Refines` relates a `World` to it.

* `step_refines`: every call on a tree that exists returns what the map of
  that tree says and leaves the other maps alone, if no node made by a
  destroyed tree is collapsed (`Op.Sound`).
* `run_refines`: so does every run.
-/
namespace Diode.L2
open Diode.Core Diode.L1.Ext ItemPool

/-! ## The maps -/

/-- A map for each tree that exists. -/
structure Maps where
  content : TreeId → Option (List Pair)
  next : TreeId

def Maps.init : Maps := ⟨Function.update (fun _ => none) 0 (some []), 1⟩

/-- What a call on a tree that holds `c` does to the maps. -/
def Maps.effect (m : Maps) (c : List Pair) : Op → Maps
  | .insertItem t key value =>
      { m with content := Function.update m.content t (some (putSlot c key value)) }
  | .copy _ => ⟨Function.update m.content m.next (some c), m.next + 1⟩
  | .destroy t => { m with content := Function.update m.content t none }
  | _ => m

/-- The maps after a sequence of calls. -/
def Maps.after (m : Maps) : List Op → Maps
  | [] => m
  | op :: ops => (((m.content op.tree).map fun c => m.effect c op).getD m).after ops

section
variable (sha : Bytes → Word)

/-- What a call on a tree that holds `c` answers. -/
def Maps.answer (m : Maps) (c : List Pair) : Op → Obs
  | .insertItem _ _ _ => .done
  | .getItem _ key => .value (Assoc.get c key)
  | .each _ => .pairs c
  | .size _ => .count c.length
  | .rootHash _ => .hash (canonicalRoot sha c)
  | .getProofs _ key => .proof (canonicalProof sha key c)
  | .copy _ => .tree m.next
  | .destroy _ => .done

/-- A call on the map `op.tree`. -/
def Maps.step (m : Maps) (op : Op) : Option (Maps × Obs) :=
  (m.content op.tree).map fun c => (m.effect c op, m.answer sha c op)

def Maps.run (m : Maps) : List Op → Option (Maps × List Obs)
  | [] => some (m, [])
  | op :: ops => do
    let (m, o) ← m.step sha op
    let (m, os) ← m.run ops
    some (m, o :: os)

/-- The same answer; the pairs of an iteration in any order. -/
def Obs.Agrees : Obs → Obs → Prop
  | .pairs l, .pairs l' => l.Perm l'
  | o, o' => o = o'

/-- The call does not reach a defect: a write leaves no 17 keys that share the
first 128 bits of their hash, and hashing collapses no node of a destroyed tree. -/
def Op.sound (w : World) (m : Maps) : Op → Bool
  | .insertItem t key value => (m.content t).all fun c => Sparse sha (putSlot c key value)
  | .rootHash t => (w.trees t).all fun r => collapseLive w.live FUEL w.pool r
  | .getProofs t _ => (w.trees t).all fun r => collapseLive w.live FUEL w.pool r
  | _ => true

/-- Every call of the run is on a tree that exists, and is sound where it is made. -/
def soundRun (w : World) (m : Maps) : List Op → Bool
  | [] => true
  | op :: ops => (w.trees op.tree).isSome && op.sound sha w m &&
    match Diode.L2.step sha w op, m.step sha op with
    | some (w, _), some (m, _) => soundRun w m ops
    | _, _ => true

end

section
variable {sha : Bytes → Word}

/-! ## The simulation -/

/-- The pool of `w` holds the maps `m`. -/
structure Refines (sha : Bytes → Word) (w : World) (m : Maps) (E : Slot → ItemId)
    (C : ItemId → List Pair) : Prop where
  held : Settled w.pool E
  shape : Whole sha (fun t => t < w.next) w.pool C
  roots : ∀ t, E (.root t) = (w.trees t).getD 0
  root_ne : ∀ t r, w.trees t = some r → r ≠ 0
  maps : ∀ t, m.content t = (w.trees t).map C
  next : m.next = w.next
  fresh : ∀ t, w.next ≤ t → w.trees t = none

theorem settled_make : Settled ItemPool.make (fun _ => 0) where
  null := rfl
  counted := fun i hi => by
    rw [if_neg hi]
    exact Counts.zero_iff.2 fun _ => Ne.symm hi
  pending := fun h => absurd rfl h
  link := fun _ _ hj => by cases hj
  dead := fun _ _ => ⟨rfl, fun _ => rfl⟩
  slot := fun _ h => absurd rfl h
  bounded := fun _ _ hj => by cases hj
  free := fun _ hj => by cases hj
  freeNodup := List.nodup_nil
  fresh := fun _ _ => rfl
  size_pos := Nat.one_pos

theorem init_trees_ne {t : TreeId} (h : t ≠ 0) : World.init.trees t = none := by
  simp only [World.init, Function.update_of_ne h]

theorem init_content_ne {t : TreeId} (h : t ≠ 0) : Maps.init.content t = none := by
  simp only [Maps.init, Function.update_of_ne h]

theorem refines_init : ∃ E C, Refines sha World.init Maps.init E C := by
  obtain ⟨hz, -, hn, -, hp⟩ := allocLeaf_spec settled_make 0
  have hself : (ItemPool.make.allocLeaf 0).2.nodes (ItemPool.make.allocLeaf 0).1 = some
    (Item.new 0) := by
    rw [hn, Function.update_self]
  have hp' := hp.take (s := .root 0) (by simp) rfl fun _ => ⟨_, hself, rfl⟩
  have hkid : ∀ b, (Item.new 0).kid b = 0 := fun b => by cases b <;> rfl
  have hall : ∀ j it, World.init.pool.nodes j = some it → it = Item.new 0 := by
    intro j it hj
    have hj' : (ItemPool.make.allocLeaf 0).2.nodes j = some it := hj
    rw [hn] at hj'
    by_cases e : j = (ItemPool.make.allocLeaf 0).1
    · subst e
      rw [Function.update_self, Option.some.injEq] at hj'
      exact hj'.symm
    · rw [Function.update_of_ne e] at hj'
      cases hj'
  refine ⟨_, fun _ => [], ⟨hp', ⟨?_, ?_⟩, ?_, ?_, ?_, rfl, ?_⟩⟩
  · intro j it hj
    rw [hall j it hj]
    exact { sorted := List.Pairwise.nil, pairs := by simp, tree := Nat.one_pos
            leaf := fun _ => ⟨rfl, hkid, fun _ => Nat.zero_le _⟩
            node := fun hl => by cases hl
            clean := fun hd => by cases hd }
  · intro j it b hj hl
    rw [hall j it hj] at hl
    cases hl
  · intro t
    by_cases e : t = 0
    · subst e; rfl
    · have h1 : Slot.root t ≠ .root 0 := fun h => e (by cases h; rfl)
      rw [Function.update_of_ne h1, init_trees_ne e]
      rfl
  · intro t r ht
    by_cases e : t = 0
    · subst e
      cases ht
      exact hz
    · rw [init_trees_ne e] at ht
      cases ht
  · intro t
    by_cases e : t = 0
    · subst e; rfl
    · rw [init_content_ne e, init_trees_ne e]
      rfl
  · intro t ht
    exact init_trees_ne fun e => absurd (e ▸ ht) (by decide)

namespace Refines
variable {w : World} {m : Maps} {E : Slot → ItemId} {C : ItemId → List Pair} {t : TreeId} {r : ItemId}

theorem root_node (h : Refines sha w m E C) (ht : w.trees t = some r) :
    E (.root t) = r ∧ ∃ it, w.pool.nodes r = some it ∧ it.bits = [] := by
  have hr : E (.root t) = r := by rw [h.roots, ht]; rfl
  obtain ⟨it, hit, hb⟩ := h.held.slot (.root t) (by rw [hr]; exact h.root_ne t r ht)
  rw [hr] at hit
  exact ⟨hr, it, hit, hb⟩

theorem lt_next (h : Refines sha w m E C) (ht : w.trees t = some r) : t < w.next := by
  by_contra hn
  have := h.fresh t (Nat.le_of_not_lt hn)
  rw [ht] at this
  cases this

/-- Only the pool changes, and no content does. -/
theorem of_updated (h : Refines sha w m E C) {it : Item} {p' : ItemPool} {E' : Slot → ItemId}
    (hu : Updated sha (fun t => t < w.next) C w.pool E r it p' E') :
      Refines sha { w with pool := p' } m E' C :=
  ⟨hu.held, hu.shape, fun t => (hu.roots t).trans (h.roots t), h.root_ne, h.maps, h.next, h.fresh⟩

theorem other_root (h : Refines sha w m E C) (ht : w.trees t = some r) {u : TreeId} (hu : u ≠ t) :
    E (.root u) = r → 2 ≤ w.pool.refcnt r := by
  intro e
  have hz := h.root_ne t r ht
  exact (h.held.counts hz).two_le (fun e' => hu (by cases e'; rfl)) e (h.root_node ht).1

theorem maps_some (h : Refines sha w m E C) (ht : w.trees t = some r) : m.content t = some (C r) := by
  rw [h.maps, ht]; rfl

/-- **`insert_item`.** -/
theorem insertItem (h : Refines sha w m E C) (ht : w.trees t = some r) {key : Bytes} {value : Word}
    (hsp : Sparse sha (putSlot (C r) key value)) :
    ∃ w' E' C', insertItem sha w t key value = some w' ∧
      Refines sha w' { m with content := Function.update m.content t (some (putSlot (C r) key value)) } E' C' := by
  obtain ⟨hr, it, hit, hb⟩ := h.root_node ht
  have hz := h.root_ne t r ht
  obtain ⟨id', p', E', C', hi, hn⟩ := insertPath_spec (M := fun t => t < w.next)
    (h.lt_next ht) value h.held h.shape hit
    (by rw [hb]; exact under_nil key) (by rw [hb]; exact fueled_FUEL _) hsp
  obtain ⟨it', hit', hb'⟩ := hn.node
  rw [hb] at hb'
  have hz' := hn.held.ne_zero hit'
  have hmaps : ∀ u, u ≠ t → (w.trees u).map C' = (w.trees u).map C := by
    intro u hu
    cases hwu : w.trees u with
    | none => rfl
    | some ru =>
      obtain ⟨hru, -⟩ := h.root_node hwu
      have := hn.keepRoot u (by rw [hru]; exact h.root_ne u ru hwu) (h.other_root ht hu)
      rw [hru] at this
      rw [Option.map_some, Option.map_some, this]
  have hcontent : ∀ (q : ItemId), q = id' →
      ∀ u, Function.update m.content t (some (putSlot (C r) key value)) u =
        (Function.update w.trees t (some q) u).map C' := by
    intro q hq u
    by_cases e : u = t
    · subst e
      rw [Function.update_self, Function.update_self, Option.map_some, hq, hn.content]
    · rw [Function.update_of_ne e, Function.update_of_ne e, hmaps u e, h.maps]
  by_cases hne : id' = r
  · -- written in place: the root slot is the only one that holds the root
    subst hne
    have hshape : Whole sha (fun t => t < w.next) p' C' := by
      refine hn.shape.unstale fun j jt b hj _ hk => ?_
      have h1 : E' (.kid j b) = id' := (hn.held.link j jt hj not_false b).trans hk
      have h2 : E' (.root t) = id' := (hn.roots t).trans hr
      have := hn.single _ _ h1 h2
      cases this
    refine ⟨{ w with pool := p' }, E', C', ?_, hn.held, hshape, fun u => (hn.roots u).trans
      (h.roots u), h.root_ne, ?_,
      h.next, h.fresh⟩
    · simp only [Diode.L2.insertItem, ht, hi, Option.bind_eq_bind, Option.bind_some, ne_eq,
        not_true_eq_false, if_false]
    · intro u
      dsimp only
      rw [hcontent id' rfl u]
      by_cases e : u = t
      · subst e; rw [Function.update_self, ht]
      · rw [Function.update_of_ne e]
  · have hdead : w.pool.nodes id' = none := by
      rcases hn.which with ⟨e, -⟩ | ⟨e, -⟩
      · exact absurd e hne
      · exact e
    have hr' : E' (.root t) = r := (hn.roots t).trans hr
    have hrel := hn.held.release (s := .root t) (by simp)
    obtain ⟨p2, E2, hd2, hh2, hdrop⟩ := decrRef_spec (show 0 < FUEL by decide)
      (fueled_FUEL ([] : List Bool).length) hrel
      ⟨fun h0 => hn.held.slot (.root t) h0, fun _ _ hx => hx.elim⟩
    rw [hr'] at hd2
    have hid2 : p2.nodes id' = some it' := hdrop.keep_level hit' (by rw [hr']; exact hne) (by rw [hb'])
    have hE2 : E2 (.root t) = 0 := by rw [hdrop.root, Function.update_self]
    have h3 := hh2.take (s := .root t) (c := id') (by simp) hE2 fun _ => ⟨it', hid2, hb'⟩
    have hshape : Whole sha (fun t => t < w.next) (p2.incrRef id') C' := by
      refine (hn.shape.shrink h3 fun j jt hj => hdrop.live (by rwa [incrRef_nodes] at hj)).unstale
        fun j jt b hj _ hk => ?_
      have h1 := (h3.link j jt hj not_false b).trans hk
      rw [Function.update_of_ne (by simp)] at h1
      rcases hdrop.slots (.kid j b) with e | ⟨e, -⟩
      · rw [Function.update_of_ne (by simp)] at e
        exact hn.fresh hdead _ (e.symm.trans h1)
      · exact hz' (h1.symm.trans e)
    refine ⟨⟨p2.incrRef id', Function.update w.trees t (some id'), w.next⟩, _, C', ?_, h3, hshape,
      ?_, ?_, hcontent id' rfl,
      h.next, ?_⟩
    · simp only [Diode.L2.insertItem, ht, hi, Option.bind_eq_bind, Option.bind_some, ne_eq, hne,
        not_false_eq_true, if_true, hd2]
    · intro u
      dsimp only
      by_cases e : u = t
      · subst e; rw [Function.update_self, Function.update_self, Option.getD_some]
      · have e' : Slot.root u ≠ .root t := fun h' => e (by cases h'; rfl)
        rw [Function.update_of_ne e', Function.update_of_ne e, hdrop.root, Function.update_of_ne e',
          hn.roots, h.roots]
    · intro u ru hu
      dsimp only at hu
      by_cases e : u = t
      · subst e
        rw [Function.update_self, Option.some.injEq] at hu
        rw [← hu]; exact hz'
      · rw [Function.update_of_ne e] at hu
        exact h.root_ne u ru hu
    · intro u hu
      have e : u ≠ t := fun e => absurd (h.lt_next ht) (by rw [← e]; exact Nat.not_lt.2 hu)
      show Function.update w.trees t _ u = none
      rw [Function.update_of_ne e]
      exact h.fresh u hu

/-- **`root_hash`.** -/
theorem rootHash (h : Refines sha w m E C) (ht : w.trees t = some r)
    (hs : collapseLive w.live FUEL w.pool r = true) :
    ∃ w' E', rootHash sha w t = some (w', canonicalRoot sha (C r)) ∧ Refines sha w' m E' C := by
  obtain ⟨-, it, hit, hb⟩ := h.root_node ht
  obtain ⟨p', E', hr, hu⟩ := updateMerkleHashCount_spec t h.held h.shape hit
    (by rw [hb]; exact fueled_FUEL _) hs
  obtain ⟨it', hit', hd, hb'⟩ := hu.node
  refine ⟨{ w with pool := p' }, E', ?_, h.of_updated hu⟩
  simp only [Diode.L2.rootHash, ht, hr, Option.bind_eq_bind, Option.bind_some,
    (hu.shape.hashes hit' hd).1, hb', hb]
  rfl

/-- **`get_proofs`.** -/
theorem getProofs (h : Refines sha w m E C) (ht : w.trees t = some r) (key : Bytes)
    (hs : collapseLive w.live FUEL w.pool r = true) :
    ∃ w' E', getProofs sha w t key = some (w', canonicalProof sha key (C r)) ∧
      Refines sha w' m E' C := by
  obtain ⟨-, it, hit, hb⟩ := h.root_node ht
  obtain ⟨p', E', hr, hu⟩ := updateMerkleHashCount_spec t h.held h.shape hit
    (by rw [hb]; exact fueled_FUEL _) hs
  obtain ⟨it', hit', hd, hb'⟩ := hu.node
  refine ⟨{ w with pool := p' }, E', ?_, h.of_updated hu⟩
  have hg := doGetProofs_spec w.live t key hu.held hu.shape hit' hd
    (by rw [hb', hb]; exact fueled_FUEL _)
  simp only [Diode.L2.getProofs, ht, hr, Option.bind_eq_bind, Option.bind_some, hg, hb', hb]
  rfl

/-- The copy constructor. -/
theorem copy (h : Refines sha w m E C) (ht : w.trees t = some r) :
    ∃ E', Refines sha ⟨w.pool.incrRef r, Function.update w.trees w.next (some r), w.next + 1⟩
      ⟨Function.update m.content m.next (some (C r)), m.next + 1⟩ E' C := by
  obtain ⟨-, it, hit, hb⟩ := h.root_node ht
  have h0 : E (.root w.next) = 0 := by rw [h.roots, h.fresh w.next (le_refl _)]; rfl
  have h1 := h.held.take (s := .root w.next) (c := r) (by simp) h0 fun _ => ⟨it, hit, hb⟩
  refine ⟨_, h1, ?_, ?_, ?_, ?_, ?_, ?_⟩
  · exact (h.shape.shrink h1 fun j jt hj => by rwa [incrRef_nodes] at hj).widen fun u hu =>
      Nat.lt_succ_of_lt hu
  · intro u
    dsimp only
    by_cases e : u = w.next
    · subst e; rw [Function.update_self, Function.update_self, Option.getD_some]
    · have e' : Slot.root u ≠ .root w.next := fun h' => e (by cases h'; rfl)
      rw [Function.update_of_ne e', Function.update_of_ne e, h.roots]
  · intro u ru hu
    dsimp only at hu
    by_cases e : u = w.next
    · subst e
      rw [Function.update_self, Option.some.injEq] at hu
      rw [← hu]; exact h.root_ne t r ht
    · rw [Function.update_of_ne e] at hu
      exact h.root_ne u ru hu
  · intro u
    dsimp only
    rw [h.next]
    by_cases e : u = w.next
    · subst e; rw [Function.update_self, Function.update_self, Option.map_some]
    · rw [Function.update_of_ne e, Function.update_of_ne e, h.maps]
  · show m.next + 1 = w.next + 1
    rw [h.next]
  · intro u hu
    have e : u ≠ w.next := by
      intro e; subst e; exact absurd hu (Nat.not_succ_le_self _)
    show Function.update w.trees w.next _ u = none
    rw [Function.update_of_ne e]
    exact h.fresh u (Nat.le_of_succ_le hu)

/-- The destructor. -/
theorem destroy (h : Refines sha w m E C) (ht : w.trees t = some r) :
    ∃ p' E', w.pool.decrRef FUEL r = some p' ∧
      Refines sha { w with pool := p', trees := Function.update w.trees t none }
        { m with content := Function.update m.content t none } E' C := by
  obtain ⟨hr, -⟩ := h.root_node ht
  have hrel := h.held.release (s := .root t) (by simp)
  obtain ⟨p', E', hd, hh, hdrop⟩ := decrRef_spec (show 0 < FUEL by decide)
    (fueled_FUEL ([] : List Bool).length) hrel
    ⟨fun h0 => h.held.slot (.root t) h0, fun _ _ hx => hx.elim⟩
  rw [hr] at hd
  refine ⟨p', E', hd, hh, h.shape.shrink hh fun j jt hj => hdrop.live hj, ?_, ?_, ?_, h.next, ?_⟩
  · intro u
    dsimp only
    by_cases e : u = t
    · subst e; rw [hdrop.root, Function.update_self, Function.update_self]; rfl
    · have e' : Slot.root u ≠ .root t := fun h' => e (by cases h'; rfl)
      rw [hdrop.root, Function.update_of_ne e', Function.update_of_ne e, h.roots]
  · intro u ru hu
    dsimp only at hu
    by_cases e : u = t
    · subst e
      rw [Function.update_self] at hu
      cases hu
    · rw [Function.update_of_ne e] at hu
      exact h.root_ne u ru hu
  · intro u
    dsimp only
    by_cases e : u = t
    · subst e; rw [Function.update_self, Function.update_self]; rfl
    · rw [Function.update_of_ne e, Function.update_of_ne e, h.maps]
  · intro u hu
    show Function.update w.trees t none u = none
    by_cases e : u = t
    · subst e; rw [Function.update_self]
    · rw [Function.update_of_ne e]; exact h.fresh u hu

end Refines

/-- **One call.** On a tree that exists a sound call returns what the tree's
map says, and the pool goes on to hold the maps. -/
theorem step_refines {w : World} {m : Maps} {E : Slot → ItemId} {C : ItemId → List Pair}
    (h : Refines sha w m E C) {op : Op}
    (ht : (w.trees op.tree).isSome = true) (hs : op.sound sha w m = true) :
    ∃ w' o m' o' E' C', step sha w op = some (w', o) ∧ m.step sha op = some (m', o') ∧ o.Agrees o' ∧
      Refines sha w' m' E' C' := by
  obtain ⟨r, hr⟩ := Option.isSome_iff_exists.1 ht
  have hm := h.maps_some hr
  cases op with
  | insertItem t key value =>
    dsimp only [Op.tree] at hr hm
    simp only [Op.sound, hm, Option.all_some, decide_eq_true_eq] at hs
    obtain ⟨w', E', C', h1, h2⟩ := h.insertItem hr hs
    exact ⟨w', .done, _, .done, E', C', by simp [step, h1], by simp only [Maps.step, Op.tree, hm]; rfl, rfl, h2⟩
  | getItem t key =>
    dsimp only [Op.tree] at hr hm
    obtain ⟨-, it, hit, hb⟩ := h.root_node hr
    obtain ⟨b, h1, h2⟩ := getBucket_spec h.held h.shape key hit (by rw [hb]; exact fueled_FUEL _)
    refine ⟨w, .value (Assoc.get b key), m, .value (Assoc.get (C r) key), E, C, ?_, ?_,
      congrArg _ h2, h⟩
    · simp only [step]; rw [hr]; simp [h1]
    · simp only [Maps.step, Op.tree, hm]; rfl
  | each t =>
    dsimp only [Op.tree] at hr hm
    obtain ⟨-, it, hit, hb⟩ := h.root_node hr
    obtain ⟨l, h1, h2⟩ := each_spec h.held h.shape hit (by rw [hb]; exact fueled_FUEL _)
    refine ⟨w, .pairs l, m, .pairs (C r), E, C, ?_, ?_, h2, h⟩
    · simp only [step]; rw [hr]; simp [h1]
    · simp only [Maps.step, Op.tree, hm]; rfl
  | size t =>
    dsimp only [Op.tree] at hr hm
    obtain ⟨-, it, hit, hb⟩ := h.root_node hr
    obtain ⟨l, h1, h2⟩ := each_spec h.held h.shape hit (by rw [hb]; exact fueled_FUEL _)
    refine ⟨w, .count l.length, m, .count (C r).length, E, C, ?_, ?_, congrArg _ h2.length_eq, h⟩
    · simp only [step]; rw [hr]; simp [h1]
    · simp only [Maps.step, Op.tree, hm]; rfl
  | rootHash t =>
    dsimp only [Op.tree] at hr hm
    simp only [Op.sound, hr, Option.all_some] at hs
    obtain ⟨w', E', h1, h2⟩ := h.rootHash hr hs
    refine ⟨w', .hash (canonicalRoot sha (C r)), m, .hash (canonicalRoot sha (C r)), E', C,
      ?_, ?_, rfl, h2⟩
    · simp [step, h1]
    · simp only [Maps.step, Op.tree, hm]; rfl
  | getProofs t key =>
    dsimp only [Op.tree] at hr hm
    simp only [Op.sound, hr, Option.all_some] at hs
    obtain ⟨w', E', h1, h2⟩ := h.getProofs hr key hs
    refine ⟨w', .proof (canonicalProof sha key (C r)), m, .proof (canonicalProof sha key (C r)), E',
      C, ?_, ?_, rfl, h2⟩
    · simp [step, h1]
    · simp only [Maps.step, Op.tree, hm]; rfl
  | copy t =>
    dsimp only [Op.tree] at hr hm
    obtain ⟨E', h1⟩ := h.copy hr
    refine ⟨_, .tree w.next, _, .tree m.next, E', C, ?_, ?_, congrArg _ h.next.symm, h1⟩
    · simp only [step]; rw [hr]; rfl
    · simp only [Maps.step, Op.tree, hm]; rfl
  | destroy t =>
    dsimp only [Op.tree] at hr hm
    obtain ⟨p', E', h1, h2⟩ := h.destroy hr
    refine ⟨_, .done, _, .done, E', C, ?_, ?_, rfl, h2⟩
    · simp only [step]; rw [hr]; simp [h1]
    · simp only [Maps.step, Op.tree, hm]; rfl

theorem run_refines : ∀ {ops : List Op} {w : World} {m : Maps} {E : Slot → ItemId}
    {C : ItemId → List Pair},
    Refines sha w m E C → soundRun sha w m ops = true →
    ∃ w' os m' os' E' C', run sha w ops = some (w', os) ∧ m.run sha ops = some (m', os') ∧
      List.Forall₂ Obs.Agrees os os' ∧ Refines sha w' m' E' C'
  | [], w, m, E, C, h, _ => ⟨w, [], m, [], E, C, rfl, rfl, .nil, h⟩
  | op :: ops, w, m, E, C, h, hs => by
    simp only [soundRun, Bool.and_eq_true] at hs
    obtain ⟨⟨ht, hop⟩, hrest⟩ := hs
    obtain ⟨w1, o, m1, o', E1, C1, h1, h2, hag, hr⟩ := step_refines h ht hop
    rw [h1, h2] at hrest
    obtain ⟨w2, os, m2, os', E2, C2, h3, h4, hag2, hr2⟩ := run_refines hr hrest
    exact ⟨w2, o :: os, m2, o' :: os', E2, C2,
      by simp [run, h1, h3], by simp [Maps.run, h2, h4], .cons hag hag2, hr2⟩

/-- **Trees that share nodes are independent maps.** In every run of calls on
existing trees that reaches no defect, every answer is the one of the map that
the tree would be on its own. -/
theorem shared_trees_independent (ops : List Op) (h : soundRun sha World.init Maps.init ops = true) :
    ∃ w os m os', run sha World.init ops = some (w, os) ∧ Maps.init.run sha ops = some (m, os') ∧
      List.Forall₂ Obs.Agrees os os' := by
  obtain ⟨E, C, h0⟩ := @refines_init sha
  obtain ⟨w, os, m, os', -, -, h1, h2, h3, -⟩ := run_refines h0 h
  exact ⟨w, os, m, os', h1, h2, h3⟩

/-- A 20-byte key. -/
def addrKey (i : Nat) : Bytes := be 20 i

theorem shared_trees_independent_copy :
    ∃ w os m os', run Sha256.sha256 World.init [.insertItem 0 (addrKey 1) 5, .copy 0, .insertItem 1
      (addrKey 1) 6,
        .getItem 0 (addrKey 1), .rootHash 1, .destroy 0, .getProofs 1 (addrKey 1)] = some (w, os) ∧
      Maps.init.run Sha256.sha256 [.insertItem 0 (addrKey 1) 5, .copy 0, .insertItem 1 (addrKey 1) 6,
        .getItem 0 (addrKey 1), .rootHash 1, .destroy 0, .getProofs 1 (addrKey 1)] = some (m, os') ∧
      List.Forall₂ Obs.Agrees os os' :=
  shared_trees_independent _ (by rw [Sha256.sha256_eq]; decide +kernel)

/-- Seventeen keys split the root of tree 0; a copy outlives it and loses one
key. The copy's root still names tree 0 as its maker. -/
def orphan : List Op :=
  (List.range 17).map (fun i => .insertItem 0 (addrKey i) 1) ++ [.copy 0, .destroy 0, .insertItem 1
    (addrKey 0) 0, .rootHash 1]

/-- Hashing the copy collapses its root through the destroyed tree. -/
theorem orphan_reads_destroyed_tree :
    ¬∀ ops : List Op, (Maps.init.run Sha256.sha256 ops).isSome = true → ∃ w os m os',
      run Sha256.sha256 World.init ops = some (w, os) ∧ Maps.init.run Sha256.sha256 ops =
        some (m, os') ∧
        List.Forall₂ Obs.Agrees os os' := by
  intro h
  have hnone : (run Sha256.sha256 World.init orphan).isNone = true := by
    rw [Sha256.sha256_eq]; decide +kernel
  obtain ⟨w, os, m, os', hrun, -⟩ := h orphan (by rw [Sha256.sha256_eq]; decide +kernel)
  rw [hrun] at hnone
  cases hnone

end
end Diode.L2
