import Diode.L2Trie.Exact
import Diode.L3State.Script

/-!
# The trees behind the resources

Elsewhere in `L3State` a trie is the map it holds. Here each `SharedState` has the
tree of c_src/merkletree.cpp that it owns: a tree of `L2Trie`, in an item pool that
it shares with the states it was copied from. The tree is copied when a cloned
resource is written and destroyed with its state, so a node may outlive the tree
that made it. When such a node collapses the source reads the destroyed tree
(c_src/merkletree.cpp:379), and the call has no outcome here.

* `Holds`: the pools hold the tries of the resources.
* `call_refines`: a call that is `fit` sees what the map says, and the pools go on
  to hold the tries.
* `fit_of_call`: a call that comes back was fit.
-/
namespace Diode.L3
open Diode.Core Diode.L1.Ext

/-- What a routine does to a tree of its own. -/
def tempOps (slots : List Pair) (hash : Bool) : List L2.Op :=
  slots.map (fun s => .insertItem 0 s.1 s.2) ++ if hash then [.rootHash 0] else []

namespace Resources

/-- The state of a resource. -/
def found (r : Resources) (mt : Nat) : Option (Nat × SharedState) :=
  (r.mts mt).bind fun x => (r.states x.shared_state).map fun s => (x.shared_state, s)

section
variable (sha : Bytes → Word)

/-- What a call on a resource tells, by the map of its trie. -/
def seen (r : Resources) : Call → L2.Obs
  | .rootHash mt => .hash ((r.tree mt).rootHash sha)
  | .getProofs mt key => .proof ((r.tree mt).getProofs sha key)
  | .temp slots true => .hash ((Tree.ofSlots slots).rootHash sha)
  | _ => .done

def told (r : Resources) : List Call → List L2.Obs
  | [] => []
  | c :: l => r.seen sha c :: (r.call c).told l

end

variable {r : Resources} {mt i : Nat} {x : Merkletree} {s : SharedState}

theorem found_some (h : r.found mt = some (i, s)) :
    ∃ x, r.mts mt = some x ∧ x.shared_state = i ∧ r.states i = some s := by
  obtain ⟨x, hx, h⟩ := Option.bind_eq_some_iff.1 h
  obtain ⟨u, hu, h⟩ := Option.map_eq_some_iff.1 h
  cases h
  exact ⟨x, hx, rfl, hu⟩

theorem found_of (hx : r.mts mt = some x) (hs : r.states x.shared_state = some s) :
    r.found mt = some (x.shared_state, s) := by
  rw [found, hx, Option.bind_some, hs, Option.map_some]

theorem tree_found (h : r.found mt = some (i, s)) : r.tree mt = s.tree := by
  obtain ⟨x, hx, rfl, hs⟩ := found_some h
  exact tree_eq hx hs

theorem tree_absent (h : r.found mt = none) : r.tree mt = Tree.empty := by
  unfold found at h
  unfold tree
  cases hx : r.mts mt with
  | none => rfl
  | some x =>
    rw [hx, Option.bind_some, Option.map_eq_none_iff] at h
    rw [Option.bind_some, h]
    rfl

/-- A resource without a state is left alone. -/
theorem modifyTree_absent (h : r.found mt = none) (f : Tree → Tree) : r.modifyTree mt f = r := by
  unfold found at h
  unfold modifyTree
  cases hx : r.mts mt with
  | none => rfl
  | some x =>
    rw [hx, Option.bind_some, Option.map_eq_none_iff] at h
    dsimp only
    rw [h]

theorem modifyTree_found (h : r.found mt = some (i, s)) (f : Tree → Tree) :
    r.modifyTree mt f = { r with states := Function.update r.states i (some { s with tree := f s.tree }) } := by
  obtain ⟨x, hx, rfl, hs⟩ := found_some h
  unfold modifyTree
  rw [hx]
  dsimp only
  rw [hs]

theorem found_modifyTree (h : r.found mt = some (i, s)) (f : Tree → Tree) :
    (r.modifyTree mt f).found mt = some (i, { s with tree := f s.tree }) := by
  rw [modifyTree_found h]
  obtain ⟨x, hx, rfl, _⟩ := found_some h
  exact found_of (r := { r with states := _ }) hx (Function.update_self ..)

theorem makeWriteable_absent (h : r.found mt = none) : r.makeWriteable mt = r := by
  unfold found at h
  unfold makeWriteable
  cases hx : r.mts mt with
  | none => rfl
  | some x =>
    rw [hx, Option.bind_some, Option.map_eq_none_iff] at h
    dsimp only
    rw [h]

theorem makeWriteable_found (h : r.found mt = some (i, s)) (hx : r.mts mt = some x) : r.makeWriteable mt =
    if 0 < s.has_clone then
      { states := Function.update (Function.update r.states i
          (some { s with has_clone := s.has_clone - 1 })) r.nextState (some ⟨0, s.tree⟩)
        mts := Function.update r.mts mt (some { x with shared_state := r.nextState })
        nextState := r.nextState + 1
        nextMt := r.nextMt }
    else r := by
  obtain ⟨y, hy, rfl, hs⟩ := found_some h
  obtain rfl := Option.some.inj (hx.symm.trans hy)
  unfold makeWriteable
  rw [hx]
  dsimp only
  rw [hs]

/-- A resource that is made writeable keeps its tree. -/
theorem found_makeWriteable (h : r.found mt = some (i, s)) :
    ∃ i' s', (r.makeWriteable mt).found mt = some (i', s') ∧ s'.tree = s.tree := by
  obtain ⟨x, hx, -, -⟩ := found_some h
  rw [makeWriteable_found h hx]
  split
  · exact ⟨_, _, found_of (Function.update_self ..) (Function.update_self ..), rfl⟩
  · exact ⟨i, s, h, rfl⟩

theorem modifyTree_comp (f g : Tree → Tree) : (r.modifyTree mt f).modifyTree mt g = r.modifyTree mt (g ∘ f) := by
  cases h : r.found mt with
  | none => rw [modifyTree_absent h, modifyTree_absent h, modifyTree_absent h]
  | some p =>
    rw [modifyTree_found (found_modifyTree h f), modifyTree_found h, modifyTree_found h]
    dsimp only
    rw [Function.update_idem]
    rfl

end Resources

/-- The item pools, and for each `SharedState` the pool and the tree it has there. -/
structure Pools where
  world : Nat → L2.World
  place : Nat → Nat × L2.TreeId

namespace Pools
open Resources

def init : Pools := ⟨fun _ => L2.World.init, fun _ => (0, 0)⟩

section
variable (sha : Bytes → Word)

/-- A call on a tree of the pool `k`. -/
def on (P : Pools) (k : Nat) (op : L2.Op) : Option (Pools × L2.Obs) :=
  (L2.step sha (P.world k) op).map fun x => ({ P with world := Function.update P.world k x.1 }, x.2)

/-- A call on the tree of a resource; one without a tree reads as an empty one. -/
def onTree (P : Pools) (r : Resources) (mt : Nat) (op : L2.TreeId → L2.Op) (absent : L2.Obs) :
    Option (Pools × L2.Obs) :=
  match r.found mt with
  | none => some (P, absent)
  | some (i, _) => P.on sha (P.place i).1 (op (P.place i).2)

/-- `make_writeable_locked`: the copy of the tree is for the next state.
mirrors c_src/nif.cpp:692-704 -/
def makeWriteable (P : Pools) (r : Resources) (mt : Nat) : Option Pools :=
  match r.found mt with
  | none => some P
  | some (i, s) =>
    if 0 < s.has_clone then
      match P.on sha (P.place i).1 (.copy (P.place i).2) with
      | some (P, .tree t) => some { P with place := Function.update P.place r.nextState ((P.place i).1, t) }
      | _ => none
    else some P

def fill (P : Pools) (r : Resources) (mt : Nat) : List Pair → Option Pools
  | [] => some P
  | s :: l => do
    let (P, _) ← P.onTree sha r mt (fun t => .insertItem t s.1 s.2) .done
    P.fill (r.modifyTree mt fun t => t.insertItem s.1 s.2) mt l

/-- A call on a resource. A new state has a pool of its own; a tree goes with the
last resource on its state.
mirrors c_src/nif.cpp:1211-1217, 400-410, 377-389, 647-669, 946-955 -/
def call (P : Pools) (r : Resources) : Call → Option (Pools × L2.Obs)
  | .alloc => some (⟨Function.update P.world r.nextState L2.World.init,
      Function.update P.place r.nextState (r.nextState, 0)⟩, .done)
  | .clone _ | .keep _ => some (P, .done)
  | .release mt =>
    if (r.mts mt).all (fun x => x.refs ≤ 1) && (r.found mt).all (fun x => x.2.has_clone = 0) then
      P.onTree sha r mt .destroy .done
    else some (P, .done)
  | .insert mt key value => do
    let P ← P.makeWriteable sha r mt
    P.onTree sha (r.makeWriteable mt) mt (fun t => .insertItem t key value) .done
  | .fill mt slots => (P.fill sha r mt slots).map fun P => (P, .done)
  | .rootHash mt => P.onTree sha r mt .rootHash (.hash (Tree.empty.rootHash sha))
  | .getProofs mt key => P.onTree sha r mt (.getProofs · key) (.proof (Tree.empty.getProofs sha key))
  | .temp slots hash => (L2.run sha L2.World.init (tempOps slots hash)).map fun x => (P, x.2.getLastD .done)

/-- No 17 keys that share the first 128 bits of their hash come together. -/
def sparseFill (t : Tree) : List Pair → Bool
  | [] => true
  | s :: l => decide (L2.Sparse sha (t.insertItem s.1 s.2).pairs) && sparseFill (t.insertItem s.1 s.2) l

/-- Hashing the tree of a state collapses no node that a destroyed tree made. -/
def hashable (P : Pools) (i : Nat) : Bool :=
  ((P.world (P.place i).1).trees (P.place i).2).all fun root =>
    L2.collapseLive (P.world (P.place i).1).live L2.FUEL (P.world (P.place i).1).pool root

/-- The call meets no defect of the tries. -/
def fit (P : Pools) (r : Resources) : Call → Bool
  | .insert mt key value => (r.found mt).all fun x => L2.Sparse sha (x.2.tree.insertItem key value).pairs
  | .fill mt slots => (r.found mt).all fun x => sparseFill sha x.2.tree slots
  | .rootHash mt | .getProofs mt _ => (r.found mt).all fun x => P.hashable x.1
  | .temp slots hash => L2.soundRun sha L2.World.init L2.Maps.init (tempOps slots hash)
  | _ => true

def calls (P : Pools) (r : Resources) : List Call → Option (Pools × List L2.Obs)
  | [] => some (P, [])
  | c :: l => do
    let (P, o) ← P.call sha r c
    let (P, os) ← P.calls (r.call c) l
    some (P, o :: os)

/-- Every call of the list is fit where it is made. -/
def fits (P : Pools) (r : Resources) : List Call → Bool
  | [] => true
  | c :: l => P.fit sha r c && (P.call sha r c).all fun x => x.1.fits (r.call c) l

end

/-! ## The simulation -/

/-- The pools hold the tries of `r`, each in a tree of its own. -/
structure Holds (sha : Bytes → Word) (M : Nat → L2.Maps) (r : Resources) (P : Pools) : Prop where
  pool : ∀ i s, r.states i = some s →
    ∃ E C, L2.Refines sha (P.world (P.place i).1) (M (P.place i).1) E C
  tree : ∀ i s, r.states i = some s → (M (P.place i).1).content (P.place i).2 = some s.tree.pairs
  apart : ∀ i j s u, r.states i = some s → r.states j = some u → P.place i = P.place j → i = j
  below : ∀ i s, r.states i = some s → (P.place i).1 < r.nextState

variable {sha : Bytes → Word} {M : Nat → L2.Maps} {r r' : Resources} {P P' : Pools} {mt i k : Nat}
    {s : SharedState}

/-- An entry of an updated table is the new one or one that was there. -/
theorem update_some {f : Nat → Option SharedState} {v : Option SharedState} {j : Nat} {u : SharedState}
    (h : Function.update f i v j = some u) : j = i ∧ v = some u ∨ j ≠ i ∧ f j = some u := by
  by_cases e : j = i
  · subst e
    rw [Function.update_self] at h
    exact .inl ⟨rfl, h⟩
  · rw [Function.update_of_ne e] at h
    exact .inr ⟨e, h⟩

/-- A table whose entry `i` got another counter. -/
theorem recount_some {f : Nat → Option SharedState} {n j : Nat} {u : SharedState} (hs : f i = some s)
    (h : Function.update f i (some { s with has_clone := n }) j = some u) : ∃ v, f j = some v ∧ v.tree = u.tree := by
  rcases update_some h with ⟨rfl, he⟩ | ⟨_, hu⟩
  · obtain rfl := Option.some.inj he
    exact ⟨s, hs, rfl⟩
  · exact ⟨u, hu, rfl⟩

theorem holds_init (sha : Bytes → Word) : Holds sha (fun _ => L2.Maps.init) Resources.init init :=
  ⟨nofun, nofun, nofun, nofun⟩

namespace Holds

/-- Counters are not seen here. -/
theorem same (h : Holds sha M r P) (hn : r.nextState ≤ r'.nextState)
    (hj : ∀ j u', r'.states j = some u' → ∃ u, r.states j = some u ∧ u.tree = u'.tree) : Holds sha M r' P where
  pool j u' hu' := by
    obtain ⟨u, hu, _⟩ := hj j u' hu'
    exact h.pool j u hu
  tree j u' hu' := by
    obtain ⟨u, hu, ht⟩ := hj j u' hu'
    rw [h.tree j u hu, ht]
  apart i j s' u' hs' hu' := by
    obtain ⟨s, hs, _⟩ := hj i s' hs'
    obtain ⟨u, hu, _⟩ := hj j u' hu'
    exact h.apart i j s u hs hu
  below j u' hu' := by
    obtain ⟨u, hu, _⟩ := hj j u' hu'
    exact Nat.lt_of_lt_of_le (h.below j u hu) hn

/-- One pool changes. -/
theorem change (h : Holds sha M r P) {w : L2.World} {m : L2.Maps} (hR : ∃ E C, L2.Refines sha w m E C)
    {place : Nat → Nat × L2.TreeId}
    (hj : ∀ j u', r'.states j = some u' →
      ((place j).1 = k ∧ m.content (place j).2 = some u'.tree.pairs) ∨
        ((place j).1 ≠ k ∧ place j = P.place j ∧ ∃ u, r.states j = some u ∧ u.tree = u'.tree))
    (apart : ∀ i j s u, r'.states i = some s → r'.states j = some u → place i = place j → i = j)
    (below : ∀ i s, r'.states i = some s → (place i).1 < r'.nextState) :
    Holds sha (Function.update M k m) r' ⟨Function.update P.world k w, place⟩ where
  pool j u' hu' := by
    dsimp only
    rcases hj j u' hu' with ⟨hk, _⟩ | ⟨hk, hp, u, hu, _⟩
    · rw [hk, Function.update_self, Function.update_self]
      exact hR
    · rw [Function.update_of_ne hk, Function.update_of_ne hk, hp]
      exact h.pool j u hu
  tree j u' hu' := by
    dsimp only
    rcases hj j u' hu' with ⟨hk, hc⟩ | ⟨hk, hp, u, hu, ht⟩
    · rw [hk, Function.update_self, hc]
    · rw [Function.update_of_ne hk, hp, h.tree j u hu, ht]
  apart := apart
  below := below

/-- A sound call on the tree of a state. -/
theorem step (h : Holds sha M r P) (hs : r.states i = some s) (op : L2.Op) (ht : op.tree = (P.place i).2)
    (hf : op.sound sha (P.world (P.place i).1) (M (P.place i).1) = true) :
    ∃ w o m o', P.on sha (P.place i).1 op = some ({ P with world := Function.update P.world (P.place i).1 w }, o) ∧
      (M (P.place i).1).step sha op = some (m, o') ∧ o.Agrees o' ∧ ∃ E C, L2.Refines sha w m E C := by
  obtain ⟨E, C, hR⟩ := h.pool i s hs
  have htree : ((P.world (P.place i).1).trees op.tree).isSome = true := by
    have hc := h.tree i s hs
    rw [hR.maps, ← ht] at hc
    exact Option.isSome_of_eq_some (Option.map_eq_some_iff.1 hc).choose_spec.1
  obtain ⟨w, o, m, o', E', C', h1, h2, h3, h4⟩ := L2.step_refines hR htree hf
  exact ⟨w, o, m, o', by rw [on, h1, Option.map_some], h2, h3, E', C', h4⟩

/-- The other trees of the pool of `i` are not `i`'s. -/
theorem other (h : Holds sha M r P) (hs : r.states i = some s) {j : Nat} {u : SharedState}
    (hu : r.states j = some u) (hne : j ≠ i) (hk : (P.place j).1 = (P.place i).1) :
    (P.place j).2 ≠ (P.place i).2 := fun e => hne (h.apart j i u s hu hs (Prod.ext hk e))

/-- A hash shows in the nodes only. -/
theorem hash (h : Holds sha M r P) (hs : r.states i = some s) (hf : P.hashable i = true) :
    (∃ P', P.on sha (P.place i).1 (.rootHash (P.place i).2) = some (P', .hash (s.tree.rootHash sha)) ∧
      Holds sha M r P') ∧
    ∀ key, ∃ P', P.on sha (P.place i).1 (.getProofs (P.place i).2 key) = some (P', .proof (s.tree.getProofs sha key)) ∧
      Holds sha M r P' := by
  have hkeep : ∀ w, (∃ E C, L2.Refines sha w (M (P.place i).1) E C) →
      Holds sha M r { P with world := Function.update P.world (P.place i).1 w } := by
    intro w hR
    have hw : Holds sha (Function.update M (P.place i).1 (M (P.place i).1)) r
        ⟨Function.update P.world (P.place i).1 w, P.place⟩ := h.change hR (fun j u hu => ?_) h.apart h.below
    · rwa [Function.update_eq_self] at hw
    · by_cases hk : (P.place j).1 = (P.place i).1
      · exact .inl ⟨hk, hk ▸ h.tree j u hu⟩
      · exact .inr ⟨hk, rfl, u, hu, rfl⟩
  have hc := h.tree i s hs
  refine ⟨?_, fun key => ?_⟩
  · obtain ⟨w, o, m, o', h1, h2, h3, hR⟩ := h.step hs (.rootHash (P.place i).2) rfl hf
    rw [Tree.maps_rootHash hc, Option.some.injEq, Prod.mk.injEq] at h2
    obtain ⟨rfl, rfl⟩ := h2
    obtain rfl : o = _ := by cases o <;> exact h3
    exact ⟨_, h1, hkeep w hR⟩
  · obtain ⟨w, o, m, o', h1, h2, h3, hR⟩ := h.step hs (.getProofs (P.place i).2 key) rfl hf
    rw [Tree.maps_getProofs hc, Option.some.injEq, Prod.mk.injEq] at h2
    obtain ⟨rfl, rfl⟩ := h2
    obtain rfl : o = _ := by cases o <;> exact h3
    exact ⟨_, h1, hkeep w hR⟩

/-- A write in place. -/
theorem insert (h : Holds sha M r P) (hm : r.found mt = some (i, s)) {key : Bytes} {value : Word}
    (hf : L2.Sparse sha (s.tree.insertItem key value).pairs) :
    ∃ P', P.on sha (P.place i).1 (.insertItem (P.place i).2 key value) = some (P', .done) ∧ P'.place = P.place ∧
      ∃ M', Holds sha M' (r.modifyTree mt fun t => t.insertItem key value) P' := by
  obtain ⟨x, -, -, hs⟩ := found_some hm
  have hc := h.tree i s hs
  have hsound : (L2.Op.insertItem (P.place i).2 key value).sound sha (P.world (P.place i).1) (M (P.place i).1) = true := by
    rw [L2.Op.sound, hc, Option.all_some, ← Tree.pairs_insertItem]
    exact decide_eq_true hf
  obtain ⟨w, o, m, o', h1, h2, h3, hR⟩ := h.step hs (.insertItem (P.place i).2 key value) rfl hsound
  rw [Tree.maps_insertItem hc, Option.some.injEq, Prod.mk.injEq] at h2
  obtain ⟨rfl, rfl⟩ := h2
  obtain rfl : o = _ := by cases o <;> exact h3
  refine ⟨_, h1, rfl, ?_⟩
  rw [modifyTree_found hm]
  have hlive : ∀ j u', Function.update r.states i (some { s with tree := s.tree.insertItem key value }) j = some u' →
      ∃ u, r.states j = some u := by
    intro j u' hu'
    rcases update_some hu' with ⟨rfl, _⟩ | ⟨_, hu⟩
    · exact ⟨s, hs⟩
    · exact ⟨u', hu⟩
  refine ⟨_, h.change hR (fun j u' hu' => ?_) (fun j l u v hu hv => ?_) fun j u hu => ?_⟩
  · rcases update_some hu' with ⟨rfl, he⟩ | ⟨hne, hu⟩
    · obtain rfl := Option.some.inj he
      exact .inl ⟨rfl, Function.update_self ..⟩
    · by_cases hk : (P.place j).1 = (P.place i).1
      · exact .inl ⟨hk, (Function.update_of_ne (h.other hs hu hne hk) _ _).trans (by rw [← hk, h.tree j u' hu])⟩
      · exact .inr ⟨hk, rfl, u', hu, rfl⟩
  · obtain ⟨u', hu'⟩ := hlive j u hu
    obtain ⟨v', hv'⟩ := hlive l v hv
    exact h.apart j l u' v' hu' hv'
  · obtain ⟨u', hu'⟩ := hlive j u hu
    exact h.below j u' hu'

/-- A new state in a new pool. -/
theorem alloc (h : Holds sha M r P) : ∃ P', P.call sha r .alloc = some (P', .done) ∧
    ∃ M', Holds sha M' r.alloc.2 P' := by
  refine ⟨_, rfl, _, h.change L2.refines_init (fun j u' hu' => ?_) (fun j l u v hu hv he => ?_) fun j u hu => ?_⟩
  · rcases update_some hu' with ⟨rfl, ht⟩ | ⟨hne, hu⟩
    · obtain rfl := Option.some.inj ht
      refine .inl ⟨by rw [Function.update_self], ?_⟩
      rw [Function.update_self]
      rfl
    · rw [Function.update_of_ne hne]
      exact .inr ⟨Nat.ne_of_lt (h.below j u' hu), rfl, u', hu, rfl⟩
  · have hfresh : ∀ j u, r.states j = some u → P.place j ≠ (r.nextState, 0) := fun j u hu e => by
      have := h.below j u hu
      rw [e] at this
      exact absurd this (lt_irrefl _)
    rcases update_some hu with ⟨rfl, _⟩ | ⟨hj, hu⟩ <;> rcases update_some hv with ⟨rfl, _⟩ | ⟨hl, hv⟩
    · rfl
    · rw [Function.update_self, Function.update_of_ne hl] at he
      exact absurd he.symm (hfresh l v hv)
    · rw [Function.update_self, Function.update_of_ne hj] at he
      exact absurd he (hfresh j u hu)
    · rw [Function.update_of_ne hj, Function.update_of_ne hl] at he
      exact h.apart j l u v hu hv he
  · rcases update_some hu with ⟨rfl, _⟩ | ⟨hne, hu⟩
    · rw [Function.update_self]
      exact Nat.lt_succ_self _
    · rw [Function.update_of_ne hne]
      exact Nat.lt_succ_of_lt (h.below j u hu)

/-- A tree goes with its state. -/
theorem destroy (h : Holds sha M r P) (hm : r.found mt = some (i, s)) (hz : s.has_clone = 0) :
    ∃ P', P.on sha (P.place i).1 (.destroy (P.place i).2) = some (P', .done) ∧
      ∃ M', Holds sha M' (r.releaseShared mt) P' := by
  obtain ⟨x, hx, rfl, hs⟩ := found_some hm
  have hc := h.tree _ s hs
  obtain ⟨w, o, m, o', h1, h2, h3, hR⟩ := h.step hs (.destroy (P.place x.shared_state).2) rfl rfl
  rw [Tree.maps_destroy hc, Option.some.injEq, Prod.mk.injEq] at h2
  obtain ⟨rfl, rfl⟩ := h2
  obtain rfl : o = _ := by cases o <;> exact h3
  have hr : r.releaseShared mt = { r with states := Function.update r.states x.shared_state none
                                          mts := Function.update r.mts mt none } := by
    unfold releaseShared
    rw [hx]
    dsimp only
    rw [hs]
    dsimp only
    rw [if_pos hz]
  have hback : ∀ j u, Function.update r.states x.shared_state none j = some u →
      j ≠ x.shared_state ∧ r.states j = some u := by
    intro j u hu
    rcases update_some hu with ⟨_, hu⟩ | hu
    · nomatch hu
    · exact hu
  rw [hr]
  refine ⟨_, h1, _, h.change hR (fun j u hu => ?_) (fun j l u v hu hv => ?_) fun j u hu => ?_⟩
  · obtain ⟨hne, hu⟩ := hback j u hu
    by_cases hk : (P.place j).1 = (P.place x.shared_state).1
    · exact .inl ⟨hk, (Function.update_of_ne (h.other hs hu hne hk) _ _).trans (by rw [← hk, h.tree j u hu])⟩
    · exact .inr ⟨hk, rfl, u, hu, rfl⟩
  · exact h.apart j l u v (hback j u hu).2 (hback l v hv).2
  · exact h.below j u (hback j u hu).2

/-- A resource that shares its state gets one of its own, in the same pool. -/
theorem makeWriteable (h : Holds sha M r P) (hk : Counted r) (mt : Nat) :
    ∃ P', P.makeWriteable sha r mt = some P' ∧ ∃ M', Holds sha M' (r.makeWriteable mt) P' := by
  unfold Pools.makeWriteable
  cases hm : r.found mt with
  | none =>
    refine ⟨P, rfl, M, ?_⟩
    rwa [makeWriteable_absent hm]
  | some p =>
    obtain ⟨i, s⟩ := p
    obtain ⟨x, hx, rfl, hs⟩ := found_some hm
    have hw := makeWriteable_found hm hx
    dsimp only
    by_cases hc : 0 < s.has_clone
    · have hct := h.tree _ s hs
      obtain ⟨w, o, m, o', h1, h2, h3, hR⟩ := h.step hs (.copy (P.place x.shared_state).2) rfl rfl
      rw [Tree.maps_copy hct, Option.some.injEq, Prod.mk.injEq] at h2
      obtain ⟨rfl, rfl⟩ := h2
      obtain rfl : o = _ := by cases o <;> exact h3
      rw [if_pos hc] at hw
      rw [if_pos hc, h1, hw]
      have hi : x.shared_state ≠ r.nextState := by
        have := hk.state_lt hs
        omega
      have hback : ∀ j u', Function.update (Function.update r.states x.shared_state
          (some { s with has_clone := s.has_clone - 1 })) r.nextState (some ⟨0, s.tree⟩) j = some u' →
          (j = r.nextState ∧ u'.tree = s.tree) ∨ (j ≠ r.nextState ∧ ∃ u, r.states j = some u ∧ u.tree = u'.tree) := by
        intro j u' hu'
        rcases update_some hu' with ⟨rfl, he⟩ | ⟨hne, hu'⟩
        · obtain rfl := Option.some.inj he
          exact .inl ⟨rfl, rfl⟩
        · exact .inr ⟨hne, recount_some hs hu'⟩
      -- the copy is no tree that was there
      have hnew : ∀ j u, r.states j = some u → P.place j ≠
          ((P.place x.shared_state).1, (M (P.place x.shared_state).1).next) := by
        intro j u hu e
        obtain ⟨E, C, hRj⟩ := h.pool j u hu
        have ht := h.tree j u hu
        rw [e] at ht hRj
        rw [hRj.maps, hRj.fresh _ (le_of_eq hRj.next.symm)] at ht
        nomatch ht
      refine ⟨_, rfl, _, h.change hR (fun j u' hu' => ?_) (fun j l u v hu hv he => ?_) fun j u hu => ?_⟩
      · rcases hback j u' hu' with ⟨rfl, ht⟩ | ⟨hne, u, hu, ht⟩
        · rw [Function.update_self]
          exact .inl ⟨rfl, (Function.update_self ..).trans (by rw [ht])⟩
        · rw [Function.update_of_ne hne]
          by_cases hk : (P.place j).1 = (P.place x.shared_state).1
          · have hn : (P.place j).2 ≠ (M (P.place x.shared_state).1).next := fun e => hnew j u hu (Prod.ext hk e)
            exact .inl ⟨hk, (Function.update_of_ne hn _ _).trans (by rw [← hk, h.tree j u hu, ht])⟩
          · exact .inr ⟨hk, rfl, u, hu, ht⟩
      · rcases hback j u hu with ⟨rfl, _⟩ | ⟨hj, u', hu', _⟩ <;> rcases hback l v hv with ⟨rfl, _⟩ | ⟨hl, v', hv', _⟩
        · rfl
        · rw [Function.update_self, Function.update_of_ne hl] at he
          exact absurd he.symm (hnew l v' hv')
        · rw [Function.update_self, Function.update_of_ne hj] at he
          exact absurd he (hnew j u' hu')
        · rw [Function.update_of_ne hj, Function.update_of_ne hl] at he
          exact h.apart j l u' v' hu' hv' he
      · rcases hback j u hu with ⟨rfl, _⟩ | ⟨hne, u', hu', _⟩
        · rw [Function.update_self]
          exact Nat.lt_succ_of_lt (h.below _ s hs)
        · rw [Function.update_of_ne hne]
          exact Nat.lt_succ_of_lt (h.below j u' hu')
    · rw [if_neg hc] at hw
      rw [if_neg hc, hw]
      exact ⟨P, rfl, M, h⟩

theorem fill : ∀ {slots : List Pair} {r : Resources} {P : Pools} {M : Nat → L2.Maps} {s : SharedState},
    Holds sha M r P → r.found mt = some (i, s) → sparseFill sha s.tree slots = true →
    ∃ P', P.fill sha r mt slots = some P' ∧ ∃ M', Holds sha M' (r.modifyTree mt fun t => t.fill slots) P'
  | [], r, P, M, s, h, hm, _ => by
    refine ⟨P, rfl, M, ?_⟩
    obtain ⟨_, -, -, hs⟩ := found_some hm
    rw [modifyTree_found hm]
    show Holds sha M { r with states := Function.update r.states i (some s) } P
    rwa [← hs, Function.update_eq_self]
  | p :: l, r, P, M, s, h, hm, hf => by
    rw [sparseFill, Bool.and_eq_true, decide_eq_true_eq] at hf
    obtain ⟨P1, h1, -, M1, hh⟩ := h.insert hm hf.1
    obtain ⟨P2, h2, hh2⟩ := fill hh (found_modifyTree hm _) hf.2
    refine ⟨P2, ?_, ?_⟩
    · rw [Pools.fill, onTree, hm]
      dsimp only
      rw [h1]
      exact h2
    · rw [modifyTree_comp] at hh2
      exact hh2

theorem clone (h : Holds sha M r P) (mt : Nat) : Holds sha M (r.clone mt).2 P := by
  unfold Resources.clone
  cases hx : r.mts mt with
  | none => exact h
  | some x =>
    dsimp only
    cases hs : r.states x.shared_state with
    | none => exact h
    | some s =>
      exact h.same (le_refl _) fun j u' hu' => recount_some hs hu'

theorem keep (h : Holds sha M r P) (mt : Nat) : Holds sha M (r.keep mt) P := by
  obtain ⟨hs, -, hn, -⟩ := Held.keep_states r mt
  refine h.same (le_of_eq hn.symm) fun j u' hu' => ⟨u', ?_, rfl⟩
  rwa [hs] at hu'

theorem release (h : Holds sha M r P) (mt : Nat) :
    ∃ P', P.call sha r (.release mt) = some (P', .done) ∧ ∃ M', Holds sha M' (r.release mt) P' := by
  rw [Pools.call, Resources.release]
  cases hx : r.mts mt with
  | none =>
    have hm : r.found mt = none := by rw [found, hx, Option.bind_none]
    simp only [onTree, hm]
    exact ⟨P, by simp, M, h⟩
  | some x =>
    have hrefs : ∀ n, Holds sha M { r with mts := Function.update r.mts mt (some { x with refs := n }) } P := fun n =>
      h.same (le_refl _) fun j u hu => ⟨u, hu, rfl⟩
    cases hs : r.states x.shared_state with
    | none =>
      have hm : r.found mt = none := by rw [found, hx, Option.bind_some, hs, Option.map_none]
      simp only [onTree, hm]
      refine ⟨P, by simp, M, ?_⟩
      split
      · unfold releaseShared
        rw [hx]
        dsimp only
        rw [hs]
        exact h
      · exact hrefs _
    | some s =>
      have hm := found_of hx hs
      rw [hm]
      simp only [Option.all_some, Bool.and_eq_true, decide_eq_true_eq]
      by_cases hr : x.refs ≤ 1
      · by_cases hz : s.has_clone = 0
        · rw [if_pos ⟨hr, hz⟩, if_pos hr, onTree, hm]
          exact h.destroy hm hz
        · rw [if_neg fun e => hz e.2, if_pos hr]
          refine ⟨P, rfl, M, h.same ?_ fun j u' hu' => ?_⟩
          · unfold releaseShared
            rw [hx]
            dsimp only
            rw [hs]
          · unfold releaseShared at hu'
            rw [hx] at hu'
            dsimp only at hu'
            rw [hs] at hu'
            dsimp only at hu'
            rw [if_neg hz] at hu'
            exact recount_some hs hu'
      · rw [if_neg fun e => hr e.1, if_neg hr]
        exact ⟨P, rfl, M, hrefs _⟩

end Holds

theorem fill_absent (hm : r.found mt = none) : ∀ slots : List Pair, P.fill sha r mt slots = some P
  | [] => rfl
  | p :: l => by
    rw [fill, onTree, hm]
    show P.fill sha (r.modifyTree mt _) mt l = _
    rw [modifyTree_absent hm]
    exact fill_absent hm l

/-! ### A tree of its own -/

theorem getLastD_agrees {o o' : L2.Obs} {l l' : List L2.Obs} (h : List.Forall₂ L2.Obs.Agrees l l')
    (ho : o.Agrees o') : (l.getLastD o).Agrees (l'.getLastD o') := by
  induction h generalizing o o' with
  | nil => exact ho
  | cons hx _ ih =>
    rw [List.getLastD_cons, List.getLastD_cons]
    exact ih hx

theorem maps_temp (hash : Bool) : ∀ (slots : List Pair) {c : Tree} {m : L2.Maps}, m.content 0 = some c.pairs →
    ∃ m' os, m.run sha (tempOps slots hash) = some (m', os) ∧
      os.getLastD .done = if hash then .hash ((c.fill slots).rootHash sha) else .done
  | [], c, m, hc => by
    cases hash with
    | false => exact ⟨m, [], rfl, rfl⟩
    | true =>
      refine ⟨m, [.hash (c.rootHash sha)], ?_, rfl⟩
      show (m.step sha (.rootHash 0)).bind _ = _
      rw [Tree.maps_rootHash hc]
      rfl
  | s :: l, c, m, hc => by
    have hc' : Function.update m.content 0 (some (c.insertItem s.1 s.2).pairs) 0 = some (c.insertItem s.1 s.2).pairs :=
      Function.update_self ..
    obtain ⟨m', os, hr, ho⟩ := maps_temp hash l (c := c.insertItem s.1 s.2)
      (m := ⟨Function.update m.content 0 (some (c.insertItem s.1 s.2).pairs), m.next⟩) hc'
    refine ⟨m', .done :: os, ?_, ?_⟩
    · show (m.step sha (.insertItem 0 s.1 s.2)).bind _ = _
      rw [Tree.maps_insertItem hc, Option.bind_some]
      show (L2.Maps.run sha _ (tempOps l hash)).bind _ = _
      rw [hr]
      rfl
    · rw [List.getLastD_cons]
      exact ho

theorem temp_refines {slots : List Pair} {hash : Bool} (hf : P.fit sha r (.temp slots hash) = true) :
    P.call sha r (.temp slots hash) = some (P, r.seen sha (.temp slots hash)) := by
  obtain ⟨E, C, hR⟩ := @L2.refines_init sha
  obtain ⟨w, os, m, os', -, -, h1, h2, h3, -⟩ := L2.run_refines hR hf
  obtain ⟨m', os'', h4, h5⟩ := @maps_temp sha hash slots Tree.empty L2.Maps.init rfl
  obtain ⟨-, rfl⟩ := Prod.mk.inj (Option.some.inj (h2.symm.trans h4))
  have hag := getLastD_agrees h3 (show L2.Obs.Agrees .done .done from rfl)
  rw [h5] at hag
  have ho : os.getLastD .done = r.seen sha (.temp slots hash) := by
    cases hash with
    | false => generalize os.getLastD .done = o at hag ⊢; cases o <;> exact hag
    | true => generalize os.getLastD .done = o at hag ⊢; cases o <;> exact hag
  rw [call, h1, Option.map_some, ho]

/-- **One call.** A call that is fit tells what the map of the trie says. -/
theorem call_refines (h : Holds sha M r P) (hk : Counted r) {c : Call} (hf : P.fit sha r c = true) :
    ∃ P', P.call sha r c = some (P', r.seen sha c) ∧ ∃ M', Holds sha M' (r.call c) P' := by
  cases c with
  | alloc => exact h.alloc
  | clone mt => exact ⟨P, rfl, M, h.clone mt⟩
  | keep mt => exact ⟨P, rfl, M, h.keep mt⟩
  | release mt => exact h.release mt
  | insert mt key value =>
    obtain ⟨P1, h1, M1, hh1⟩ := h.makeWriteable hk mt
    show ∃ P', ((P.makeWriteable sha r mt).bind fun P =>
        P.onTree sha (r.makeWriteable mt) mt (fun t => .insertItem t key value) .done) = some (P', .done) ∧
      ∃ M', Holds sha M' ((r.makeWriteable mt).modifyTree mt fun t => t.insertItem key value) P'
    rw [h1, Option.bind_some, onTree]
    cases hm : r.found mt with
    | none =>
      rw [makeWriteable_absent hm] at hh1 ⊢
      rw [hm, modifyTree_absent hm]
      exact ⟨P1, rfl, M1, hh1⟩
    | some p =>
      obtain ⟨i', s', hm', ht⟩ := found_makeWriteable hm
      rw [fit, hm, Option.all_some, decide_eq_true_eq, ← ht] at hf
      rw [hm']
      obtain ⟨P', h2, -, hh2⟩ := hh1.insert hm' hf
      exact ⟨P', h2, hh2⟩
  | fill mt slots =>
    show ∃ P', ((P.fill sha r mt slots).map fun P => (P, L2.Obs.done)) = some (P', .done) ∧
      ∃ M', Holds sha M' (r.modifyTree mt fun t => t.fill slots) P'
    cases hm : r.found mt with
    | none =>
      rw [fill_absent hm, modifyTree_absent hm]
      exact ⟨P, rfl, M, h⟩
    | some p =>
      rw [fit, hm, Option.all_some] at hf
      obtain ⟨P', h1, hh⟩ := h.fill hm hf
      rw [h1]
      exact ⟨P', rfl, hh⟩
  | rootHash mt =>
    show ∃ P', P.onTree sha r mt .rootHash _ = some (P', .hash ((r.tree mt).rootHash sha)) ∧ ∃ M', Holds sha M' r P'
    unfold onTree
    cases hm : r.found mt with
    | none =>
      rw [tree_absent hm]
      exact ⟨P, rfl, M, h⟩
    | some p =>
      rw [fit, hm, Option.all_some] at hf
      obtain ⟨x, -, -, hs⟩ := found_some hm
      obtain ⟨P', h1, hh⟩ := (h.hash hs hf).1
      rw [tree_found hm]
      exact ⟨P', h1, M, hh⟩
  | getProofs mt key =>
    show ∃ P', P.onTree sha r mt (.getProofs · key) _ = some (P', .proof ((r.tree mt).getProofs sha key)) ∧
      ∃ M', Holds sha M' r P'
    unfold onTree
    cases hm : r.found mt with
    | none =>
      rw [tree_absent hm]
      exact ⟨P, rfl, M, h⟩
    | some p =>
      rw [fit, hm, Option.all_some] at hf
      obtain ⟨x, -, -, hs⟩ := found_some hm
      obtain ⟨P', h1, hh⟩ := (h.hash hs hf).2 key
      rw [tree_found hm]
      exact ⟨P', h1, M, hh⟩
  | temp slots hash => exact ⟨P, temp_refines hf, M, h⟩

/-- A call on a tree that comes back was sound. -/
theorem Holds.sound_of_on (h : Holds sha M r P) (hs : r.states i = some s) {op : L2.Op} {x : Pools × L2.Obs}
    (ho : P.on sha (P.place i).1 op = some x) :
    op.sound sha (P.world (P.place i).1) (M (P.place i).1) = true := by
  obtain ⟨E, C, hR⟩ := h.pool i s hs
  obtain ⟨y, hy, -⟩ := Option.map_eq_some_iff.1 ho
  exact (L2.sound_of_step hR hy).2

/-- A write in place that comes back met no crowd. -/
theorem Holds.sparse_of_insert (h : Holds sha M r P) (hm : r.found mt = some (i, s)) {key : Bytes} {value : Word}
    {x : Pools × L2.Obs} (ho : P.on sha (P.place i).1 (.insertItem (P.place i).2 key value) = some x) :
    L2.Sparse sha (s.tree.insertItem key value).pairs := by
  obtain ⟨y, -, -, hs⟩ := found_some hm
  have := h.sound_of_on hs ho
  rw [L2.Op.sound, h.tree i s hs, Option.all_some, decide_eq_true_eq] at this
  rwa [Tree.pairs_insertItem]

theorem Holds.sparse_of_fill : ∀ {slots : List Pair} {r : Resources} {P P' : Pools} {M : Nat → L2.Maps}
    {s : SharedState}, Holds sha M r P → r.found mt = some (i, s) → P.fill sha r mt slots = some P' →
      sparseFill sha s.tree slots = true
  | [], _, _, _, _, _, _, _, _ => rfl
  | p :: l, r, P, P', M, s, h, hm, hr => by
    rw [Pools.fill, onTree, hm] at hr
    obtain ⟨x, hx, hr⟩ := Option.bind_eq_some_iff.1 hr
    have hsp := h.sparse_of_insert hm hx
    obtain ⟨P1, h1, -, M1, hh⟩ := h.insert hm hsp
    obtain rfl := Option.some.inj (hx.symm.trans h1)
    rw [sparseFill, Bool.and_eq_true, decide_eq_true_eq]
    exact ⟨hsp, hh.sparse_of_fill (found_modifyTree hm _) hr⟩

/-- **A call that comes back** was fit. -/
theorem fit_of_call (h : Holds sha M r P) (hk : Counted r) {c : Call} {x : Pools × L2.Obs}
    (hc : P.call sha r c = some x) : P.fit sha r c = true := by
  cases c with
  | alloc | clone | keep | release => rfl
  | insert mt key value =>
    cases hm : r.found mt with
    | none => rw [fit, hm, Option.all_none]
    | some p =>
      obtain ⟨P1, h1, M1, hh1⟩ := h.makeWriteable hk mt
      obtain ⟨i', s', hm', ht⟩ := found_makeWriteable hm
      have ho : ((P.makeWriteable sha r mt).bind fun P =>
        P.onTree sha (r.makeWriteable mt) mt (fun t => .insertItem t key value) .done) = some x := hc
      rw [h1, Option.bind_some, onTree, hm'] at ho
      rw [fit, hm, Option.all_some, decide_eq_true_eq, ← ht]
      exact hh1.sparse_of_insert hm' ho
  | fill mt slots =>
    cases hm : r.found mt with
    | none => rw [fit, hm, Option.all_none]
    | some p =>
      obtain ⟨P1, h1, -⟩ := Option.map_eq_some_iff.1 hc
      rw [fit, hm, Option.all_some]
      exact h.sparse_of_fill hm h1
  | rootHash mt =>
    cases hm : r.found mt with
    | none => rw [fit, hm, Option.all_none]
    | some p =>
      obtain ⟨y, -, -, hs⟩ := found_some hm
      change P.onTree sha r mt .rootHash _ = some x at hc
      rw [onTree, hm] at hc
      rw [fit, hm, Option.all_some]
      exact h.sound_of_on hs hc
  | getProofs mt key =>
    cases hm : r.found mt with
    | none => rw [fit, hm, Option.all_none]
    | some p =>
      obtain ⟨y, -, -, hs⟩ := found_some hm
      change P.onTree sha r mt (.getProofs · key) _ = some x at hc
      rw [onTree, hm] at hc
      rw [fit, hm, Option.all_some]
      exact h.sound_of_on hs hc
  | temp slots hash =>
    obtain ⟨E, C, hR⟩ := @L2.refines_init sha
    obtain ⟨y, hy, -⟩ := Option.map_eq_some_iff.1 hc
    exact L2.sound_of_run hR hy

/-! ## Sequences of calls -/

theorem calls_refines : ∀ {l : List Call} {r : Resources} {P : Pools} {M : Nat → L2.Maps}, Holds sha M r P →
    Counted r → P.fits sha r l = true →
    ∃ P', P.calls sha r l = some (P', r.told sha l) ∧ ∃ M', Holds sha M' (r.calls l) P'
  | [], _, P, M, h, _, _ => ⟨P, rfl, M, h⟩
  | c :: l, r, P, M, h, hk, hf => by
    rw [fits, Bool.and_eq_true] at hf
    obtain ⟨P1, h1, M1, hh1⟩ := call_refines h hk hf.1
    have hrest := hf.2
    rw [h1, Option.all_some] at hrest
    obtain ⟨P2, h2, hh2⟩ := calls_refines hh1 (hk.call c) hrest
    refine ⟨P2, ?_, hh2⟩
    simp only [calls, h1, h2, Option.bind_eq_bind, Option.bind_some, Resources.told]

theorem fits_of_calls : ∀ {l : List Call} {r : Resources} {P : Pools} {M : Nat → L2.Maps} {x : Pools × List L2.Obs},
    Holds sha M r P → Counted r → P.calls sha r l = some x → P.fits sha r l = true
  | [], _, _, _, _, _, _, _ => rfl
  | c :: l, r, P, M, x, h, hk, hc => by
    obtain ⟨⟨P1, o⟩, h1, hc⟩ := Option.bind_eq_some_iff.1 hc
    obtain ⟨y, h2, -⟩ := Option.bind_eq_some_iff.1 hc
    have hf := fit_of_call h hk h1
    obtain ⟨P', h1', M1, hh1⟩ := call_refines h hk hf
    obtain ⟨rfl, -⟩ := Prod.mk.inj (Option.some.inj (h1.symm.trans h1'))
    rw [fits, hf, h1, Option.all_some, Bool.true_and]
    exact fits_of_calls hh1 (hk.call c) h2

/-! ## Reading -/

/-- A lookup in the tree of a resource finds what the map holds. -/
theorem Holds.getItem (h : Holds sha M r P) (mt : Nat) (key : Bytes) :
    ∃ P', P.onTree sha r mt (.getItem · key) (.value none) =
      some (P', .value (if (r.tree mt).read key = 0 then none else some ((r.tree mt).read key))) := by
  unfold onTree
  cases hm : r.found mt with
  | none =>
    rw [tree_absent hm, Tree.read_empty, if_pos rfl]
    exact ⟨P, rfl⟩
  | some p =>
    obtain ⟨x, -, -, hs⟩ := found_some hm
    obtain ⟨w, o, m, o', h1, h2, h3, -⟩ := h.step hs (.getItem (P.place p.1).2 key) rfl rfl
    rw [Tree.maps_getItem (h.tree p.1 p.2 hs), Option.some.injEq, Prod.mk.injEq] at h2
    obtain ⟨rfl, rfl⟩ := h2
    obtain rfl : o = _ := by cases o <;> exact h3
    rw [tree_found hm]
    exact ⟨_, h1⟩

theorem Holds.each (h : Holds sha M r P) (mt : Nat) :
    ∃ P' l, P.onTree sha r mt .each (.pairs []) = some (P', .pairs l) ∧ l.Perm (r.tree mt).pairs := by
  unfold onTree
  cases hm : r.found mt with
  | none =>
    rw [tree_absent hm]
    exact ⟨P, [], rfl, .refl []⟩
  | some p =>
    obtain ⟨x, -, -, hs⟩ := found_some hm
    obtain ⟨w, o, m, o', h1, h2, h3, -⟩ := h.step hs (.each (P.place p.1).2) rfl rfl
    rw [Tree.maps_each (h.tree p.1 p.2 hs), Option.some.injEq, Prod.mk.injEq] at h2
    obtain ⟨rfl, rfl⟩ := h2
    rw [tree_found hm]
    cases o with
    | pairs l => exact ⟨_, l, h1, h3⟩
    | _ => nomatch h3

end Pools
end Diode.L3
