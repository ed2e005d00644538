import Diode.Core.Refs
import Diode.L3State.Tree

/-!
# Merkletree resources and their shared states

Model of the `SharedState` / `merkletree` pair of c_src/nif.cpp:56-87 and the
routines that allocate, clone, write and release it. A `merkletree` is a
reference-counted resource; several of them may point to one `SharedState`,
whose `has_clone` is the number of pointers beyond the first, and a write goes
to a private copy while that number is positive.

* `Held` is the invariant: reference counts count the owners, `has_clone + 1`
  counts the resources on a state, and what an owner names is allocated.
* The `Held` lemmas: under it no operation on one resource changes the tree of
  another one.

Pointers are natural numbers, handed out in order and never used again. Not
modelled: mutexes and the statistics counters.
-/
namespace Diode.L3
open Diode.Core Diode.L1.Ext

/-- mirrors c_src/nif.cpp:56-82 -/
structure SharedState where
  has_clone : Nat
  tree : Tree

/-- A `merkletree` resource with its reference count.
mirrors c_src/nif.cpp:84-86 -/
structure Merkletree where
  refs : Nat
  shared_state : Nat

structure Resources where
  states : Nat → Option SharedState
  mts : Nat → Option Merkletree
  nextState : Nat
  nextMt : Nat

namespace Resources

def init : Resources := ⟨fun _ => none, fun _ => none, 0, 0⟩

/-- The tree behind a resource. -/
def tree (r : Resources) (mt : Nat) : Tree :=
  ((r.mts mt).bind fun x => r.states x.shared_state).elim Tree.empty SharedState.tree

/-- `alloc_merkletree_resource`: one reference, which the caller owns.
mirrors c_src/nif.cpp:1211-1217 -/
def alloc (r : Resources) : Nat × Resources :=
  (r.nextMt,
    { states := Function.update r.states r.nextState (some ⟨0, Tree.empty⟩)
      mts := Function.update r.mts r.nextMt (some ⟨1, r.nextState⟩)
      nextState := r.nextState + 1
      nextMt := r.nextMt + 1 })

/-- `clone_merkletree_locked`.
mirrors c_src/nif.cpp:400-410 -/
def clone (r : Resources) (mt : Nat) : Nat × Resources :=
  match r.mts mt with
  | none => (mt, r)
  | some x =>
    match r.states x.shared_state with
    | none => (mt, r)
    | some s =>
      (r.nextMt,
        { states := Function.update r.states x.shared_state (some { s with has_clone := s.has_clone + 1 })
          mts := Function.update r.mts r.nextMt (some ⟨1, x.shared_state⟩)
          nextState := r.nextState
          nextMt := r.nextMt + 1 })

/-- `keep_storage_in_map`.
mirrors c_src/nif.cpp:377-382 -/
def keep (r : Resources) (mt : Nat) : Resources :=
  match r.mts mt with
  | none => r
  | some x => { r with mts := Function.update r.mts mt (some { x with refs := x.refs + 1 }) }

/-- `release_merkletree_shared`, which the destructor of a resource runs.
mirrors c_src/nif.cpp:647-669 -/
def releaseShared (r : Resources) (mt : Nat) : Resources :=
  match r.mts mt with
  | none => r
  | some x =>
    match r.states x.shared_state with
    | none => r
    | some s =>
      { r with
        states := Function.update r.states x.shared_state
          (if s.has_clone = 0 then none else some { s with has_clone := s.has_clone - 1 })
        mts := Function.update r.mts mt none }

/-- `release_storage_from_map`.
mirrors c_src/nif.cpp:384-389 -/
def release (r : Resources) (mt : Nat) : Resources :=
  match r.mts mt with
  | none => r
  | some x =>
    if x.refs ≤ 1 then r.releaseShared mt
    else { r with mts := Function.update r.mts mt (some { x with refs := x.refs - 1 }) }

/-- `make_writeable_locked`.
mirrors c_src/nif.cpp:692-704 -/
def makeWriteable (r : Resources) (mt : Nat) : Resources :=
  match r.mts mt with
  | none => r
  | some x =>
    match r.states x.shared_state with
    | none => r
    | some s =>
      if 0 < s.has_clone then
        { states := Function.update (Function.update r.states x.shared_state
            (some { s with has_clone := s.has_clone - 1 })) r.nextState (some ⟨0, s.tree⟩)
          mts := Function.update r.mts mt (some { x with shared_state := r.nextState })
          nextState := r.nextState + 1
          nextMt := r.nextMt }
      else r

/-- A change of `mt->shared_state->tree` in place. -/
def modifyTree (r : Resources) (mt : Nat) (f : Tree → Tree) : Resources :=
  match r.mts mt with
  | none => r
  | some x =>
    match r.states x.shared_state with
    | none => r
    | some s => { r with states := Function.update r.states x.shared_state (some { s with tree := f s.tree }) }

/-- `make_writeable_locked` followed by `insert_item`.
mirrors c_src/nif.cpp:946-955, 1609-1620 -/
def insertItem (r : Resources) (mt : Nat) (key : Bytes) (value : Word) : Resources :=
  (r.makeWriteable mt).modifyTree mt fun t => t.insertItem key value

/-- The state a resource points to. -/
def stateOf (r : Resources) (mt : Nat) : Option Nat := (r.mts mt).map Merkletree.shared_state

/-! ## The invariant -/

/-- `own` names the resource each owner holds a reference to. -/
structure Held {O : Type} (r : Resources) (own : O → Option Nat) : Prop where
  live : ∀ o m, own o = some m → ∃ x, r.mts m = some x
  refs : ∀ m x, r.mts m = some x → Counts own (some m) x.refs
  state : ∀ m x, r.mts m = some x → ∃ s, r.states x.shared_state = some s
  clones : ∀ i s, r.states i = some s → Counts r.stateOf (some i) (s.has_clone + 1)
  freshMt : ∀ m, r.nextMt ≤ m → r.mts m = none
  freshState : ∀ i, r.nextState ≤ i → r.states i = none

/-- No other resource points to the state of `mt`. -/
def Sole (r : Resources) (mt : Nat) : Prop := ∀ m i, r.stateOf mt = some i → r.stateOf m = some i → m = mt

variable {O : Type} {r : Resources} {own : O → Option Nat}

theorem tree_eq {mt : Nat} {x : Merkletree} {s : SharedState} (hx : r.mts mt = some x)
    (hs : r.states x.shared_state = some s) : r.tree mt = s.tree := by
  unfold tree
  rw [hx, Option.bind_some, hs, Option.elim_some]

theorem held_init (own : O → Option Nat) (h : ∀ o, own o = none) : Held init own where
  live := fun o m hm => by rw [h o] at hm; cases hm
  refs := fun _ _ hx => by cases hx
  state := fun _ _ hx => by cases hx
  clones := fun _ _ hs => by cases hs
  freshMt := fun _ _ => rfl
  freshState := fun _ _ => rfl

namespace Held

theorem mt_lt (h : Held r own) {m : Nat} {x : Merkletree} (hx : r.mts m = some x) : m < r.nextMt := by
  by_contra hn
  rw [h.freshMt m (Nat.le_of_not_lt hn)] at hx
  cases hx

theorem own_lt (h : Held r own) {o : O} {m : Nat} (ho : own o = some m) : m < r.nextMt := by
  obtain ⟨x, hx⟩ := h.live o m ho
  exact h.mt_lt hx

theorem state_lt (h : Held r own) {i : Nat} {s : SharedState} (hs : r.states i = some s) :
    i < r.nextState := by
  by_contra hn
  rw [h.freshState i (Nat.le_of_not_lt hn)] at hs
  cases hs

theorem stateOf_ne_next (h : Held r own) (m : Nat) : r.stateOf m ≠ some r.nextState := by
  intro e
  obtain ⟨x, hx, hi⟩ := Option.map_eq_some_iff.1 e
  obtain ⟨s, hs⟩ := h.state m x hx
  have := h.state_lt hs
  omega

theorem stateOf_next (h : Held r own) : r.stateOf r.nextMt = none := by
  unfold stateOf
  rw [h.freshMt _ (le_refl _), Option.map_none]

variable [DecidableEq O]

theorem stateOf_update {r : Resources} {f : Nat → Option SharedState} {i n : Nat} {m : Nat}
    {x : Option Merkletree} :
    (⟨f, Function.update r.mts m x, i, n⟩ : Resources).stateOf =
      Function.update r.stateOf m (x.map Merkletree.shared_state) := by
  funext m'
  unfold stateOf
  by_cases e : m' = m
  · subst e; simp
  · simp [e]

/-- **`alloc_merkletree_resource`.** -/
theorem alloc (h : Held r own) {o : O} (ho : own o = none) :
    Held r.alloc.2 (Function.update own o (some r.alloc.1)) ∧ r.alloc.2.tree r.alloc.1 = Tree.empty ∧
      ∀ m, m ≠ r.alloc.1 → r.alloc.2.tree m = r.tree m := by
  have hfree : ∀ o, own o ≠ some r.nextMt := fun o e => absurd (h.own_lt e) (lt_irrefl _)
  refine ⟨⟨?_, ?_, ?_, ?_, ?_, ?_⟩, ?_, ?_⟩
  · intro o' m hm
    dsimp only [Resources.alloc] at hm ⊢
    by_cases e : m = r.nextMt
    · subst e; exact ⟨_, Function.update_self ..⟩
    · rw [Function.update_of_ne e]
      by_cases e' : o' = o
      · subst e'
        rw [Function.update_self, Option.some.injEq] at hm
        exact absurd hm.symm e
      · rw [Function.update_of_ne e'] at hm
        exact h.live o' m hm
  · intro m x hx
    dsimp only [Resources.alloc] at hx ⊢
    by_cases e : m = r.nextMt
    · subst e
      rw [Function.update_self, Option.some.injEq] at hx
      subst hx
      exact (Counts.zero_iff.2 hfree).gain (hfree o)
    · rw [Function.update_of_ne e] at hx
      exact (h.refs m x hx).keep (by rw [ho]; nofun) fun e' => e (Option.some.inj e').symm
  · intro m x hx
    dsimp only [Resources.alloc] at hx ⊢
    by_cases e : m = r.nextMt
    · subst e
      rw [Function.update_self, Option.some.injEq] at hx
      subst hx
      exact ⟨_, Function.update_self ..⟩
    · rw [Function.update_of_ne e] at hx
      obtain ⟨s, hs⟩ := h.state m x hx
      exact ⟨s, by rw [Function.update_of_ne (by have := h.state_lt hs; omega), hs]⟩
  · intro i s hs
    dsimp only [Resources.alloc] at hs ⊢
    rw [stateOf_update]
    by_cases e : i = r.nextState
    · subst e
      rw [Function.update_self, Option.some.injEq] at hs
      subst hs
      exact (Counts.zero_iff.2 h.stateOf_ne_next).gain (h.stateOf_ne_next _)
    · rw [Function.update_of_ne e] at hs
      exact (h.clones i s hs).keep (by rw [h.stateOf_next]; nofun) fun e' => e (Option.some.inj e').symm
  · intro m hm
    dsimp only [Resources.alloc] at hm ⊢
    rw [Function.update_of_ne (by omega), h.freshMt m (by omega)]
  · intro i hi
    dsimp only [Resources.alloc] at hi ⊢
    rw [Function.update_of_ne (by omega), h.freshState i (by omega)]
  · unfold tree Resources.alloc
    dsimp only
    rw [Function.update_self, Option.bind_some, Function.update_self, Option.elim_some]
  · intro m hm
    unfold tree
    dsimp only [Resources.alloc] at hm ⊢
    rw [Function.update_of_ne hm]
    cases hx : r.mts m with
    | none => rfl
    | some x =>
      obtain ⟨s, hs⟩ := h.state m x hx
      rw [Option.bind_some, Option.bind_some, Function.update_of_ne (by have := h.state_lt hs; omega)]

/-- A state whose counter is written keeps its tree. -/
theorem tree_of_update {states : Nat → Option SharedState} {k i : Nat} {s t s' : SharedState}
    (hs : states k = some s) (ht : t.tree = s.tree) (hs' : states i = some s') :
    ∃ s'', Function.update states k (some t) i = some s'' ∧ s''.tree = s'.tree := by
  by_cases e : i = k
  · subst e
    obtain rfl : s = s' := Option.some.inj (hs.symm.trans hs')
    exact ⟨t, Function.update_self .., ht⟩
  · exact ⟨s', by rw [Function.update_of_ne e, hs'], rfl⟩

/-- **`clone_merkletree_locked`.** -/
theorem clone (h : Held r own) {o' : O} {mt : Nat} (hm : own o' = some mt) {o : O} (ho : own o = none) :
    (r.clone mt).1 = r.nextMt ∧ (r.clone mt).2.nextMt = r.nextMt + 1 ∧
      Held (r.clone mt).2 (Function.update own o (some r.nextMt)) ∧
      (r.clone mt).2.tree r.nextMt = r.tree mt ∧ ∀ m, m ≠ r.nextMt → (r.clone mt).2.tree m = r.tree m := by
  obtain ⟨x, hx⟩ := h.live o' mt hm
  obtain ⟨s, hs⟩ := h.state mt x hx
  have hfree : ∀ o, own o ≠ some r.nextMt := fun o e => absurd (h.own_lt e) (lt_irrefl _)
  have hc : r.clone mt = (r.nextMt,
      { states := Function.update r.states x.shared_state (some { s with has_clone := s.has_clone + 1 })
        mts := Function.update r.mts r.nextMt (some ⟨1, x.shared_state⟩)
        nextState := r.nextState
        nextMt := r.nextMt + 1 }) := by
    unfold Resources.clone
    rw [hx]; dsimp only; rw [hs]
  rw [hc]
  dsimp only
  have hst : ∀ i s', r.states i = some s' → ∃ s'',
      Function.update r.states x.shared_state (some { s with has_clone := s.has_clone + 1 })
        i = some s'' ∧
        s''.tree = s'.tree := by
    exact fun i s' => tree_of_update hs rfl
  refine ⟨rfl, rfl, ⟨?_, ?_, ?_, ?_, ?_, ?_⟩, ?_, ?_⟩
  · intro o'' m hm
    dsimp only
    by_cases e : m = r.nextMt
    · subst e; exact ⟨_, Function.update_self ..⟩
    · rw [Function.update_of_ne e]
      by_cases e' : o'' = o
      · subst e'
        rw [Function.update_self, Option.some.injEq] at hm
        exact absurd hm.symm e
      · rw [Function.update_of_ne e'] at hm
        exact h.live o'' m hm
  · intro m y hy
    dsimp only at hy
    by_cases e : m = r.nextMt
    · subst e
      rw [Function.update_self, Option.some.injEq] at hy
      subst hy
      exact (Counts.zero_iff.2 hfree).gain (hfree o)
    · rw [Function.update_of_ne e] at hy
      exact (h.refs m y hy).keep (by rw [ho]; nofun) fun e' => e (Option.some.inj e').symm
  · intro m y hy
    dsimp only at hy ⊢
    by_cases e : m = r.nextMt
    · subst e
      rw [Function.update_self, Option.some.injEq] at hy
      subst hy
      exact ⟨_, Function.update_self ..⟩
    · rw [Function.update_of_ne e] at hy
      obtain ⟨s', hs'⟩ := h.state m y hy
      obtain ⟨s'', hs'', -⟩ := hst _ s' hs'
      exact ⟨s'', hs''⟩
  · intro i s' hs'
    dsimp only at hs'
    rw [stateOf_update]
    by_cases e : i = x.shared_state
    · subst e
      rw [Function.update_self, Option.some.injEq] at hs'
      subst hs'
      exact (h.clones _ s hs).gain (by rw [h.stateOf_next]; nofun)
    · rw [Function.update_of_ne e] at hs'
      exact (h.clones i s' hs').keep (by rw [h.stateOf_next]; nofun) fun e' =>
        e (Option.some.inj e').symm
  · intro m hm
    dsimp only at hm ⊢
    rw [Function.update_of_ne (by omega), h.freshMt m (by omega)]
  · intro i hi
    dsimp only at hi ⊢
    rw [Function.update_of_ne (by have := h.state_lt hs; omega), h.freshState i hi]
  · rw [tree_eq hx hs]
    unfold tree
    dsimp only
    rw [Function.update_self, Option.bind_some, Function.update_self, Option.elim_some]
  · intro m hm
    unfold tree
    dsimp only
    rw [Function.update_of_ne hm]
    cases hy : r.mts m with
    | none => rfl
    | some y =>
      obtain ⟨s', hs'⟩ := h.state m y hy
      obtain ⟨s'', hs'', ht⟩ := hst _ s' hs'
      rw [Option.bind_some, Option.bind_some, hs', hs'', Option.elim_some, Option.elim_some, ht]

theorem keep_states (r : Resources) (mt : Nat) : (r.keep mt).states = r.states ∧
    (r.keep mt).nextMt = r.nextMt ∧
    (r.keep mt).nextState = r.nextState ∧ (r.keep mt).stateOf = r.stateOf := by
  unfold keep
  cases hx : r.mts mt with
  | none => exact ⟨rfl, rfl, rfl, rfl⟩
  | some x =>
    refine ⟨rfl, rfl, rfl, ?_⟩
    rw [stateOf_update]
    funext m
    by_cases e : m = mt
    · subst e
      rw [Function.update_self, Option.map_some, stateOf, hx, Option.map_some]
    · rw [Function.update_of_ne e]

/-- A tree depends on the state of its resource only. -/
theorem tree_of_stateOf (r : Resources) (mt : Nat) :
    r.tree mt = ((r.stateOf mt).bind r.states).elim Tree.empty SharedState.tree := by
  unfold tree stateOf
  cases r.mts mt <;> rfl

/-- **`keep_storage_in_map`.** -/
theorem keep (h : Held r own) {o' : O} {mt : Nat} (hm : own o' = some mt) {o : O} (ho : own o = none) :
    Held (r.keep mt) (Function.update own o (some mt)) ∧ ∀ m, (r.keep mt).tree m = r.tree m := by
  obtain ⟨hs, hn, hns, hso⟩ := keep_states r mt
  obtain ⟨x, hx⟩ := h.live o' mt hm
  have hk : (r.keep mt).mts = Function.update r.mts mt (some { x with refs := x.refs + 1 }) := by
    unfold Resources.keep
    rw [hx]
  have hlive : ∀ m y, (r.keep mt).mts m = some y → ∃ y', r.mts m = some y' ∧
    y.shared_state = y'.shared_state := by
    intro m y hy
    rw [hk] at hy
    by_cases e : m = mt
    · subst e
      rw [Function.update_self, Option.some.injEq] at hy
      exact ⟨x, hx, by rw [← hy]⟩
    · rw [Function.update_of_ne e] at hy
      exact ⟨y, hy, rfl⟩
  refine ⟨⟨?_, ?_, ?_, ?_, ?_, ?_⟩, ?_⟩
  · intro o'' m hm'
    rw [hk]
    by_cases e : m = mt
    · subst e; exact ⟨_, Function.update_self ..⟩
    · rw [Function.update_of_ne e]
      by_cases e' : o'' = o
      · subst e'
        rw [Function.update_self, Option.some.injEq] at hm'
        exact absurd hm'.symm e
      · rw [Function.update_of_ne e'] at hm'
        exact h.live o'' m hm'
  · intro m y hy
    rw [hk] at hy
    by_cases e : m = mt
    · subst e
      rw [Function.update_self, Option.some.injEq] at hy
      subst hy
      exact (h.refs m x hx).gain (by rw [ho]; nofun)
    · rw [Function.update_of_ne e] at hy
      exact (h.refs m y hy).keep (by rw [ho]; nofun) fun e' => e (Option.some.inj e').symm
  · intro m y hy
    obtain ⟨y', hy', e⟩ := hlive m y hy
    rw [hs, e]
    exact h.state m y' hy'
  · intro i s hi
    rw [hs] at hi
    rw [hso]
    exact h.clones i s hi
  · intro m hm'
    rw [hn] at hm'
    cases hy : (r.keep mt).mts m with
    | none => rfl
    | some y =>
      obtain ⟨y', hy', -⟩ := hlive m y hy
      rw [h.freshMt m hm'] at hy'
      cases hy'
  · intro i hi
    rw [hns] at hi
    rw [hs]
    exact h.freshState i hi
  · intro m
    rw [tree_of_stateOf, tree_of_stateOf, hso, hs]

/-- **`release_storage_from_map`.** -/
theorem release (h : Held r own) {o : O} {mt : Nat} (hm : own o = some mt) :
    Held (r.release mt) (Function.update own o none) ∧ (r.release mt).nextMt = r.nextMt ∧
      ∀ o' m, o' ≠ o → own o' = some m → (r.release mt).tree m = r.tree m := by
  obtain ⟨x, hx⟩ := h.live o mt hm
  obtain ⟨s, hs⟩ := h.state mt x hx
  have hcount := h.refs mt x hx
  have hpos := hcount.pos hm
  by_cases hr : x.refs ≤ 1
  · have hrel : r.release mt = { r with
        states := Function.update r.states x.shared_state
          (if s.has_clone = 0 then none else some { s with has_clone := s.has_clone - 1 })
        mts := Function.update r.mts mt none } := by
      unfold Resources.release releaseShared
      rw [hx]; dsimp only; rw [if_pos hr, hs]
    have hown : ∀ o' m, o' ≠ o → own o' = some m → m ≠ mt := fun o' m ho' hm' e =>
      ho' (hcount.eq_of_le_one hr (e ▸ hm') hm)
    -- another resource on the same state is one that `has_clone` counts
    have hshare : ∀ m y, m ≠ mt → r.mts m = some y → y.shared_state = x.shared_state →
      0 < s.has_clone := by
      intro m y hne hy e
      have h1 : r.stateOf m = some x.shared_state := by rw [stateOf, hy, Option.map_some, e]
      have h2 : r.stateOf mt = some x.shared_state := by rw [stateOf, hx, Option.map_some]
      have := (h.clones _ s hs).two_le hne h1 h2
      omega
    rw [hrel]
    refine ⟨⟨?_, ?_, ?_, ?_, ?_, ?_⟩, rfl, ?_⟩
    · intro o' m hm'
      dsimp only
      by_cases e : o' = o
      · rw [e, Function.update_self] at hm'; cases hm'
      · rw [Function.update_of_ne e] at hm'
        rw [Function.update_of_ne (hown o' m e hm')]
        exact h.live o' m hm'
    · intro m y hy
      dsimp only at hy
      by_cases e : m = mt
      · rw [e, Function.update_self] at hy; cases hy
      · rw [Function.update_of_ne e] at hy
        exact (h.refs m y hy).keep (by rw [hm]; exact fun e' => e (Option.some.inj e').symm) nofun
    · intro m y hy
      dsimp only at hy ⊢
      by_cases e : m = mt
      · rw [e, Function.update_self] at hy; cases hy
      · rw [Function.update_of_ne e] at hy
        obtain ⟨s', hs'⟩ := h.state m y hy
        by_cases e' : y.shared_state = x.shared_state
        · rw [e', Function.update_self, if_neg (by have := hshare m y e hy e'; omega)]
          exact ⟨_, rfl⟩
        · exact ⟨s', by rw [Function.update_of_ne e', hs']⟩
    · intro i s' hs'
      dsimp only at hs'
      rw [stateOf_update, Option.map_none]
      have hmt : r.stateOf mt = some x.shared_state := by rw [stateOf, hx, Option.map_some]
      by_cases e : i = x.shared_state
      · subst e
        rw [Function.update_self] at hs'
        by_cases hz : s.has_clone = 0
        · rw [if_pos hz] at hs'; cases hs'
        · rw [if_neg hz, Option.some.injEq] at hs'
          subst hs'
          have := (h.clones _ s hs).lose hmt (show none ≠ some x.shared_state from nofun)
          dsimp only
          rwa [show s.has_clone - 1 + 1 = s.has_clone + 1 - 1 by omega]
      · rw [Function.update_of_ne e] at hs'
        exact (h.clones i s' hs').keep (by rw [hmt]; exact fun e' => e (Option.some.inj e').symm) nofun
    · intro m hm'
      dsimp only at hm' ⊢
      by_cases e : m = mt
      · rw [e, Function.update_self]
      · rw [Function.update_of_ne e, h.freshMt m hm']
    · intro i hi
      dsimp only at hi ⊢
      rw [Function.update_of_ne (by have := h.state_lt hs; omega), h.freshState i hi]
    · intro o' m ho' hm'
      have hne := hown o' m ho' hm'
      unfold tree
      dsimp only
      rw [Function.update_of_ne hne]
      obtain ⟨y, hy⟩ := h.live o' m hm'
      obtain ⟨s', hs'⟩ := h.state m y hy
      rw [hy, Option.bind_some, Option.bind_some]
      by_cases e : y.shared_state = x.shared_state
      · rw [e, Function.update_self, hs, if_neg (by have := hshare m y hne hy e; omega)]
        rfl
      · rw [Function.update_of_ne e]
  · have hrel : r.release mt = { r with mts := Function.update r.mts mt (some { x with refs := x.refs - 1 }) } := by
      unfold Resources.release
      rw [hx]; dsimp only; rw [if_neg hr]
    have hso : (r.release mt).stateOf = r.stateOf := by
      rw [hrel, stateOf_update]
      funext m
      by_cases e : m = mt
      · rw [e, Function.update_self, Option.map_some, stateOf, hx, Option.map_some]
      · rw [Function.update_of_ne e]
    refine ⟨⟨?_, ?_, ?_, ?_, ?_, ?_⟩, by rw [hrel], ?_⟩
    · intro o' m hm'
      rw [hrel]
      dsimp only
      by_cases e : m = mt
      · exact ⟨_, by rw [e, Function.update_self]⟩
      · rw [Function.update_of_ne e]
        by_cases e' : o' = o
        · rw [e', Function.update_self] at hm'; cases hm'
        · rw [Function.update_of_ne e'] at hm'
          exact h.live o' m hm'
    · intro m y hy
      rw [hrel] at hy
      dsimp only at hy
      by_cases e : m = mt
      · subst e
        rw [Function.update_self, Option.some.injEq] at hy
        subst hy
        exact hcount.lose hm nofun
      · rw [Function.update_of_ne e] at hy
        exact (h.refs m y hy).keep (by rw [hm]; exact fun e' => e (Option.some.inj e').symm) nofun
    · intro m y hy
      rw [hrel] at hy ⊢
      dsimp only at hy ⊢
      by_cases e : m = mt
      · rw [e, Function.update_self, Option.some.injEq] at hy
        subst hy
        exact ⟨s, hs⟩
      · rw [Function.update_of_ne e] at hy
        exact h.state m y hy
    · intro i s' hs'
      rw [hso]
      rw [hrel] at hs'
      exact h.clones i s' hs'
    · intro m hm'
      rw [hrel] at hm' ⊢
      dsimp only at hm' ⊢
      have := h.mt_lt hx
      rw [Function.update_of_ne (by omega), h.freshMt m hm']
    · intro i hi
      rw [hrel] at hi ⊢
      exact h.freshState i hi
    · intro o' m _ _
      rw [tree_of_stateOf, tree_of_stateOf, hso, hrel]

omit [DecidableEq O] in
/-- **`make_writeable_locked`.** The resource reads the same and has its state
for itself. -/
theorem makeWriteable (h : Held r own) {o : O} {mt : Nat} (hm : own o = some mt) :
    Held (r.makeWriteable mt) own ∧ (r.makeWriteable mt).nextMt = r.nextMt ∧
      (∀ m, (r.makeWriteable mt).tree m = r.tree m) ∧ (r.makeWriteable mt).Sole mt := by
  obtain ⟨x, hx⟩ := h.live o mt hm
  obtain ⟨s, hs⟩ := h.state mt x hx
  have hmt : r.stateOf mt = some x.shared_state := by rw [stateOf, hx, Option.map_some]
  by_cases hc : 0 < s.has_clone
  · have hw : r.makeWriteable mt =
        { states := Function.update (Function.update r.states x.shared_state
            (some { s with has_clone := s.has_clone - 1 })) r.nextState (some ⟨0, s.tree⟩)
          mts := Function.update r.mts mt (some { x with shared_state := r.nextState })
          nextState := r.nextState + 1
          nextMt := r.nextMt } := by
      unfold Resources.makeWriteable
      rw [hx]; dsimp only; rw [hs]; dsimp only; rw [if_pos hc]
    have hlt := h.state_lt hs
    have hst : ∀ i s', r.states i = some s' → ∃ s'', (r.makeWriteable mt).states i = some s'' ∧
      s''.tree = s'.tree := by
      intro i s' hs'
      have := h.state_lt hs'
      rw [hw]
      dsimp only
      rw [Function.update_of_ne (by omega)]
      exact tree_of_update hs rfl hs'
    have hso : (r.makeWriteable mt).stateOf = Function.update r.stateOf mt (some r.nextState) := by
      rw [hw, stateOf_update, Option.map_some]
    refine ⟨⟨?_, ?_, ?_, ?_, ?_, ?_⟩, by rw [hw], ?_, ?_⟩
    · intro o' m hm'
      rw [hw]
      dsimp only
      by_cases e : m = mt
      · exact ⟨_, by rw [e, Function.update_self]⟩
      · rw [Function.update_of_ne e]
        exact h.live o' m hm'
    · intro m y hy
      rw [hw] at hy
      dsimp only at hy
      by_cases e : m = mt
      · subst e
        rw [Function.update_self, Option.some.injEq] at hy
        subst hy
        exact h.refs m x hx
      · rw [Function.update_of_ne e] at hy
        exact h.refs m y hy
    · intro m y hy
      have hy' := hy
      rw [hw] at hy
      dsimp only at hy
      by_cases e : m = mt
      · rw [e, Function.update_self, Option.some.injEq] at hy
        subst hy
        rw [hw]
        exact ⟨_, Function.update_self ..⟩
      · rw [Function.update_of_ne e] at hy
        obtain ⟨s', hs'⟩ := h.state m y hy
        obtain ⟨s'', hs'', -⟩ := hst _ s' hs'
        exact ⟨s'', hs''⟩
    · intro i s' hs'
      rw [hso]
      rw [hw] at hs'
      dsimp only at hs'
      by_cases e : i = r.nextState
      · subst e
        rw [Function.update_self, Option.some.injEq] at hs'
        subst hs'
        exact (Counts.zero_iff.2 h.stateOf_ne_next).gain (h.stateOf_ne_next _)
      · have hne : some r.nextState ≠ some i := fun e' => e (Option.some.inj e').symm
        rw [Function.update_of_ne e] at hs'
        by_cases e' : i = x.shared_state
        · subst e'
          rw [Function.update_self, Option.some.injEq] at hs'
          subst hs'
          have := (h.clones _ s hs).lose hmt hne
          dsimp only
          rwa [show s.has_clone - 1 + 1 = s.has_clone + 1 - 1 by omega]
        · rw [Function.update_of_ne e'] at hs'
          exact (h.clones i s' hs').keep
            (by rw [hmt]; exact fun e'' => e' (Option.some.inj e'').symm) hne
    · intro m hm'
      have := h.mt_lt hx
      rw [hw] at hm' ⊢
      dsimp only at hm' ⊢
      rw [Function.update_of_ne (by omega), h.freshMt m hm']
    · intro i hi
      rw [hw] at hi ⊢
      dsimp only at hi ⊢
      rw [Function.update_of_ne (by omega), Function.update_of_ne (by omega), h.freshState i (by omega)]
    · intro m
      rw [tree_of_stateOf, tree_of_stateOf, hso]
      by_cases e : m = mt
      · rw [e, Function.update_self, hmt, Option.bind_some, Option.bind_some, hs, hw]
        dsimp only
        rw [Function.update_self]
        rfl
      · rw [Function.update_of_ne e]
        cases hy : r.mts m with
        | none => rw [show r.stateOf m = none by rw [stateOf, hy, Option.map_none]]; rfl
        | some y =>
          obtain ⟨s', hs'⟩ := h.state m y hy
          obtain ⟨s'', hs'', ht⟩ := hst _ s' hs'
          rw [show r.stateOf m = some y.shared_state by rw [stateOf, hy, Option.map_some], Option.bind_some,
            Option.bind_some, hs', hs'', Option.elim_some, Option.elim_some, ht]
    · intro m i hi hm'
      rw [hso] at hi hm'
      rw [Function.update_self, Option.some.injEq] at hi
      by_contra e
      rw [Function.update_of_ne e, ← hi] at hm'
      exact h.stateOf_ne_next m hm'
  · have hw : r.makeWriteable mt = r := by
      unfold Resources.makeWriteable
      rw [hx]; dsimp only; rw [hs]; dsimp only; rw [if_neg hc]
    rw [hw]
    refine ⟨h, rfl, fun _ => rfl, fun m i hi hm' => ?_⟩
    rw [hmt, Option.some.injEq] at hi
    subst hi
    exact (h.clones _ s hs).eq_of_le_one (by omega) hm' hmt

omit [DecidableEq O] in
/-- A tree written in place by the only resource on its state. -/
theorem modifyTree (h : Held r own) {o : O} {mt : Nat} (hm : own o = some mt)
    (huniq : r.Sole mt) (f : Tree → Tree) :
    Held (r.modifyTree mt f) own ∧ (r.modifyTree mt f).nextMt = r.nextMt ∧
      (r.modifyTree mt f).tree mt = f (r.tree mt) ∧ ∀ m, m ≠ mt → (r.modifyTree mt f).tree m = r.tree m := by
  obtain ⟨x, hx⟩ := h.live o mt hm
  obtain ⟨s, hs⟩ := h.state mt x hx
  have hmt : r.stateOf mt = some x.shared_state := by rw [stateOf, hx, Option.map_some]
  have hq : r.modifyTree mt f =
      { r with states := Function.update r.states x.shared_state (some { s with tree := f s.tree }) } := by
    unfold Resources.modifyTree
    rw [hx]; dsimp only; rw [hs]
  rw [hq]
  have hlook : ∀ i s', Function.update r.states x.shared_state
    (some { s with tree := f s.tree }) i = some s' →
      ∃ s'', r.states i = some s'' ∧ s''.has_clone = s'.has_clone := by
    intro i s' hs'
    by_cases e : i = x.shared_state
    · subst e
      rw [Function.update_self, Option.some.injEq] at hs'
      exact ⟨s, hs, by rw [← hs']⟩
    · rw [Function.update_of_ne e] at hs'
      exact ⟨s', hs', rfl⟩
  refine ⟨⟨h.live, h.refs, ?_, ?_, h.freshMt, ?_⟩, rfl, ?_, ?_⟩
  · intro m y hy
    dsimp only
    by_cases e : y.shared_state = x.shared_state
    · exact ⟨_, by rw [e, Function.update_self]⟩
    · rw [Function.update_of_ne e]
      exact h.state m y hy
  · intro i s' hs'
    obtain ⟨s'', hs'', e⟩ := hlook i s' hs'
    rw [← e]
    exact h.clones i s'' hs''
  · intro i hi
    dsimp only at hi ⊢
    rw [Function.update_of_ne (by have := h.state_lt hs; omega), h.freshState i hi]
  · rw [tree_eq hx hs]
    refine tree_eq (s := { s with tree := f s.tree }) hx ?_
    exact Function.update_self ..
  · intro m hne
    unfold tree
    dsimp only
    cases hy : r.mts m with
    | none => rfl
    | some y =>
      rw [Option.bind_some, Option.bind_some, Function.update_of_ne fun e => hne (huniq m _ hmt (by
        rw [stateOf, hy, Option.map_some, e]))]

omit [DecidableEq O] in
/-- **`insert_item` on a resource.** Nobody else sees the write. -/
theorem insertItem (h : Held r own) {o : O} {mt : Nat} (hm : own o = some mt) (k : Bytes) (v : Word) :
    Held (r.insertItem mt k v) own ∧ (r.insertItem mt k v).nextMt = r.nextMt ∧
      (r.insertItem mt k v).tree mt = (r.tree mt).insertItem k v ∧
      ∀ m, m ≠ mt → (r.insertItem mt k v).tree m = r.tree m := by
  obtain ⟨hw, hn, ht, huniq⟩ := h.makeWriteable hm
  obtain ⟨hf, hfn, hft, hfo⟩ := hw.modifyTree hm huniq fun t => t.insertItem k v
  exact ⟨hf, hfn.trans hn, hft.trans (by rw [ht]), fun m hm' => (hfo m hm').trans (ht m)⟩

theorem stateOf_alloc (r : Resources) : r.alloc.2.stateOf = Function.update r.stateOf r.nextMt
    (some r.nextState) :=
  stateOf_update

omit [DecidableEq O] in
theorem sole_alloc (h : Held r own) : r.alloc.2.Sole r.nextMt := by
  intro m i hi hm
  rw [stateOf_alloc] at hi hm
  by_contra e
  rw [Function.update_self, Option.some.injEq] at hi
  rw [Function.update_of_ne e, ← hi] at hm
  exact h.stateOf_ne_next m hm

omit [DecidableEq O] in
theorem sole_of_alloc (h : Held r own) {mt : Nat} (hs : r.Sole mt) (hlt : mt < r.nextMt) :
    r.alloc.2.Sole mt := by
  intro m i hi hm
  rw [stateOf_alloc] at hi hm
  rw [Function.update_of_ne (by omega)] at hi
  by_cases e : m = r.nextMt
  · subst e
    rw [Function.update_self, Option.some.injEq] at hm
    subst hm
    exact absurd hi (h.stateOf_ne_next mt)
  · rw [Function.update_of_ne e] at hm
    exact hs m i hi hm

theorem stateOf_modifyTree (r : Resources) (mt : Nat) (f : Tree → Tree) :
    (r.modifyTree mt f).stateOf = r.stateOf := by
  unfold Resources.modifyTree
  cases hx : r.mts mt with
  | none => rfl
  | some x =>
    dsimp only
    cases r.states x.shared_state <;> rfl

/-- A resource allocated with a given content. -/
theorem allocWith (h : Held r own) {o : O} (ho : own o = none) (t : Tree) :
    Held (r.alloc.2.modifyTree r.alloc.1 fun _ => t) (Function.update own o (some r.alloc.1)) ∧
      (r.alloc.2.modifyTree r.alloc.1 fun _ => t).nextMt = r.nextMt + 1 ∧
      (r.alloc.2.modifyTree r.alloc.1 fun _ => t).tree r.alloc.1 = t ∧
      ∀ m, m ≠ r.alloc.1 → (r.alloc.2.modifyTree r.alloc.1 fun _ => t).tree m = r.tree m := by
  obtain ⟨ha, -, hao⟩ := h.alloc ho
  obtain ⟨hf, hfn, hft, hfo⟩ := ha.modifyTree (Function.update_self o (some r.alloc.1) own)
    h.sole_alloc fun _ => t
  exact ⟨hf, hfn, hft, fun m hm => (hfo m hm).trans (hao m hm)⟩

end Held
end Resources
end Diode.L3
