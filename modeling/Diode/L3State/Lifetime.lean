import Diode.L3State.Handles

/-!
# Lifetime of shared states

What the native library does with `merkletree` resources comes down to six
things (`Act`): they are allocated, cloned, held once more, let go, written, and
filled in place. `Lifetime` says what the count of a `SharedState` is good for
at one of them.

* `Counted.along`: it holds all along every sequence of them, in whatever order
  they come, that only fills states of its own.
-/
namespace Diode.L3
open Diode.Core Diode.L1.Ext

namespace Resources

/-- What happens to resources. A write makes the resource writeable first, a
fill does not. -/
inductive Act where
  | alloc
  | clone (mt : Nat)
  | keep (mt : Nat)
  | release (mt : Nat)
  | insert (mt : Nat) (key : Bytes) (value : Word)
  | fill (mt : Nat) (f : Tree → Tree)

def act (r : Resources) : Act → Resources
  | .alloc => r.alloc.2
  | .clone mt => (r.clone mt).2
  | .keep mt => r.keep mt
  | .release mt => r.release mt
  | .insert mt key value => r.insertItem mt key value
  | .fill mt f => r.modifyTree mt f

def acts (r : Resources) (l : List Act) : Resources := l.foldl act r

/-- How many resources the counter of a state stands for; none once it is gone. -/
def number (r : Resources) (i : Nat) : Nat := (r.states i).elim 0 fun s => s.has_clone + 1

/-- What the counters promise at one act. -/
structure Lifetime (r : Resources) (a : Act) : Prop where
  counted : ∀ i, Counts r.stateOf (some i) (r.number i)
  in_place : ∀ i s s', r.states i = some s → (r.act a).states i = some s' → s'.tree ≠ s.tree →
    Counts r.stateOf (some i) 1
  destroyed : ∀ i, r.states i ≠ none → ((r.act a).states i = none ↔
    ∃ m x, a = .release m ∧ r.mts m = some x ∧ x.refs ≤ 1 ∧ x.shared_state = i ∧
      Counts r.stateOf (some i) 1)

/-- The state of a resource has no clone, or there is no such resource. -/
def Private (r : Resources) (mt : Nat) : Prop :=
  ∀ x s, r.mts mt = some x → r.states x.shared_state = some s → s.has_clone = 0

/-- Only a private state is filled. -/
def Guarded (r : Resources) : List Act → Prop
  | [] => True
  | a :: l => (∀ mt f, a = .fill mt f → r.Private mt) ∧ Guarded (r.act a) l

/-! ## One act -/

/-- The counters are right, and what is to come is unused. -/
structure Counted (r : Resources) : Prop where
  counts : ∀ i, Counts r.stateOf (some i) (r.number i)
  freshMt : ∀ m, r.nextMt ≤ m → r.mts m = none
  freshState : ∀ i, r.nextState ≤ i → r.states i = none

variable {r : Resources} {mt : Nat} {x : Merkletree} {s : SharedState}

theorem Counted.init : Counted init where
  counts _ := Counts.zero_iff.2 nofun
  freshMt _ _ := rfl
  freshState _ _ := rfl

theorem number_of {i : Nat} (h : r.states i = some s) : r.number i = s.has_clone + 1 := by
  simp [number, h]

theorem stateOf_of (h : r.mts mt = some x) : r.stateOf mt = some x.shared_state := by
  simp [stateOf, h]

namespace Counted

theorem state (h : Counted r) (hx : r.mts mt = some x) : ∃ s, r.states x.shared_state = some s := by
  cases hs : r.states x.shared_state with
  | some s => exact ⟨s, rfl⟩
  | none =>
    have := (h.counts x.shared_state).pos (stateOf_of hx)
    simp [number, hs] at this

theorem mt_lt (h : Counted r) (hx : r.mts mt = some x) : mt < r.nextMt := by
  by_contra hn
  rw [h.freshMt mt (by omega)] at hx
  nomatch hx

theorem state_lt (h : Counted r) {i : Nat} (hs : r.states i = some s) : i < r.nextState := by
  by_contra hn
  rw [h.freshState i (by omega)] at hs
  nomatch hs

theorem stateOf_next (h : Counted r) : r.stateOf r.nextMt = none := by
  simp [stateOf, h.freshMt]

theorem alloc (h : Counted r) : Counted r.alloc.2 where
  counts := by
    have hso : r.alloc.2.stateOf = Function.update r.stateOf r.nextMt (some r.nextState) :=
      Held.stateOf_update
    have hn : ∀ i, r.alloc.2.number i = if i = r.nextState then 1 else r.number i := by
      intro i
      by_cases hi : i = r.nextState <;> simp [number, Resources.alloc, hi]
    have hz : r.number r.nextState = 0 := by simp [number, h.freshState]
    rw [hso]
    apply Counts.redirect h.counts
    · rw [h.stateOf_next]
      nofun
    · intro i hi
      obtain rfl := Option.some.inj hi
      rw [hn, if_pos rfl, hz]
    · intro i hi
      rw [h.stateOf_next] at hi
      nomatch hi
    · intro i hi _
      rw [hn, if_neg fun e => hi (by rw [e])]
  freshMt m hm := by
    have : r.nextMt + 1 ≤ m := hm
    show Function.update r.mts r.nextMt _ m = none
    rw [Function.update_of_ne (by omega), h.freshMt m (by omega)]
  freshState i hi := by
    have : r.nextState + 1 ≤ i := hi
    show Function.update r.states r.nextState _ i = none
    rw [Function.update_of_ne (by omega), h.freshState i (by omega)]

theorem clone (h : Counted r) (mt : Nat) : Counted (r.clone mt).2 := by
  unfold Resources.clone
  cases hx : r.mts mt with
  | none => exact h
  | some x =>
    obtain ⟨s, hs⟩ := h.state hx
    dsimp only
    rw [hs]
    have hlt := h.state_lt hs
    refine ⟨?_, fun m hm => ?_, fun i hi => ?_⟩
    · rw [Held.stateOf_update]
      apply Counts.redirect h.counts
      · rw [h.stateOf_next]
        nofun
      · intro i hi
        obtain rfl : x.shared_state = i := Option.some.inj hi
        rw [number_of hs]
        simp [number]
      · intro i hi
        rw [h.stateOf_next] at hi
        nomatch hi
      · intro i hi _
        have hne : i ≠ x.shared_state := fun e => hi (by rw [e]; rfl)
        simp [number, hne]
    · have : r.nextMt + 1 ≤ m := hm
      show Function.update r.mts r.nextMt _ m = none
      rw [Function.update_of_ne (by omega), h.freshMt m (by omega)]
    · have : r.nextState ≤ i := hi
      show Function.update r.states x.shared_state _ i = none
      rw [Function.update_of_ne (by omega), h.freshState i hi]

/-- Nothing that counts has changed. -/
theorem same (h : Counted r) {r' : Resources} (hso : r'.stateOf = r.stateOf)
    (hn : ∀ i, r'.number i = r.number i)
    (hm : r'.nextMt = r.nextMt) (hi : r'.nextState = r.nextState) : Counted r' where
  counts i := by
    rw [hso, hn]
    exact h.counts i
  freshMt m hle := by
    have hnone : r'.stateOf m = none := by
      rw [hso, stateOf, h.freshMt m (by omega)]
      rfl
    exact Option.map_eq_none_iff.1 hnone
  freshState i hle := by
    have hz : r'.number i = 0 := by
      rw [hn, number, h.freshState i (by omega)]
      rfl
    cases hs : r'.states i with
    | none => rfl
    | some s =>
      rw [number_of hs] at hz
      omega

theorem keep (h : Counted r) (mt : Nat) : Counted (r.keep mt) := by
  obtain ⟨hs, hm, hi, hso⟩ := Held.keep_states r mt
  exact h.same hso (fun i => by rw [number, hs]; rfl) hm hi

/-- A resource goes away, with its state if it was the last one. -/
theorem releaseShared (h : Counted r) (mt : Nat) : Counted (r.releaseShared mt) := by
  unfold Resources.releaseShared
  cases hx : r.mts mt with
  | none => exact h
  | some x =>
    obtain ⟨s, hs⟩ := h.state hx
    dsimp only
    rw [hs]
    have hmt := stateOf_of hx
    have hlt := h.state_lt hs
    refine ⟨?_, fun m hm => ?_, fun i hi => ?_⟩
    · rw [Held.stateOf_update]
      apply Counts.redirect h.counts
      · rw [hmt]
        nofun
      · nofun
      · intro i hi
        obtain rfl : x.shared_state = i := Option.some.inj (hmt.symm.trans hi)
        rw [number_of hs]
        by_cases hz : s.has_clone = 0
        · simp [number, hz]
        · simp only [number, Function.update_self, if_neg hz, Option.elim_some]
          omega
      · intro i _ hi
        have hne : i ≠ x.shared_state := fun e => hi (by rw [hmt, e])
        simp [number, hne]
    · have := h.mt_lt hx
      show Function.update r.mts mt none m = none
      by_cases e : m = mt
      · rw [e, Function.update_self]
      · rw [Function.update_of_ne e, h.freshMt m hm]
    · have : r.nextState ≤ i := hi
      show Function.update r.states x.shared_state _ i = none
      rw [Function.update_of_ne (by omega), h.freshState i hi]

/-- A reference is taken from a resource that has others. -/
theorem unref (h : Counted r) (hx : r.mts mt = some x) (n : Nat) :
    Counted { r with mts := Function.update r.mts mt (some { x with refs := n }) } := by
  refine h.same ?_ (fun _ => rfl) rfl rfl
  rw [Held.stateOf_update, Option.map_some]
  funext m
  by_cases e : m = mt
  · rw [e, Function.update_self, stateOf_of hx]
  · rw [Function.update_of_ne e]

theorem release (h : Counted r) (mt : Nat) : Counted (r.release mt) := by
  unfold Resources.release
  cases hx : r.mts mt with
  | none => exact h
  | some x =>
    dsimp only
    split
    · exact h.releaseShared mt
    · exact h.unref hx _

theorem makeWriteable (h : Counted r) (mt : Nat) : Counted (r.makeWriteable mt) := by
  unfold Resources.makeWriteable
  cases hx : r.mts mt with
  | none => exact h
  | some x =>
    obtain ⟨s, hs⟩ := h.state hx
    dsimp only
    rw [hs]
    dsimp only
    split
    · rename_i hc
      have hmt := stateOf_of hx
      have hlt := h.state_lt hs
      refine ⟨?_, fun m hm => ?_, fun i hi => ?_⟩
      · rw [Held.stateOf_update]
        apply Counts.redirect h.counts
        · rw [hmt]
          intro e
          have : r.nextState = x.shared_state := Option.some.inj e
          omega
        · intro i hi
          obtain rfl : r.nextState = i := Option.some.inj hi
          simp [number, h.freshState]
        · intro i hi
          obtain rfl : x.shared_state = i := Option.some.inj (hmt.symm.trans hi)
          have hne : x.shared_state ≠ r.nextState := by omega
          rw [number_of hs]
          simp only [number, Function.update_of_ne hne, Function.update_self, Option.elim_some]
          omega
        · intro i hi hi'
          have hne : i ≠ x.shared_state := fun e => hi' (by rw [hmt, e])
          have hne' : i ≠ r.nextState := fun e => hi (by rw [e]; rfl)
          simp [number, hne, hne']
      · have := h.mt_lt hx
        have : r.nextMt ≤ m := hm
        show Function.update r.mts mt _ m = none
        rw [Function.update_of_ne (by omega), h.freshMt m (by omega)]
      · have : r.nextState + 1 ≤ i := hi
        show Function.update (Function.update r.states x.shared_state _) r.nextState _ i = none
        rw [Function.update_of_ne (by omega), Function.update_of_ne (by omega), h.freshState i (by omega)]
    · exact h

theorem modifyTree (h : Counted r) (mt : Nat) (f : Tree → Tree) : Counted (r.modifyTree mt f) := by
  unfold Resources.modifyTree
  cases hx : r.mts mt with
  | none => exact h
  | some x =>
    obtain ⟨s, hs⟩ := h.state hx
    dsimp only
    rw [hs]
    refine h.same rfl (fun i => ?_) rfl rfl
    by_cases e : i = x.shared_state
    · subst e
      simp [number, hs]
    · simp [number, e]

theorem act (h : Counted r) : ∀ a, Counted (r.act a)
  | .alloc => h.alloc
  | .clone mt => h.clone mt
  | .keep mt => h.keep mt
  | .release mt => h.release mt
  | .insert mt key value => (h.makeWriteable mt).modifyTree mt fun t => t.insertItem key value
  | .fill mt f => h.modifyTree mt f

end Counted

/-- The states that are there stay, with their trees. -/
def Stays (r r' : Resources) : Prop := ∀ i s, r.states i = some s → ∃ s', r'.states i = some s' ∧
    s'.tree = s.tree

namespace Counted

theorem stays_alloc (h : Counted r) : Stays r r.alloc.2 := by
  intro i s hs
  have := h.state_lt hs
  refine ⟨s, ?_, rfl⟩
  show Function.update r.states r.nextState _ i = some s
  rw [Function.update_of_ne (by omega), hs]

theorem stays_clone (h : Counted r) (mt : Nat) : Stays r (r.clone mt).2 := by
  intro i s hs
  unfold Resources.clone
  cases hx : r.mts mt with
  | none => exact ⟨s, hs, rfl⟩
  | some x =>
    obtain ⟨u, hu⟩ := h.state hx
    dsimp only
    rw [hu]
    by_cases e : i = x.shared_state
    · subst e
      obtain rfl := Option.some.inj (hu.symm.trans hs)
      exact ⟨_, Function.update_self .., rfl⟩
    · exact ⟨s, by simp [e, hs], rfl⟩

theorem stays_makeWriteable (h : Counted r) (mt : Nat) : Stays r (r.makeWriteable mt) := by
  intro i s hs
  unfold Resources.makeWriteable
  cases hx : r.mts mt with
  | none => exact ⟨s, hs, rfl⟩
  | some x =>
    obtain ⟨u, hu⟩ := h.state hx
    dsimp only
    rw [hu]
    dsimp only
    split
    · have hne : i ≠ r.nextState := by have := h.state_lt hs; omega
      by_cases e : i = x.shared_state
      · subst e
        obtain rfl := Option.some.inj (hu.symm.trans hs)
        exact ⟨⟨u.has_clone - 1, u.tree⟩,
          by dsimp only; rw [Function.update_of_ne hne, Function.update_self], rfl⟩
      · exact ⟨s, by simp [hne, e, hs], rfl⟩
    · exact ⟨s, hs, rfl⟩

/-- What `modify_tree` changes is the state of its resource. -/
theorem modifyTree_tree {f : Tree → Tree} {i : Nat} {s' : SharedState} (hs : r.states i = some s)
    (hs' : (r.modifyTree mt f).states i = some s') : s'.tree = s.tree ∨ r.stateOf mt = some i := by
  unfold Resources.modifyTree at hs'
  cases hx : r.mts mt with
  | none =>
    rw [hx] at hs'
    exact .inl (by rw [Option.some.inj (hs'.symm.trans hs)])
  | some x =>
    rw [hx] at hs'
    dsimp only at hs'
    split at hs'
    · exact .inl (by rw [Option.some.inj (hs'.symm.trans hs)])
    · by_cases e : i = x.shared_state
      · exact .inr (by rw [stateOf_of hx, e])
      · change Function.update r.states x.shared_state _ i = some s' at hs'
        rw [Function.update_of_ne e] at hs'
        exact .inl (by rw [Option.some.inj (hs'.symm.trans hs)])

theorem modifyTree_some {f : Tree → Tree} {i : Nat} (h : r.states i ≠ none) :
    (r.modifyTree mt f).states i ≠ none := by
  unfold Resources.modifyTree
  cases hx : r.mts mt with
  | none => exact h
  | some x =>
    dsimp only
    split
    · exact h
    · by_cases e : i = x.shared_state <;> simp [e, h]

/-- A state that is written is the writer's alone. -/
theorem makeWriteable_alone (h : Counted r) {i : Nat} (hs : r.states i = some s)
    (hi : (r.makeWriteable mt).stateOf mt = some i) : s.has_clone = 0 := by
  have hlt := h.state_lt hs
  unfold Resources.makeWriteable at hi
  cases hx : r.mts mt with
  | none =>
    rw [hx] at hi
    dsimp only at hi
    rw [stateOf, hx] at hi
    cases hi
  | some x =>
    obtain ⟨u, hu⟩ := h.state hx
    rw [hx] at hi
    dsimp only at hi
    rw [hu] at hi
    dsimp only at hi
    split at hi
    · rw [Held.stateOf_update, Function.update_self, Option.map_some] at hi
      have : r.nextState = i := Option.some.inj hi
      omega
    · rename_i hc
      obtain rfl : x.shared_state = i := Option.some.inj ((stateOf_of hx).symm.trans hi)
      obtain rfl := Option.some.inj (hu.symm.trans hs)
      omega

theorem one (h : Counted r) {i : Nat} (hs : r.states i = some s) (hz : s.has_clone = 0) :
    Counts r.stateOf (some i) 1 := by
  have := h.counts i
  rwa [number_of hs, hz] at this

/-- Letting go never changes a tree, and drops a state with its last resource. -/
theorem release_states (h : Counted r) {i : Nat} (hs : r.states i = some s) :
    (∀ s', (r.release mt).states i = some s' → s'.tree = s.tree) ∧
      ((r.release mt).states i = none ↔ ∃ x, r.mts mt = some x ∧ x.refs ≤ 1 ∧ x.shared_state = i ∧
        s.has_clone = 0) := by
  have hstay : ∀ r' : Resources, r'.states = r.states →
    (∀ s', r'.states i = some s' → s'.tree = s.tree) ∧
      r'.states i ≠ none := by
    intro r' hr'
    rw [hr', hs]
    exact ⟨fun s' e => by rw [Option.some.inj e], Option.some_ne_none s⟩
  unfold Resources.release
  cases hx : r.mts mt with
  | none =>
    obtain ⟨ht, hne⟩ := hstay r rfl
    exact ⟨ht, fun e => absurd e hne, fun ⟨_, e, _⟩ => nomatch e⟩
  | some x =>
    dsimp only
    split
    · rename_i hr
      obtain ⟨u, hu⟩ := h.state hx
      unfold Resources.releaseShared
      rw [hx]
      dsimp only
      rw [hu]
      by_cases e : i = x.shared_state
      · subst e
        obtain rfl := Option.some.inj (hu.symm.trans hs)
        by_cases hz : u.has_clone = 0
        · simp [hz, hr]
        · simp only [Function.update_self, if_neg hz, Option.some.injEq, reduceCtorEq, false_iff]
          refine ⟨fun s' e => by rw [← e], ?_⟩
          intro hz
          obtain ⟨_, _, _, _, hz'⟩ := hz
          exact hz hz'
      · simp only [Function.update_of_ne e, hs, Option.some.injEq, reduceCtorEq, false_iff]
        refine ⟨fun s' e => by rw [e], ?_⟩
        intro hz
        obtain ⟨y, rfl, _, hi, _⟩ := hz
        exact e hi.symm
    · rename_i hr
      obtain ⟨ht, hne⟩ := hstay { r with mts := Function.update r.mts mt (some { x with refs := x.refs - 1 }) } rfl
      refine ⟨ht, fun e => absurd e hne, ?_⟩
      intro hz
      obtain ⟨y, hy, hle, _⟩ := hz
      obtain rfl := Option.some.inj hy
      exact absurd hle hr

theorem lifetime (h : Counted r) (a : Act) (hg : ∀ mt f, a = .fill mt f → r.Private mt) :
    Lifetime r a := by
  have hlast : ∀ i : Nat, (∀ m, a ≠ .release m) → (r.act a).states i ≠ none →
      ((r.act a).states i = none ↔ ∃ m x, a = .release m ∧ r.mts m = some x ∧ x.refs ≤ 1 ∧
        x.shared_state = i ∧
        Counts r.stateOf (some i) 1) := fun i ha hne =>
    ⟨fun e => absurd e hne, fun ⟨m, _, e, _⟩ => absurd e (ha m)⟩
  have hstays : Stays r (r.act a) → (∀ m, a ≠ .release m) → Lifetime r a := fun hst ha =>
    { counted := h.counts
      in_place := fun i s s' hs hs' hne => by
        obtain ⟨u, hu, ht⟩ := hst i s hs
        rw [Option.some.inj (hs'.symm.trans hu)] at hne
        exact absurd ht hne
      destroyed := fun i hi => by
        obtain ⟨s, hs⟩ := Option.ne_none_iff_exists'.1 hi
        obtain ⟨u, hu, _⟩ := hst i s hs
        exact hlast i ha (by rw [hu]; nofun) }
  cases a with
  | alloc => exact hstays h.stays_alloc nofun
  | clone mt => exact hstays (h.stays_clone mt) nofun
  | keep mt =>
    refine hstays (fun i s hs => ⟨s, ?_, rfl⟩) nofun
    show (r.keep mt).states i = some s
    rw [(Held.keep_states r mt).1, hs]
  | release mt =>
    refine ⟨h.counts, fun i s s' hs hs' hne => absurd ((h.release_states hs).1 s' hs') hne,
      fun i hi => ?_⟩
    obtain ⟨s, hs⟩ := Option.ne_none_iff_exists'.1 hi
    refine (h.release_states hs).2.trans ?_
    refine ⟨?_, ?_⟩
    · intro hy
      obtain ⟨x, hx, hr, hi, hz⟩ := hy
      exact ⟨mt, x, rfl, hx, hr, hi, h.one hs hz⟩
    · intro hy
      obtain ⟨m, x, e, hx, hr, hi, hc⟩ := hy
      cases e
      have := (h.counts i).unique hc
      rw [number_of hs] at this
      exact ⟨x, hx, hr, hi, by omega⟩
  | insert mt key value =>
    refine ⟨h.counts, fun i s s' hs hs' hne => ?_, fun i hi => ?_⟩
    · obtain ⟨u, hu, ht⟩ := h.stays_makeWriteable mt i s hs
      rcases modifyTree_tree hu hs' with e | e
      · exact absurd (e.trans ht) hne
      · exact h.one hs (h.makeWriteable_alone hs e)
    · obtain ⟨s, hs⟩ := Option.ne_none_iff_exists'.1 hi
      obtain ⟨u, hu, _⟩ := h.stays_makeWriteable mt i s hs
      exact hlast i nofun (modifyTree_some (by rw [hu]; nofun))
  | fill mt f =>
    refine ⟨h.counts, fun i s s' hs hs' hne => ?_, fun i hi => hlast i nofun (modifyTree_some hi)⟩
    rcases modifyTree_tree hs hs' with e | e
    · exact absurd e hne
    · obtain ⟨x, hx, rfl⟩ := Option.map_eq_some_iff.1 e
      exact h.one hs (hg mt f rfl x s hx hs)

/-- All along a sequence. -/
theorem along : ∀ {l : List Act} {r : Resources} {a : Act}, Counted r → r.Guarded (l ++ [a]) →
    Lifetime (r.acts l) a
  | [], _, a, h, hg => h.lifetime a hg.1
  | b :: l, r, a, h, hg => by
    show Lifetime ((r.act b).acts l) a
    exact along (h.act b) hg.2

end Counted

theorem guarded_append : ∀ {r : Resources} {l k : List Act}, r.Guarded l → (r.acts l).Guarded k →
    r.Guarded (l ++ k)
  | _, [], _, _, hk => hk
  | r, a :: l, k, hl, hk => ⟨hl.1, @guarded_append (r.act a) l k hl.2 hk⟩

end Resources

end Diode.L3
