import Diode.L2Trie.Isolation

/-!
# The root hash names the content

Two trees reached by any histories of writes, deletions, copies and hash calls
have equal root hashes exactly when they hold the same map. The shape a history
leaves behind does not matter (`Refines.rootHash` returns `canonicalRoot`), and
the root binds the content (`canonicalRoot_inj`).

No tree is destroyed in these histories, so every node's maker is alive and the
collapse is safe (`collapseLive_of_all`).
-/
namespace Diode.L2
open Diode.Core Diode.L1.Ext ItemPool

/-- A call of a history over keys of `n` bytes: anything but a destruction. -/
def Op.within (n : Nat) : Op → Bool
  | .insertItem _ key _ => key.length = n
  | .destroy _ => false
  | _ => true

/-- How many trees a call makes. -/
def Op.made : Op → Nat
  | .copy _ => 1
  | _ => 0

/-- A history over keys of `n` bytes on trees that exist; `next` trees do. -/
def history (n : Nat) : TreeId → List Op → Bool
  | _, [] => true
  | next, op :: ops => decide (op.tree < next) && op.within n && history n (next + op.made) ops

/-- `key` is written in `ops`. -/
def WrittenIn (ops : List Op) (key : Bytes) : Prop := ∃ t value, Op.insertItem t key value ∈ ops

section
variable {sha : Bytes → Word}

theorem collapseLive_of_all {live : TreeId → Bool} {p : ItemPool} (h : ∀ j it, p.nodes j = some it →
    live it.m_tree = true) :
    ∀ (fuel : Nat) (id : ItemId), collapseLive live fuel p id = true
  | 0, _ => rfl
  | fuel + 1, id => by
    simp only [collapseLive]
    split
    · rfl
    · rename_i it hid
      simp [h id it hid, collapseLive_of_all h fuel]

/-- A world in which no tree was destroyed, whose keys satisfy `P`. -/
structure Intact (P : Bytes → Prop) (w : World) (m : Maps) : Prop where
  full : ∀ t, t < w.next → (w.trees t).isSome = true
  keys : ∀ t c, m.content t = some c → ∀ p ∈ c, P p.1

theorem mem_putSlot_key {c : List Pair} (hs : Assoc.Sorted c) {k : Bytes} {v : Word}
    {P : Bytes → Prop} (hk : P k)
    (h : ∀ p ∈ c, P p.1) : ∀ p ∈ putSlot c k v, P p.1 := by
  intro p hp
  rcases (mem_putSlot hs).1 hp with ⟨-, hm⟩ | ⟨-, rfl⟩
  · exact h p hm
  · exact hk

theorem Refines.sorted {w : World} {m : Maps} {E : Slot → ItemId} {C : ItemId → List Pair}
    (h : Refines sha w m E C)
    {t : TreeId} {c : List Pair} (hc : m.content t = some c) : ∃ r, w.trees t = some r ∧ c = C r ∧
      Assoc.Sorted c ∧
      ∀ p ∈ c, p.2 ≠ 0 := by
  rw [h.maps, Option.map_eq_some_iff] at hc
  obtain ⟨r, hr, rfl⟩ := hc
  obtain ⟨-, it, hit, -⟩ := h.root_node hr
  have ho := h.shape.item r it hit
  exact ⟨r, hr, rfl, ho.sorted, fun p hp => (ho.pairs p hp).1⟩

/-- One call of a history is sound, and leaves the world intact. -/
theorem intact_step {P : Bytes → Prop} (hK : NoCrowd sha P) {w : World} {m : Maps} {E : Slot → ItemId}
    {C : ItemId → List Pair} (h : Refines sha w m E C) (hi : Intact P w m) {op : Op} {n : Nat}
      (ht : op.tree < w.next)
    (hw : op.within n = true) (hk : ∀ t key value, op = .insertItem t key value → P key) :
    (w.trees op.tree).isSome = true ∧ op.sound sha w m = true ∧ ∀ w' o m' o' E' C',
      Refines sha w' m' E' C' →
      step sha w op = some (w', o) → m.step sha op = some (m', o') →
      Intact P w' m' ∧ w'.next = w.next + op.made ∧ m' = m.after [op] := by
  have hlive := hi.full _ ht
  have hall : ∀ r, collapseLive w.live FUEL w.pool r = true :=
    fun r => collapseLive_of_all (fun j it hj => hi.full _ (h.shape.item j it hj).tree) FUEL r
  obtain ⟨r, hr⟩ := Option.isSome_iff_exists.1 hlive
  have hm := h.maps_some hr
  have hs := h.sorted hm
  refine ⟨hlive, ?_, ?_⟩
  · cases op with
    | insertItem t key value =>
      dsimp only [Op.tree] at hm hs
      obtain ⟨-, -, -, hsort, -⟩ := hs
      simp only [Op.sound, hm, Option.all_some, decide_eq_true_eq]
      exact sparse_of_noCrowd hK (putSlot_sorted hsort key value)
        (mem_putSlot_key hsort (hk t key value rfl) (hi.keys t _ hm))
    | rootHash t => dsimp only [Op.tree] at hr; simp [Op.sound, hr, hall]
    | getProofs t key => dsimp only [Op.tree] at hr; simp [Op.sound, hr, hall]
    | getItem | each | size | copy | destroy => rfl
  · intro w' o m' o' E' C' h' hstep hmstep
    simp only [Maps.step, hm, Option.map_some, Option.some.injEq, Prod.mk.injEq] at hmstep
    obtain ⟨rfl, -⟩ := hmstep
    have hafter : m.effect (C r) op = m.after [op] := by simp [Maps.after, hm]
    have hfull : ∀ t, t < w'.next → (m.effect (C r) op).content t ≠ none →
      (w'.trees t).isSome = true := by
      intro t _ hne
      rw [h'.maps] at hne
      cases hwt : w'.trees t with
      | none => rw [hwt] at hne; exact absurd rfl hne
      | some _ => rfl
    have hold : ∀ t, t < w.next → m.content t ≠ none := by
      intro t htn
      obtain ⟨rt, hrt⟩ := Option.isSome_iff_exists.1 (hi.full t htn)
      rw [h.maps_some hrt]
      exact Option.some_ne_none _
    have hnext : w'.next = (m.effect (C r) op).next := h'.next.symm
    refine ⟨⟨fun t htn => hfull t htn ?_, fun t c hc => ?_⟩, ?_, hafter⟩
    · rw [hnext] at htn
      cases op with
      | insertItem u key value =>
        dsimp only [Maps.effect]
        by_cases e : t = u
        · subst e; rw [Function.update_self]; exact Option.some_ne_none _
        · rw [Function.update_of_ne e]
          exact hold t (by rw [← h.next]; exact htn)
      | copy u =>
        dsimp only [Maps.effect] at htn ⊢
        by_cases e : t = m.next
        · subst e; rw [Function.update_self]; exact Option.some_ne_none _
        · rw [Function.update_of_ne e]
          exact hold t (by rw [← h.next]; exact lt_of_le_of_ne (Nat.lt_succ_iff.1 htn) e)
      | destroy u => cases hw
      | getItem | each | size | rootHash | getProofs => exact hold t (by rw [← h.next]; exact htn)
    · cases op with
      | insertItem u key value =>
        dsimp only [Op.tree] at hm hs
        obtain ⟨-, -, -, hsort, -⟩ := hs
        dsimp only [Maps.effect] at hc
        by_cases e : t = u
        · subst e
          rw [Function.update_self, Option.some.injEq] at hc
          subst hc
          exact mem_putSlot_key hsort (hk t key value rfl) (hi.keys t _ hm)
        · rw [Function.update_of_ne e] at hc
          exact hi.keys t c hc
      | copy u =>
        dsimp only [Maps.effect] at hc
        by_cases e : t = m.next
        · subst e
          rw [Function.update_self, Option.some.injEq] at hc
          subst hc
          exact hi.keys _ _ hm
        · rw [Function.update_of_ne e] at hc
          exact hi.keys t c hc
      | destroy u => cases hw
      | getItem | each | size | rootHash | getProofs => exact hi.keys t c hc
    · rw [hnext]
      cases op <;> simp only [Maps.effect, Op.made, h.next, Nat.add_zero]

/-- A history runs to its end, in an intact world that holds `Maps.after`. -/
theorem intact_run {P : Bytes → Prop} (hK : NoCrowd sha P) {n : Nat} :
    ∀ {ops : List Op} {w : World} {m : Maps}
    {E : Slot → ItemId} {C : ItemId → List Pair}, Refines sha w m E C → Intact P w m →
      history n w.next ops = true →
    (∀ t key value, Op.insertItem t key value ∈ ops → P key) →
    ∃ w' os E' C', run sha w ops = some (w', os) ∧ Refines sha w' (m.after ops) E' C' ∧
      Intact P w' (m.after ops)
  | [], w, m, E, C, h, hi, _, _ => ⟨w, [], E, C, rfl, h, hi⟩
  | op :: ops, w, m, E, C, h, hi, hh, hk => by
    simp only [history, Bool.and_eq_true, decide_eq_true_eq] at hh
    obtain ⟨⟨ht, hw⟩, hrest⟩ := hh
    obtain ⟨hlive, hsound, hnext⟩ := intact_step hK h hi ht hw fun t key value e =>
      hk t key value (by simp [e])
    obtain ⟨w1, o, m1, o', E1, C1, h1, h2, -, hr⟩ := step_refines h hlive hsound
    obtain ⟨hi1, hn1, hm1⟩ := hnext w1 o m1 o' E1 C1 hr h1 h2
    rw [← hn1] at hrest
    obtain ⟨w2, os, E2, C2, h3, hr2, hi2⟩ := intact_run hK hr hi1 hrest fun t key value hm =>
      hk t key value (by simp [hm])
    have hma : m.after (op :: ops) = m1.after ops := by rw [hm1]; rfl
    rw [hma]
    exact ⟨w2, o :: os, E2, C2, by simp [run, h1, h3], hr2, hi2⟩

theorem intact_init (P : Bytes → Prop) : Intact P World.init Maps.init := by
  refine ⟨?_, ?_⟩
  · intro t ht
    have : t = 0 := Nat.lt_one_iff.1 ht
    subst this; rfl
  · intro t c hc
    by_cases e : t = 0
    · subst e; cases hc; simp
    · rw [init_content_ne e] at hc
      cases hc

/-- The map of a key length is well-formed when no 17 keys crowd. -/
theorem shapeAt_wf {c : List Pair} (hs : Assoc.Sorted c) (hz : ∀ p ∈ c, p.2 ≠ 0) (hx : Sparse sha c) :
    (shapeAt sha [] c).WF sha [] :=
  split_wf MAX_BITS [] c rfl hs (fun p hp => ⟨hz p hp, under_nil p.1⟩) hx

theorem history_length {n : Nat} {t : TreeId} {key : Bytes} {value : Word} :
    ∀ {ops : List Op} {next : TreeId},
    history n next ops = true → Op.insertItem t key value ∈ ops → key.length = n
  | op :: ops, next, h, hm => by
    simp only [history, Bool.and_eq_true, decide_eq_true_eq] at h
    rcases List.mem_cons.1 hm with rfl | hm
    · exact of_decide_eq_true h.1.2
    · exact history_length h.2 hm

namespace Refines
variable {w : World} {m : Maps} {E : Slot → ItemId} {C : ItemId → List Pair}
    {t : TreeId} {c : List Pair}

theorem getItem (h : Refines sha w m E C) (hc : m.content t = some c) (key : Bytes) :
    (step sha w (.getItem t key)).map Prod.snd = some (.value (Assoc.get c key)) := by
  obtain ⟨r, hr, rfl, -, -⟩ := h.sorted hc
  obtain ⟨-, it, hit, hb⟩ := h.root_node hr
  obtain ⟨b, h1, h2⟩ := getBucket_spec h.held h.shape key hit (by rw [hb]; exact fueled_FUEL _)
  simp [step, hr, h1, h2]

/-- The root of a map that no destroyed tree took part in. -/
theorem rootHash_intact {P : Bytes → Prop} (h : Refines sha w m E C) (hi : Intact P w m)
    (hc : m.content t = some c) :
    ∃ v, Diode.L2.rootHash sha w t = some (v, canonicalRoot sha c) := by
  obtain ⟨r, hr, rfl, -, -⟩ := h.sorted hc
  obtain ⟨v, -, hv, -⟩ := h.rootHash hr
    (collapseLive_of_all (fun j it hj => hi.full _ (h.shape.item j it hj).tree) FUEL r)
  exact ⟨v, hv⟩

end Refines

/-- **The root is canonical and binding.** -/
theorem root_hash_names_content {n : Nat} (hn : n = 20 ∨ n = 32) {ops₁ ops₂ : List Op}
    (h₁ : history n 1 ops₁ = true)
    (h₂ : history n 1 ops₂ = true) (hK : NoCrowd sha (WrittenIn (ops₁ ++ ops₂))) {t₁ t₂ : TreeId}
      {c₁ c₂ : List Pair}
    (hc₁ : (Maps.init.after ops₁).content t₁ = some c₁)
      (hc₂ : (Maps.init.after ops₂).content t₂ = some c₂)
    (hi : InjOn sha (rootHashed sha (shapeAt sha [] c₁) ++ rootHashed sha (shapeAt sha [] c₂))) :
    ∃ w₁ o₁ v₁ r₁ w₂ o₂ v₂ r₂, run sha World.init ops₁ = some (w₁, o₁) ∧
      rootHash sha w₁ t₁ = some (v₁, r₁) ∧
      run sha World.init ops₂ = some (w₂, o₂) ∧ rootHash sha w₂ t₂ = some (v₂, r₂) ∧
      (r₁ = r₂ ↔ ∀ k, (step sha w₁ (.getItem t₁ k)).map Prod.snd = (step sha w₂ (.getItem t₂ k)).map Prod.snd) := by
  let P : Bytes → Prop := fun k => WrittenIn (ops₁ ++ ops₂) k ∧ k.length = n
  have hP : NoCrowd sha P := fun bits ks hnd hks => hK bits ks hnd fun k hk =>
    ⟨(hks k hk).1.1, (hks k hk).2⟩
  obtain ⟨E₀, C₀, h₀⟩ := @refines_init sha
  obtain ⟨w₁, o₁, E₁, C₁, hr₁, href₁, hin₁⟩ := intact_run hP h₀ (intact_init P) h₁ fun t key value hm =>
    ⟨⟨t, value, List.mem_append_left _ hm⟩, history_length h₁ hm⟩
  obtain ⟨w₂, o₂, E₂, C₂, hr₂, href₂, hin₂⟩ := intact_run hP h₀ (intact_init P) h₂ fun t key value hm =>
    ⟨⟨t, value, List.mem_append_right _ hm⟩, history_length h₂ hm⟩
  obtain ⟨v₁, hv₁⟩ := href₁.rootHash_intact hin₁ hc₁
  obtain ⟨v₂, hv₂⟩ := href₂.rootHash_intact hin₂ hc₂
  obtain ⟨-, -, -, hs₁, hz₁⟩ := href₁.sorted hc₁
  obtain ⟨-, -, -, hs₂, hz₂⟩ := href₂.sorted hc₂
  have hk₁ := hin₁.keys t₁ c₁ hc₁
  have hk₂ := hin₂.keys t₂ c₂ hc₂
  refine ⟨w₁, o₁, v₁, _, w₂, o₂, v₂, _, hr₁, hv₁, hr₂, hv₂, ?_⟩
  have hget : (∀ k, (step sha w₁ (.getItem t₁ k)).map Prod.snd =
    (step sha w₂ (.getItem t₂ k)).map Prod.snd) ↔
      ∀ k, Assoc.get c₁ k = Assoc.get c₂ k := by
    simp only [href₁.getItem hc₁, href₂.getItem hc₂, Option.some.injEq, Obs.value.injEq]
  rw [hget]
  refine ⟨?_, ?_⟩
  · intro hroot
    have : c₁ = c₂ := canonicalRoot_inj (shapeAt_wf hs₁ hz₁ (sparse_of_noCrowd hP hs₁ hk₁))
      (shapeAt_wf hs₂ hz₂ (sparse_of_noCrowd hP hs₂ hk₂)) hs₁ hs₂
        (fun p hp => lt_of_eq_of_lt (hk₁ p hp).2 (by omega))
      (fun p hp => lt_of_eq_of_lt (hk₂ p hp).2 (by omega)) hi hroot
    subst this
    exact fun _ => rfl
  · intro h
    rw [Assoc.ext hs₁ hs₂ h]

/-- Sixteen keys make no crowd. -/
theorem noCrowd_of_few {K : Bytes → Prop} (l : List Bytes) (hl : l.length ≤ LEAF_SIZE)
    (h : ∀ k, K k → k ∈ l) :
    NoCrowd sha K := by
  intro bits ks hnd hks
  exact (List.subperm_of_subset hnd fun k hk => h k (hks k hk).1).length_le.trans hl

/-- A key written and deleted again beside another, and a copy of a tree with that one. -/
theorem root_hash_names_content_deleted :
    ∃ w₁ o₁ v₁ r₁ w₂ o₂ v₂ r₂,
      run Sha256.sha256 World.init [.insertItem 0 (addrKey 1) 5, .rootHash 0, .insertItem 0 (addrKey 2) 7,
        .insertItem 0 (addrKey 1) 0] = some (w₁, o₁) ∧
      rootHash Sha256.sha256 w₁ 0 = some (v₁, r₁) ∧
      run Sha256.sha256 World.init [.insertItem 0 (addrKey 2) 7, .copy 0] = some (w₂, o₂) ∧
        rootHash Sha256.sha256 w₂ 1 = some (v₂, r₂) ∧
      (r₁ = r₂ ↔ ∀ k, (step Sha256.sha256 w₁ (.getItem 0 k)).map Prod.snd =
        (step Sha256.sha256 w₂ (.getItem 1 k)).map Prod.snd) :=
  root_hash_names_content (n := 20) (.inl rfl) (by decide) (by decide)
    (noCrowd_of_few [addrKey 1, addrKey 2] (by decide) fun k hk => by
      obtain ⟨t, v, hm⟩ := hk
      simp at hm
      obtain ⟨-, rfl, -⟩ | ⟨-, rfl, -⟩ | ⟨-, rfl, -⟩ | ⟨-, rfl, -⟩ := hm <;> simp)
    (show (Maps.init.after _).content 0 = some [(addrKey 2, 7)] from rfl)
    (show (Maps.init.after _).content 1 = some [(addrKey 2, 7)] from rfl)
    (by rw [Sha256.sha256_eq]; unfold InjOn; decide +kernel)

end
end Diode.L2
