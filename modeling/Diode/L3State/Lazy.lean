import Diode.L3State.World

/-!
# Lazy storages

A storage that came with a compact term stays a list of slots until a call needs
a tree, and each call has its own way around it. None of this shows.

* `Holds`: what a routine does to the owners of storages. `step_world` is the
  refinement: one call on a heap is that call on its `World`.
* `replies_materialized`: whatever storages are given a tree, and whenever, the
  replies are those of the same calls on the heap left alone.

Only `account_map_uncompact_state` on a handle tells the two kinds of storage
apart: the new map gets a tree of its own for a compact storage and shares a
live one.
-/
namespace Diode.L3
open Diode.Core Diode.L1.Ext Diode.L2 Function

namespace Heap
variable {sha : Bytes → Word} {h h' h'' : Heap} {m n : Nat} {a : Addr} {e : AccountEntry} {v : View}
    {cut : Option Addr}

/-! ## What a routine holds on to -/

/-- No handle is made, storages stay with their owners but for `cut`, and no
compact storage gets other slots. -/
structure Holds (m : Nat) (cut : Option Addr) (h h' : Heap) : Prop where
  nextMap : h'.nextMap = h.nextMap
  own : ∀ a mt, cut ≠ some a → h.own (.entry m a) = some mt → h'.own (.entry m a) = some mt
  slots : ∀ c cs', h'.compacts c = some cs' → ∃ cs, h.compacts c = some cs ∧ cs'.slots = cs.slots

namespace Holds

theorem of_maps (hm : h'.maps = h.maps) (hn : h'.nextMap = h.nextMap) (hc : h'.compacts = h.compacts) :
    Holds m cut h h' where
  nextMap := hn
  own a mt _ ho := by
    rw [← ho]
    show ((h'.maps m).bind _).bind _ = ((h.maps m).bind _).bind _
    rw [hm]
  slots c cs' hcs := ⟨cs', by rw [← hc, hcs], rfl⟩

theorem refl (m : Nat) (cut : Option Addr) (h : Heap) : Holds m cut h h := of_maps rfl rfl rfl

theorem trans (h1 : Holds m cut h h') (h2 : Holds m cut h' h'') : Holds m cut h h'' where
  nextMap := h2.nextMap.trans h1.nextMap
  own a mt hcut ho := h2.own a mt hcut (h1.own a mt hcut ho)
  slots c cs' hcs := by
    obtain ⟨cs1, hcs1, e1⟩ := h2.slots c cs' hcs
    obtain ⟨cs2, hcs2, e2⟩ := h1.slots c cs1 hcs1
    exact ⟨cs2, hcs2, e1.trans e2⟩

theorem weaken (hh : Holds m none h h') : Holds m cut h h' :=
    ⟨hh.nextMap, fun a mt _ => hh.own a mt nofun, hh.slots⟩

end Holds

@[simp] theorem setEntry_nextMap (h : Heap) (m : Nat) (a : Addr) (e : AccountEntry) :
    (h.setEntry m a e).nextMap = h.nextMap := by
  unfold setEntry
  split <;> rfl

@[simp] theorem setEntry_compacts (h : Heap) (m : Nat) (a : Addr) (e : AccountEntry) :
    (h.setEntry m a e).compacts = h.compacts := by
  unfold setEntry
  split <;> rfl

/-- An assignment that leaves a live storage where it is. -/
theorem holds_setEntry (res : Resources)
    (hst : ∀ mt, cut ≠ some a → h.own (.entry m a) = some mt → e.storage = some mt) :
    Holds m cut h ({ h with res }.setEntry m a e) where
  nextMap := by simp
  own b mt hcut ho := by
    obtain ⟨s, hs⟩ : ∃ s, h.maps m = some s := by
      obtain ⟨x, hx, -⟩ := Option.bind_eq_some_iff.1 ho
      obtain ⟨s, hs, -⟩ := entry_map hx
      exact ⟨s, hs⟩
    rw [own_setEntry hs]
    by_cases hb : b = a
    · subst hb
      rw [update_self, hst mt hcut ho]
    · rw [update_of_ne fun e' => hb (by cases e'; rfl), ho]
  slots c cs' hcs := ⟨cs', by simpa using hcs, rfl⟩

theorem holds_materializeAt (m : Nat) (a : Addr) (h : Heap) : Holds m none h (h.materializeAt m a) := by
  unfold materializeAt
  cases he : h.entry m a with
  | none => exact .refl m none h
  | some e =>
    dsimp only
    unfold materializeStorage
    cases hst : e.storage with
    | some mt => exact holds_setEntry h.res fun mt' _ ho => (own_entry he).symm.trans ho
    | none =>
      refine holds_setEntry (h.res.alloc.2.modifyTree h.res.alloc.1 fun _ => Tree.ofSlots
        (h.slots e)) fun mt _ ho => ?_
      rw [own_entry he, hst] at ho
      cases ho

theorem holds_storageRootHash (h : Heap) (e : AccountEntry) :
    Holds m cut h (h.storageRootHashForEntry sha e).1 := by
  unfold storageRootHashForEntry
  split
  · exact .refl m cut h
  · split
    · exact .refl m cut h
    · split
      · exact .refl m cut h
      · split
        · exact .refl m cut h
        · rename_i c _ _ cs hcs _ _
          refine ⟨rfl, fun a mt _ ho => ho, fun c' cs' hc' => ?_⟩
          change update h.compacts c (some _) c' = some cs' at hc'
          by_cases hne : c' = c
          · rw [hne, update_self, Option.some.injEq] at hc'
            exact ⟨cs, hne ▸ hcs, by rw [← hc']⟩
          · rw [update_of_ne hne] at hc'
            exact ⟨cs', hc', rfl⟩

theorem holds_insertStateTrieHash (h : Heap) (a : Addr) (w : Word) :
    Holds m cut h (h.insertStateTrieHash n a w) := by
  unfold insertStateTrieHash
  split
  · exact .refl m cut h
  · exact .of_maps rfl rfl rfl

theorem holds_updateStateTrie (h : Heap) (m : Nat) (a : Addr) :
    Holds m none h (h.updateStateTrieForEntry sha m a) := by
  obtain ⟨g, hg, hu⟩ := updateStateTrieForEntry_cases sha h m a
  have hkeep : Holds m none h g := by
    rcases hg with rfl | rfl
    · exact .refl m none g
    · exact holds_materializeAt m a h
  rcases hu with hu | ⟨e, hash, hu⟩
  · rw [hu]
    exact hkeep
  · rw [hu]
    exact (hkeep.trans (holds_storageRootHash ..)).trans (holds_insertStateTrieHash ..)

theorem holds_ensureAccountEntry (h : Heap) (m : Nat) (a : Addr) :
    Holds m none h (h.ensureAccountEntry m a) := by
  unfold ensureAccountEntry
  cases he : h.entry m a with
  | some e => exact .refl m none h
  | none =>
    refine holds_setEntry h.res.alloc.2 fun mt _ ho => ?_
    change (h.entry m a).bind _ = _ at ho
    rw [he] at ho
    cases ho

theorem holds_writeStorageSlot (h : Heap) (m : Nat) (a : Addr) (key : Bytes) (w : Word) :
    Holds m none h (h.writeStorageSlot m a key w) := by
  have hmat := holds_materializeAt m a h
  unfold writeStorageSlot
  dsimp only
  split
  · exact hmat
  · exact hmat.trans (.of_maps rfl rfl rfl)

end Heap

/-- A routine that holds on to every storage of map `m`. -/
def Run.Holds (m : Nat) (f : Run) : Prop := ∀ h, Heap.Holds m none h (f h).1

namespace Run.Holds
open Heap
variable {sha : Bytes → Word} {m : Nat} {a : Addr} {f g : Run}

theorem fail (x : Fault) : (Run.fail x).Holds m := fun h => .refl m none h

theorem seq (hf : f.Holds m) (hg : g.Holds m) : (f.seq g).Holds m := by
  intro h
  have h1 := hf h
  unfold Run.seq
  generalize f h = r at h1 ⊢
  obtain ⟨q, x⟩ := r
  cases x with
  | none => exact h1.trans (hg q)
  | some x => exact h1

theorem forEach {α : Type} {F : α → Run} (hF : ∀ x, (F x).Holds m) : ∀ l :
    List α, (Run.forEach l F).Holds m
  | [] => fun h => .refl m none h
  | x :: l => (hF x).seq (forEach hF l)

theorem whenSome {α : Type} {F : α → Run} (hF : ∀ x, (F x).Holds m) : ∀ x :
    Option α, (Run.whenSome x F).Holds m
  | none => fun h => .refl m none h
  | some x => hF x

theorem writeable (hf : f.Holds m) : (makeWriteableAccountmap m f).Holds m := by
  intro h
  unfold makeWriteableAccountmap
  split
  · exact .refl m none h
  · split
    · exact .refl m none h
    · exact hf h

theorem ensure : Run.Holds m fun h => (h.ensureAccountEntry m a, none) := fun h =>
    holds_ensureAccountEntry h m a

theorem sealEntry : Run.Holds m fun h => (h.updateStateTrieForEntry sha m a, none) := fun h =>
    holds_updateStateTrie h m a

theorem fieldDelta (m : Nat) (a : Addr) (field : Field) (delta : Term) :
    (applyFieldDelta m a field delta).Holds m := by
  intro h
  -- every assignment is to an entry with the storage it had
  have hset : ∀ e e' : AccountEntry, h.entry m a = some e → e'.storage = e.storage →
      Heap.Holds m none h (h.setEntry m a e') := fun e e' he hst =>
    holds_setEntry h.res fun mt _ ho => by rw [hst, ← own_entry he, ho]
  unfold applyFieldDelta
  cases he : h.entry m a with
  | none => exact .refl m none h
  | some e =>
    repeat' split
    all_goals first
      | exact .refl m none h
      | exact hset e _ he (by simp_all)

theorem slotDelta (m : Nat) (a : Addr) (slot : Term × Term) : (applySlotDelta m a slot).Holds m := by
  intro h
  have hmat := holds_materializeAt m a h
  unfold applySlotDelta
  split
  · dsimp only
    split
    · split
      · exact hmat.trans (holds_writeStorageSlot ..)
      · exact hmat
    · exact hmat
  · exact .refl m none h

theorem storageDelta (m : Nat) (a : Addr) (stateMap : Term) :
    (applyStorageDelta m a stateMap).Holds m := by
  unfold applyStorageDelta
  split
  · exact fail _
  · exact forEach (slotDelta m a) _

theorem differenceItem (head : Term) : (applyDifferenceItem sha m head).Holds m := by
  unfold applyDifferenceItem
  split
  · exact fail _
  · split
    · exact ensure.seq ((whenSome (storageDelta m _) _).seq
        ((forEach (fun f => whenSome (fieldDelta m _ f) _) _).seq sealEntry))
    · exact fail _

theorem difference (delta : Term) : (applyDifference sha m delta).Holds m := by
  unfold applyDifference
  split
  · exact writeable (forEach differenceItem _)
  · exact fail _

theorem putItem (head : Term) : (storagePutItem sha m head).Holds m := by
  have hslot : ∀ (a : Addr) (kv : Term), (storagePutSlot m a kv).Holds m := by
    intro a kv h
    unfold storagePutSlot
    split
    · exact .refl m none h
    · exact holds_writeStorageSlot ..
  unfold storagePutItem
  split
  · exact fail _
  · split
    · exact fail _
    · split
      · exact ensure.seq ((forEach (hslot _) _).seq sealEntry)
      · exact fail _

theorem putMap (updates : Term) : (storagePutMap sha m updates).Holds m := by
  unfold storagePutMap
  split
  · exact writeable (forEach putItem _)
  · exact fail _

theorem putKeep (nonce : BitVec 64) (balance : Word) (code : Bytes) :
    (Diode.L3.putKeep sha m a nonce balance code).Holds m := by
  intro h
  have hens := holds_ensureAccountEntry h m a
  unfold Diode.L3.putKeep
  dsimp only
  split
  · exact hens
  · rename_i e he
    refine (hens.trans (holds_setEntry _ fun mt _ ho => ?_)).trans (holds_updateStateTrie ..)
    rw [← ho, own_entry he]

end Run.Holds

namespace Heap
variable {sha : Bytes → Word} {h h' h'' : Heap} {m n : Nat} {a : Addr} {e : AccountEntry} {v : View}
    {cut : Option Addr}

theorem releaseEntryStorage_maps (h : Heap) (e : AccountEntry) :
    (h.releaseEntryStorage e).maps = h.maps ∧
    (h.releaseEntryStorage e).nextMap = h.nextMap ∧ (h.releaseEntryStorage e).compacts =
      h.compacts := by
  unfold releaseEntryStorage
  split <;> exact ⟨rfl, rfl, rfl⟩

/-- A storage of its own in place of the one account `a` has. -/
theorem holds_putStorage (nonce : BitVec 64) (balance : Word) (storage : Tree)
    (code : Bytes) (h : Heap) :
    Holds m (some a) h (putStorage sha m a nonce balance storage code h).1 := by
  have hrel : Holds m (some a) h ((h.entry m a).elim h h.releaseEntryStorage) := by
    cases h.entry m a with
    | none => exact .refl m _ h
    | some e =>
      obtain ⟨h1, h2, h3⟩ := releaseEntryStorage_maps h e
      exact .of_maps h1 h2 h3
  unfold putStorage
  dsimp only
  exact (hrel.trans (holds_setEntry _ fun _ hcut _ => absurd rfl hcut)).trans
    (holds_updateStateTrie ..).weaken

theorem holds_delete (h : Heap) (m : Nat) (a : Addr) :
    Holds m (some a) h (match h.maps m, h.entry m a with
    | some s, some e =>
      ((h.releaseEntryStorage e).setMap m
        { s with accounts := s.accounts.del a }).removeStateTrieEntry m a
    | _, _ => h) := by
  cases hs : h.maps m with
  | none => exact .refl m _ h
  | some s =>
    cases he : h.entry m a with
    | none => exact .refl m _ h
    | some e =>
      obtain ⟨h1, h2, h3⟩ := releaseEntryStorage_maps h e
      refine Holds.trans
        (?_ : Holds m (some a) h
          ((h.releaseEntryStorage e).setMap m { s with accounts := s.accounts.del a }))
        (holds_insertStateTrieHash ..)
      refine ⟨h2, fun b mt hcut ho => ?_, fun c cs' hcs => ⟨cs', by rw [← h3]; exact hcs, rfl⟩⟩
      rw [own_setMap (t := { s with accounts := s.accounts.del a }) ((congrFun h1 m).trans hs)
        (replaces_del _ a) rfl,
        update_of_ne fun e' => hcut (by cases e'; rfl), ← ho]
      show ((h.releaseEntryStorage e).entry m b).bind _ = (h.entry m b).bind _
      unfold entry
      rw [h1]


/-! ## What a routine does to the world -/

variable {W : List Addr} {b : Addr} {mt : Nat}

/-- Whoever stands on an old storage after a call on map `m` did so before. -/
theorem own_before (hw : Within h h' m W) (hlt : mt < h.res.nextMt)
    (ho : h'.own (.entry n a) = some mt) :
    h.own (.entry n a) = some mt := by
  by_cases hn : n = m
  · subst hn
    rcases hw.own a mt ho with ho | hle
    · exact ho
    · omega
  · rw [← ho]
    exact (hw.own_other (o := .entry n a) hn).symm

theorem own_after (hw : Within h h' m W) (hh : Holds m cut h h') (hc : ¬(n = m ∧ cut = some a))
    (ho : h.own (.entry n a) = some mt) : h'.own (.entry n a) = some mt := by
  by_cases hn : n = m
  · subst hn
    exact hh.own a mt (fun e => hc ⟨rfl, e⟩) ho
  · rw [← ho]
    exact hw.own_other (o := .entry n a) hn

/-- A storage that accounts of two maps stand on is an old one. -/
theorem old_of_shared (hk : Ok sha h) (hw : Within h h' m W) {k : Nat} (hne : k ≠ n)
    (h1 : h'.own (.entry k a) = some mt)
    (h2 : h'.own (.entry n b) = some mt) : mt < h.res.nextMt := by
  by_cases hkm : k = m
  · exact hk.held.own_lt ((hw.own_other (o := .entry n b) fun e => hne (hkm.trans e.symm)).symm.trans h2)
  · exact hk.held.own_lt ((hw.own_other (o := .entry k a) hkm).symm.trans h1)

/-- After a call that keeps the owners of storages but for `cut`. -/
theorem shares_after (hk : Ok sha h) (hw : Within h h' m W) (hh : Holds m cut h h')
    (hcut : ∀ a mt, cut = some a → h'.own (.entry m a) = some mt → h.res.nextMt ≤ mt) (k : Nat)
      (a : Addr) (n : Nat) (b : Addr) :
    h'.world.shares k a n b ↔ h.world.shares k a n b ∧ ¬(k = m ∧ cut = some a) ∧
      ¬(n = m ∧ cut = some b) := by
  refine ⟨?_, ?_⟩
  · intro hx
    obtain ⟨hne, mt, h1, h2⟩ := hx
    have hlt := old_of_shared hk hw hne h1 h2
    refine ⟨⟨hne, mt, own_before hw hlt h1, own_before hw hlt h2⟩, fun hc => ?_, fun hc => ?_⟩
    · have := hcut a mt hc.2 (hc.1 ▸ h1)
      omega
    · have := hcut b mt hc.2 (hc.1 ▸ h2)
      omega
  · intro hx
    obtain ⟨⟨hne, mt, h1, h2⟩, hc1, hc2⟩ := hx
    exact ⟨hne, mt, own_after hw hh hc1 h1, own_after hw hh hc2 h2⟩

theorem world_replace (hk : Ok sha h) (hm : Moves sha m [] h h' v) (hh : Holds m cut h h')
    (hcut : ∀ a mt, cut = some a → h'.own (.entry m a) = some mt → h.res.nextMt ≤ mt) :
    h'.world = h.world.replace m v cut := by
  apply World.ext
  · exact hh.nextMap
  · funext n
    show h'.view n = update h.view m (some v) n
    by_cases hn : n = m
    · rw [hn, update_self]
      exact hm.view
    · rw [update_of_ne hn]
      exact hm.within.frame hk hn nofun
  · funext k a n b
    exact propext (shares_after hk hm.within hh hcut k a n b)

/-- A call that shows nothing. -/
theorem world_kept (hk : Ok sha h) (hv : h.view m = some v) (hm : Moves sha m [] h h' v)
    (hh : Holds m none h h') :
    h'.world = h.world := by
  rw [world_replace hk hm hh nofun]
  apply World.ext
  · rfl
  · exact update_eq_self_iff.2 hv.symm
  · funext k a n b
    exact propext ⟨fun hs => hs.1, fun hs => ⟨hs, nofun, nofun⟩⟩

open Classical in
/-- A call that writes storages in place. -/
theorem world_write (hk : Ok sha h) (hm : Moves sha m W h h' v) (hh : Holds m none h h') :
    h'.world = h.world.write m v := by
  apply World.ext
  · exact hh.nextMap
  · funext n
    show h'.view n = if n = m then some v else (h.view n).map _
    by_cases hn : n = m
    · rw [if_pos hn, hn, hm.view]
    rw [if_neg hn]
    unfold view
    rw [hm.within.maps n hn]
    cases hs : h.maps n with
    | none => rfl
    | some s =>
      have htrie : h'.res.tree s.state_trie = h.res.tree s.state_trie :=
        hm.within.trees (.trie n) _ hn (own_trie hs) fun a _ ho => by cases hk.trie_own hs ho
      have haccs : s.accounts.map h'.account = (s.accounts.map h.account).mapKey fun b acc =>
          if hsh : ∃ a, h.world.shares m a n b then { acc with storage := v.storage hsh.choose }
            else acc := by
        apply SMap.ext
        intro b
        rw [SMap.get_map, SMap.get_mapKey, SMap.get_map]
        cases he : s.accounts.get b with
        | none => rfl
        | some e =>
          have hent : h.entry n b = some e := (entry_of_map hs b).trans he
          have hacc : h'.account e = if hsh : ∃ a, h.world.shares m a n b then
              { h.account e with storage := v.storage hsh.choose } else h.account e := by
            by_cases hsh : ∃ a, h.world.shares m a n b
            · -- the storage is that of an account of `m`, which shows it
              rw [dif_pos hsh]
              obtain ⟨-, mt, h1, h2⟩ := hsh.choose_spec
              generalize hsh.choose = a at h1
              obtain ⟨x, hx, hst⟩ := Option.bind_eq_some_iff.1 (hh.own a mt nofun h1)
              have htree : v.storage a = h'.res.tree mt := by
                rw [← storage_eq hm.view, hx, Option.elim_some, storageOf, hst]
              have hmt : e.storage = some mt := (own_entry hent).symm.trans h2
              rw [htree]
              unfold account storageOf
              rw [hmt]
            · rw [dif_neg hsh]
              refine account_eq hk hent (fun mt hmt => ?_) hm.within.slots
              have h2 : h.own (.entry n b) = some mt := (own_entry hent).trans hmt
              exact hm.within.trees (.entry n b) mt hn h2 fun a _ h1 =>
                hsh ⟨a, fun e' => hn e'.symm, mt, h1, h2⟩
          exact congrArg some hacc
      rw [Option.map_some, Option.map_some, Option.map_some, htrie, haccs]
  · funext k a n b
    exact propext ((shares_after hk hm.within hh nofun k a n b).trans ⟨fun hs => hs.1, fun hs => ⟨hs, nofun, nofun⟩⟩)

/-- A call that makes a map with storages of its own. -/
theorem world_add (hk : Ok sha h) (hb : Builds sha h.nextMap h h' v) (hn : h'.nextMap = h.nextMap + 1)
    (hf : ∀ b mt, h'.own (.entry h.nextMap b) = some mt → h.res.nextMt ≤ mt) :
      h'.world = h.world.add v := by
  have hnone : ∀ b, h.own (.entry h.nextMap b) = none := fun b => by
    show ((h.maps h.nextMap).bind _).bind _ = none
    rw [hk.freshMap _ (le_refl _)]
    rfl
  apply World.ext
  · exact hn
  · funext n
    show h'.view n = update h.view h.nextMap (some v) n
    by_cases hne : n = h.nextMap
    · rw [hne, update_self, hb.view]
    · rw [update_of_ne hne]
      exact hb.beside.frame hk hne
  · funext k a n b
    refine propext (and_congr_right fun hne => exists_congr fun mt => ?_)
    by_cases hkn : k = h.nextMap
    · subst hkn
      rw [hb.beside.own_other (o := .entry n b) fun e => hne e.symm, hnone a]
      refine ⟨fun hs => ?_, fun hs => nomatch hs.1⟩
      have := hf a mt hs.1
      have := hk.held.own_lt hs.2
      omega
    · rw [hb.beside.own_other (o := .entry k a) hkn]
      by_cases hnn : n = h.nextMap
      · subst hnn
        rw [hnone b]
        refine ⟨fun hs => ?_, fun hs => nomatch hs.2⟩
        have := hf b mt hs.2
        have := hk.held.own_lt hs.1
        omega
      · rw [hb.beside.own_other (o := .entry n b) hnn]

/-- The destructor of a handle. -/
theorem world_remove (hk : Ok sha h) (hb : Beside h h' m) (hg : h'.maps m = none)
    (hn : h'.nextMap = h.nextMap) :
    h'.world = h.world.remove m := by
  have hnone : ∀ b, h'.own (.entry m b) = none := fun b => by
    show ((h'.maps m).bind _).bind _ = none
    rw [hg]
    rfl
  apply World.ext
  · exact hn
  · funext n
    show h'.view n = update h.view m none n
    by_cases hne : n = m
    · rw [hne, update_self, view, hg]
      rfl
    · rw [update_of_ne hne]
      exact hb.frame hk hne
  · funext k a n b
    apply propext
    refine ⟨?_, ?_⟩
    · intro hx
      obtain ⟨hne, mt, h1, h2⟩ := hx
      have hkm : k ≠ m := fun e => by
        rw [e, hnone a] at h1
        cases h1
      have hnm : n ≠ m := fun e => by
        rw [e, hnone b] at h2
        cases h2
      rw [hb.own_other (o := .entry k a) hkm] at h1
      rw [hb.own_other (o := .entry n b) hnm] at h2
      exact ⟨hkm, hnm, hne, mt, h1, h2⟩
    · intro hx
      obtain ⟨hkm, hnm, hne, mt, h1, h2⟩ := hx
      exact ⟨hne, mt, (hb.own_other (o := .entry k a) hkm).trans h1,
        (hb.own_other (o := .entry n b) hnm).trans h2⟩

/-! ## Writes to one account -/

/-- A call cuts `cut` from its storage, and from no other account. -/
structure Cuts (m : Nat) (cut : Option Addr) (h h' : Heap) : Prop where
  holds : Holds m cut h h'
  fresh : ∀ a mt, cut = some a → h'.own (.entry m a) = some mt → h.res.nextMt ≤ mt

theorem Holds.cuts (hh : Holds m none h h') : Cuts m none h h' := ⟨hh, nofun⟩

theorem putStorage_cuts (hk : Ok sha h) {s : SharedAccountMap} (hs : h.maps m = some s)
    (nonce : BitVec 64) (balance : Word)
    (storage : Tree) (code : Bytes) :
      Cuts m (some a) h (putStorage sha m a nonce balance storage code h).1 := by
  refine ⟨holds_putStorage nonce balance storage code h, fun b mt hb ho => ?_⟩
  obtain rfl := Option.some.inj hb
  obtain ⟨res, hq, -, hn, -⟩ := release_entry (m := m) hk a
  unfold putStorage at ho
  dsimp only at ho
  rw [hq] at ho
  have hset := congrFun (@own_setEntry h m a ⟨nonce, balance, some res.alloc.1, none, code⟩ s hs
    (res.alloc.2.modifyTree res.alloc.1 fun _ => storage)) (.entry m a)
  rw [update_self] at hset
  have hafter := (@holds_updateStateTrie sha _ m a).own a _ nofun hset
  obtain rfl := Option.some.inj (hafter.symm.trans ho)
  exact le_of_eq hn.symm

theorem delete_cuts (h : Heap) (m : Nat) (a : Addr) :
    Cuts m (some a) h (match h.maps m, h.entry m a with
    | some s, some e =>
      ((h.releaseEntryStorage e).setMap m
        { s with accounts := s.accounts.del a }).removeStateTrieEntry m a
    | _, _ => h) := by
  refine ⟨holds_delete h m a, fun b mt hb ho => ?_⟩
  obtain rfl := Option.some.inj hb
  have hnone : ∀ q : Heap, q.entry m a = none → q.own (.entry m a) ≠ some mt := fun q he ho => by
    obtain ⟨e, he', -⟩ := Option.bind_eq_some_iff.1 ho
    rw [he] at he'
    cases he'
  refine absurd ho (hnone _ ?_)
  cases hs : h.maps m with
  | none =>
    unfold entry
    rw [hs]
    rfl
  | some s =>
    cases he : h.entry m a with
    | none => exact he
    | some e =>
      have hmaps : ∀ q : Heap, (q.removeStateTrieEntry m a).maps = q.maps := fun q => by
        unfold removeStateTrieEntry insertStateTrieHash
        split <;> rfl
      dsimp only
      unfold entry
      rw [hmaps, maps_setMap, update_self, Option.bind_some, SMap.get_del, if_pos rfl]

/-- A write that goes through only where the map can be written. -/
theorem writeable_cuts {op : Op} {f : Run} (hf : ∀ s, h.maps m = some s → (f h).2 = none ∧
    Cuts m (op.cut none) h (f h).1) :
    Cuts m (op.cut (makeWriteableAccountmap m f h).2) h (makeWriteableAccountmap m f h).1 := by
  unfold makeWriteableAccountmap
  cases hs : h.maps m with
  | none => exact (Holds.refl m none h).cuts
  | some s =>
    dsimp only
    cases s.frozen with
    | true => exact (Holds.refl m none h).cuts
    | false =>
      obtain ⟨h1, h2⟩ := hf s hs
      rw [if_neg nofun, h1]
      exact h2

theorem put_cuts (hk : Ok sha h) (addr nonce balance storage code : Term) :
    Cuts m ((Op.put m addr nonce balance storage code).cut
      (accountMapPut sha m addr nonce balance storage code h).2) h
      (accountMapPut sha m addr nonce balance storage code h).1 := by
  have hcut : (Op.put m addr nonce balance storage code).cut none =
      if storage.isAtom .keep then none else addr.getAddress := rfl
  unfold accountMapPut
  cases ha : addr.getAddress with
  | none => exact (Holds.refl m none h).cuts
  | some a =>
    cases nonce.getUint64 with
    | none => exact (Holds.refl m none h).cuts
    | some n =>
      cases balance.getBalance with
      | none => exact (Holds.refl m none h).cuts
      | some b =>
        cases code.getCode with
        | none => exact (Holds.refl m none h).cuts
        | some c =>
          dsimp only
          cases hkeep : storage.isAtom .keep with
          | true =>
            rw [if_pos rfl]
            refine writeable_cuts fun s hs => ⟨?_, ?_⟩
            · unfold putKeep
              dsimp only
              split <;> rfl
            · rw [hcut, hkeep, if_pos rfl]
              exact (Run.Holds.putKeep n b c h).cuts
          | false =>
            rw [if_neg nofun]
            cases storage.storagePayload with
            | none => exact (Holds.refl m none h).cuts
            | some t =>
              refine writeable_cuts fun s hs => ⟨rfl, ?_⟩
              rw [hcut, hkeep, if_neg nofun, ha]
              exact putStorage_cuts hk hs n b t c

theorem accountMapDelete_cuts (h : Heap) (m : Nat) (addr : Term) :
    Cuts m ((Op.delete m addr).cut (accountMapDelete m addr h).2) h (accountMapDelete m addr h).1 := by
  have hcut : (Op.delete m addr).cut none = addr.getAddress := rfl
  unfold accountMapDelete
  cases ha : addr.getAddress with
  | none => exact (Holds.refl m none h).cuts
  | some a =>
    refine writeable_cuts fun s hs => ?_
    have hd := delete_cuts h m a
    rw [hcut, ha]
    rw [hs] at hd ⊢
    cases he : h.entry m a with
    | none =>
      rw [he] at hd
      exact ⟨rfl, hd⟩
    | some e =>
      rw [he] at hd
      exact ⟨rfl, hd⟩

/-! ## Reading -/

/-- Every compact storage holds non-zero words only. -/
def NonZero (h : Heap) : Prop := ∀ c cs, h.compacts c = some cs → ∀ p ∈ cs.slots, p.2 ≠ 0

theorem Holds.nonZero (hh : Holds m cut h h') (hz : h.NonZero) : h'.NonZero := by
  intro c cs' hcs
  obtain ⟨cs, hc, e⟩ := hh.slots c cs' hcs
  rw [e]
  exact hz c cs hc

theorem holds_toList : ∀ (l : List (Addr × AccountEntry)) (acc : Heap × Term), Holds m none acc.1
    (l.foldl (listEntry sha) acc).1
  | [], acc => .refl m none acc.1
  | p :: l, acc => by
    rw [List.foldl_cons]
    exact Holds.trans (holds_storageRootHash acc.1 p.2) (holds_toList l (listEntry sha acc p))

theorem holds_storageRoots (h : Heap) (m : Nat) (a : Addr) :
    Holds m none h (h.accountMapStorageRoots sha m a).1 := by
  unfold accountMapStorageRoots
  split
  · exact .refl m none h
  · split
    · exact .refl m none h
    · exact holds_storageRootHash ..
    · exact holds_materializeAt m a h

theorem holds_ask (h : Heap) (m : Nat) (q : Query) : Holds m none h (h.ask sha m q).1 := by
  unfold ask
  split
  · exact .refl m none h
  · cases q with
    | get addr =>
      dsimp only
      split
      · exact .refl m none h
      · split
        · exact .refl m none h
        · exact holds_storageRootHash ..
    | toList => exact holds_toList _ (h, .nil)
    | storage addr spec =>
      dsimp only
      split
      · exact .refl m none h
      · split
        · exact .refl m none h
        · exact holds_materializeAt m _ h
    | storageRoots addr =>
      dsimp only
      split
      · exact .refl m none h
      · exact holds_storageRoots h m _
    | proof addr =>
      dsimp only
      split <;> exact .refl m none h
    | storageProof addr key =>
      dsimp only
      split
      · exact holds_materializeAt m _ h
      · exact .refl m none h
    | _ => exact .refl m none h

theorem holds_entriesEqual (h : Heap) (x y : AccountEntry) :
    Holds m none h (h.entriesEqual sha x y).1 := by
  unfold entriesEqual
  split
  · split
    · exact .refl m none h
    · exact (holds_storageRootHash h x).trans (holds_storageRootHash ..)
  · exact .refl m none h

theorem holds_collectDiffs {ma mb : Nat} : ∀ (l : List Addr) (h : Heap), Holds m none h
    (h.collectDiffs sha ma mb l).1
  | [], h => .refl m none h
  | a :: l, h => by
    unfold collectDiffs
    split
    · exact holds_collectDiffs l h
    · exact (holds_entriesEqual h _ _).trans (holds_collectDiffs l _)
    · exact holds_collectDiffs l h

theorem holds_rootForDiffSide (h : Heap) (x : Option AccountEntry) :
    Holds m none h (h.rootForDiffSide sha x).1 := by
  cases x with
  | none => exact .refl m none h
  | some e => exact holds_storageRootHash h e

theorem holds_diffEntries : ∀ (l : List (Addr × Option AccountEntry × Option AccountEntry))
    (h : Heap) (out : List DiffEntry),
    Holds m none h (h.diffEntries sha out l).1
  | [], h, out => .refl m none h
  | i :: l, h, out => by
    unfold diffEntries
    exact ((holds_rootForDiffSide h _).trans (holds_rootForDiffSide _ _)).trans
      (holds_diffEntries l _ _)

theorem holds_differenceFull (h : Heap) (ma mb : Nat) :
    Holds m none h (h.differenceFull sha ma mb).1 := by
  unfold differenceFull
  split
  · split
    · exact .refl m none h
    · split
      · exact .refl m none h
      · exact (holds_collectDiffs _ h).trans (holds_diffEntries ..)
  · exact .refl m none h

/-! ## The compact term -/

theorem isSome_foldl_put {k : Bytes} : ∀ (l : List Pair) (c : SMap Bytes Word),
    (c.get k).isSome = true →
    ((l.foldl (fun m s => m.put s.1 s.2) c).get k).isSome = true
  | [], _, hc => hc
  | p :: l, c, hc => by
    rw [List.foldl_cons]
    apply isSome_foldl_put l
    rw [SMap.get_put]
    split
    · rfl
    · exact hc

/-- The items of a list of non-zero slots are those of its tree. -/
theorem items_ofSlots {slots : List Pair} (hz : ∀ p ∈ slots, p.2 ≠ 0) :
    (if slots.isEmpty then none else some (compactItems slots)) = (Tree.ofSlots slots).items := by
  have hget : ∀ (l : List Pair) (c : SMap Bytes Word), (∀ p ∈ l, p.2 ≠ 0) → (∀ k, c.get k ≠ some 0) →
      ∀ k, (l.foldl (fun m s => m.put s.1 s.2) c).get k ≠ some 0 := by
    intro l
    induction l with
    | nil => exact fun _ _ hc => hc
    | cons p l ih =>
      intro c hl hc
      apply ih _ fun q hq => hl q (List.mem_cons_of_mem _ hq)
      intro k
      rw [SMap.get_put]
      split
      · exact fun e => hl p List.mem_cons_self (Option.some.inj e)
      · exact hc k
  have heq : slots.foldl (fun m s => m.put s.1 s.2) SMap.empty = (Tree.ofSlots slots).slots := by
    apply SMap.ext
    intro k
    have hread := Tree.read_foldl_insertItem k slots Tree.empty SMap.empty rfl
    have hk := hget slots SMap.empty hz nofun k
    rw [Tree.get_eq]
    unfold Tree.ofSlots
    rw [hread]
    cases hg : (slots.foldl (fun m s => m.put s.1 s.2) SMap.empty).get k with
    | none => rfl
    | some w =>
      rw [hg] at hk
      rw [Option.getD_some, if_neg fun e => hk (by rw [e])]
  unfold Tree.items compactItems
  rw [heq]
  cases slots with
  | nil => rfl
  | cons p l =>
    have hne : (Tree.ofSlots (p :: l)).pairs ≠ [] := by
      intro e
      have hsome : (((p :: l).foldl (fun m s => m.put s.1 s.2) SMap.empty).get p.1).isSome = true :=
        isSome_foldl_put l _ (by rw [SMap.get_put_self]; rfl)
      rw [heq, SMap.get, show (Tree.ofSlots (p :: l)).slots.entries = [] from e] at hsome
      cases hsome
    rw [if_neg nofun, if_neg (by simpa using hne)]
    rfl

/-- `build_compact_storage_items` lists what the tree holds, live or not. -/
theorem buildCompactStorageItems_eq (hz : h.NonZero) (e : AccountEntry) :
    h.buildCompactStorageItems e = (h.storageOf e).items := by
  unfold buildCompactStorageItems storageOf
  cases e.storage with
  | some mt =>
    have hpairs : compactItems (h.res.tree mt).pairs = (h.res.tree mt).pairs :=
      congrArg SMap.entries (SMap.foldl_entries (h.res.tree mt).slots)
    dsimp only
    rw [hpairs]
    rfl
  | none =>
    refine items_ofSlots fun p hp => ?_
    unfold slots at hp
    cases hc : e.compact_storage.bind h.compacts with
    | none =>
      rw [hc] at hp
      cases hp
    | some cs =>
      obtain ⟨c, -, hcs⟩ := Option.bind_eq_some_iff.1 hc
      rw [hc] at hp
      exact hz c cs hcs p hp

theorem makeCompactAccountTerm_eq (hk : Ok sha h) (hz : h.NonZero) (he : h.entry m a = some e) :
    (h.makeCompactAccountTerm sha e).2 = (h.account e).compact sha := by
  obtain ⟨hroot, hf⟩ := storageRootHashForEntry_fills hk he
  have hst : (h.storageRootHashForEntry sha e).1.storageOf e = h.storageOf e :=
    congrArg Account.storage (hf.account hk he)
  have hitems := buildCompactStorageItems_eq ((@holds_storageRootHash sha m none h e).nonZero hz) e
  unfold makeCompactAccountTerm Account.compact
  dsimp only
  rw [hitems, hst, hroot]
  rfl

theorem compactAccounts_eq {h : Heap} : ∀ (l : List (Addr × AccountEntry)) (q : Heap), Ok sha h →
    Fills sha h q → q.NonZero →
    (∀ p ∈ l, h.entry m p.1 = some p.2) → (q.compactAccounts sha l).2 = l.map
      (fun p => (.ofAddr p.1, (h.account p.2).compact sha)) ∧
      Holds m none q (q.compactAccounts sha l).1
  | [], q, _, _, _, _ => ⟨rfl, .refl m none q⟩
  | p :: l, q, hk, hf, hz, hl => by
    have he : h.entry m p.1 = some p.2 := hl p List.mem_cons_self
    have he' : q.entry m p.1 = some p.2 := (hf.entry m p.1).trans he
    have hh : Holds m none q (q.makeCompactAccountTerm sha p.2).1 := holds_storageRootHash q p.2
    have hf' : Fills sha q (q.makeCompactAccountTerm sha p.2).1 :=
      (storageRootHashForEntry_fills hf.ok he').2
    obtain ⟨h1, h2⟩ := compactAccounts_eq l _ hk (hf.trans hf') (hh.nonZero hz) fun r hr =>
      hl r (List.mem_cons_of_mem _ hr)
    unfold compactAccounts
    dsimp only
    rw [h1, makeCompactAccountTerm_eq hf.ok hz he', hf.account hk he]
    exact ⟨rfl, hh.trans h2⟩

/-- **`account_map_compact`** gives the compact term of the view. -/
theorem accountMapCompact_eq (hk : Ok sha h) (hz : h.NonZero) (hv : h.view m = some v) :
    (h.accountMapCompact sha m).2 = some (v.compact sha) ∧
      Holds m none h (h.accountMapCompact sha m).1 := by
  obtain ⟨s, hs, -, -, ha⟩ := view_some hv
  obtain ⟨h1, h2⟩ := compactAccounts_eq s.accounts.entries h hk (Fills.refl hk) hz fun p hp =>
    (entry_of_map hs p.1).trans ((s.accounts.mem_iff p.1 p.2).1 hp)
  unfold accountMapCompact View.compact
  rw [hs]
  dsimp only
  rw [h1, ha]
  refine ⟨?_, h2⟩
  show _ = some (Term.map ((s.accounts.entries.map _).map _))
  rw [List.map_map]
  rfl

/-! ## New maps -/

/-- One handle more, and compact storages of non-zero words as before. -/
structure Grows (h h' : Heap) : Prop where
  nextMap : h'.nextMap = h.nextMap + 1
  nonZero : h.NonZero → h'.NonZero

theorem forkEntry_rest (n : Nat) (acc : Heap × List (Nat × Nat)) (p : Addr × AccountEntry) :
    (forkEntry n acc p).1.nextMap = acc.1.nextMap ∧ (forkEntry n acc p).1.compacts =
      acc.1.compacts := by
  obtain ⟨q, clones⟩ := acc
  unfold forkEntry
  dsimp only
  split
  · split <;> simp
  · simp

theorem clone_grows (he : h.accountMapClone m = some (n, h')) : Grows h h' := by
  have hfold : ∀ (l : List (Addr × AccountEntry)) (acc : Heap × List (Nat × Nat)),
      (l.foldl (forkEntry h.nextMap) acc).1.nextMap = acc.1.nextMap ∧
        (l.foldl (forkEntry h.nextMap) acc).1.compacts = acc.1.compacts := by
    intro l
    induction l with
    | nil => exact fun _ => ⟨rfl, rfl⟩
    | cons p l ih =>
      intro acc
      obtain ⟨h1, h2⟩ := forkEntry_rest h.nextMap acc p
      obtain ⟨h3, h4⟩ := ih (forkEntry h.nextMap acc p)
      exact ⟨h3.trans h1, h4.trans h2⟩
  obtain ⟨s, -, hs⟩ := Option.map_eq_some_iff.1 he
  cases hs
  obtain ⟨h1, h2⟩ := hfold s.accounts.entries
    ({ { h with res := (h.res.clone s.state_trie).2 }.setMap h.nextMap
    ⟨false, (h.res.clone s.state_trie).1, SMap.empty⟩ with nextMap := h.nextMap + 1 }, [])
  refine ⟨h1, fun hz c cs hcs => hz c cs ?_⟩
  rw [← hcs]
  exact (congrFun h2 c).symm

theorem uncompactParsed_rest (n : Nat) (acc : Heap × List (Addr × Word))
    {p : Addr × ParsedCompactAccount}
    (hp : ∀ s ∈ p.2.slots.getD [], s.2 ≠ 0) : (uncompactParsed sha n acc p).1.nextMap = acc.1.nextMap ∧
      (acc.1.NonZero → (uncompactParsed sha n acc p).1.NonZero) := by
  have hentry : (acc.1.compactEntry p.2).1.nextMap = acc.1.nextMap ∧
    (acc.1.NonZero → (acc.1.compactEntry p.2).1.NonZero) := by
    unfold compactEntry
    cases hs : p.2.slots with
    | none => exact ⟨rfl, fun hz => hz⟩
    | some slots =>
      refine ⟨rfl, fun hz c cs hcs => ?_⟩
      change update acc.1.compacts acc.1.nextCompact (some ⟨slots, p.2.compact_root_hash⟩) c =
        some cs at hcs
      by_cases hc : c = acc.1.nextCompact
      · rw [hc, update_self, Option.some.injEq] at hcs
        rw [← hcs]
        rwa [hs] at hp
      · rw [update_of_ne hc] at hcs
        exact hz c cs hcs
  have happend : ∀ (q : Heap) (pending : List (Addr × Word)) (e : AccountEntry) (r c : Option Word),
      (appendUncompactedAccount sha n (q, pending) p.1 e r c).1.nextMap = q.nextMap ∧
        (appendUncompactedAccount sha n (q, pending) p.1 e r c).1.compacts = q.compacts := by
    intro q pending e r c
    unfold appendUncompactedAccount materializeStorage
    dsimp only
    split
    · split
      · split <;> simp
      · simp
    · split <;> simp
  obtain ⟨h1, h2⟩ := happend (acc.1.compactEntry p.2).1 acc.2 (acc.1.compactEntry p.2).2
    p.2.compact_root_hash
    p.2.compact_code_hash
  refine ⟨h1.trans hentry.1, fun hz c cs hcs => hentry.2 hz c cs ?_⟩
  rw [← hcs]
  exact (congrFun h2 c).symm

theorem uncompactTerm_grows {t : Term} {l : List (Addr × ParsedCompactAccount)}
    (hl : parseCompactState t = some l)
    (hz : ∀ p ∈ l, ∀ s ∈ p.2.slots.getD [], s.2 ≠ 0) (he : h.uncompactTerm sha t = some (n, h')) :
      Grows h h' := by
  have hfold : ∀ (l : List (Addr × ParsedCompactAccount)) (acc : Heap × List (Addr × Word)),
      (∀ p ∈ l, ∀ s ∈ p.2.slots.getD [], s.2 ≠ 0) →
      (l.foldl (uncompactParsed sha h.nextMap) acc).1.nextMap = acc.1.nextMap ∧
        (acc.1.NonZero → (l.foldl (uncompactParsed sha h.nextMap) acc).1.NonZero) := by
    intro l
    induction l with
    | nil => exact fun _ _ => ⟨rfl, fun hz => hz⟩
    | cons p l ih =>
      intro acc hl
      obtain ⟨h1, h2⟩ := @uncompactParsed_rest sha h.nextMap acc p (hl p List.mem_cons_self)
      obtain ⟨h3, h4⟩ := ih (uncompactParsed sha h.nextMap acc p) fun q hq =>
        hl q (List.mem_cons_of_mem _ hq)
      exact ⟨h3.trans h1, fun hz => h4 (h2 hz)⟩
  unfold uncompactTerm at he
  rw [hl, Option.map_some, Option.some.injEq, Prod.mk.injEq] at he
  obtain ⟨-, rfl⟩ := he
  obtain ⟨h1, h2⟩ := hfold l (h.accountMapNew.2, []) hz
  have hbatch : ∀ (q : Heap) (items : List (Addr × Word)),
    (q.batchInsertStateItems h.nextMap items).nextMap = q.nextMap ∧
      (q.batchInsertStateItems h.nextMap items).compacts = q.compacts := by
    intro q items
    unfold batchInsertStateItems
    split <;> exact ⟨rfl, rfl⟩
  obtain ⟨h3, h4⟩ := hbatch (l.foldl (uncompactParsed sha h.nextMap) (h.accountMapNew.2, [])).1
    (l.foldl (uncompactParsed sha h.nextMap) (h.accountMapNew.2, [])).2
  refine ⟨h3.trans h1, fun hz c cs hcs => h2 hz c cs ?_⟩
  rw [← hcs]
  exact (congrFun h4 c).symm

theorem destruct_nonZero (hz : h.NonZero) : (h.destructAccountmap m).NonZero := by
  have hfold : ∀ (l : List (Addr × AccountEntry)) (q : Heap),
      (l.foldl (fun h p => h.releaseEntryStorage p.2) q).compacts = q.compacts := by
    intro l
    induction l with
    | nil => exact fun _ => rfl
    | cons p l ih => exact fun q => (ih _).trans (releaseEntryStorage_maps q p.2).2.2
  intro c cs hcs
  unfold destructAccountmap at hcs
  split at hcs
  · exact hz c cs hcs
  · rename_i s _
    exact hz c cs ((congrFun (hfold s.accounts.entries h) c).symm.trans hcs)

/-! ## One call -/

variable {op : Op}

/-- What a write does to the heap, to the world and to compact storages. -/
theorem write_world (hk : Ok sha h) (hv : h.view m = some v) (hw : op.writes = some m) :
    (h.step sha op).1.world = (h.world.call sha op).1 ∧ (h.step sha op).2 = (h.world.call sha op).2 ∧
      Ok sha (h.step sha op).1 ∧ (h.NonZero → (h.step sha op).1.NonZero) := by
  obtain ⟨hm, hr⟩ := write_performs hk hv hw
  have hview : h.world.views m = some v := hv
  cases op with
  | put n addr nonce balance storage code =>
    cases hw
    have hc := put_cuts (m := m) hk addr nonce balance storage code
    rw [(accountMapPut_performs hk hv addr nonce balance storage code).2] at hc
    rw [show (Op.put m addr nonce balance storage code).edits = putEdits addr nonce balance storage code from rfl,
      slotTargets_of_no_slots (putEdits_no_slots addr nonce balance storage code)] at hm
    unfold World.call
    dsimp only
    rw [hview]
    exact ⟨world_replace hk hm hc.holds hc.fresh, hr, hm.ok, hc.holds.nonZero⟩
  | delete n addr =>
    cases hw
    have hc := accountMapDelete_cuts h m addr
    rw [(accountMapDelete_performs hk hv addr).2] at hc
    rw [show (Op.delete m addr).edits = deleteEdits addr from rfl, slotTargets_of_no_slots
      (deleteEdits_no_slots addr)] at hm
    unfold World.call
    dsimp only
    rw [hview]
    exact ⟨world_replace hk hm hc.holds hc.fresh, hr, hm.ok, hc.holds.nonZero⟩
  | storagePutMap n updates =>
    cases hw
    have hh : Holds m none h (h.step sha (.storagePutMap m updates)).1 := Run.Holds.putMap updates h
    unfold World.call
    dsimp only
    rw [hview]
    exact ⟨world_write hk hm hh, hr, hm.ok, hh.nonZero⟩
  | applyDifference n delta =>
    cases hw
    have hh : Holds m none h (h.step sha (.applyDifference m delta)).1 := Run.Holds.difference delta h
    unfold World.call
    dsimp only
    rw [hview]
    exact ⟨world_write hk hm hh, hr, hm.ok, hh.nonZero⟩
  | _ => cases hw

theorem maps_none (hv : h.view m = none) : h.maps m = none := by
  cases hs : h.maps m with
  | none => rfl
  | some s => rw [view_of_map hs] at hv; cases hv

/-- The step of the machine: a call on the heap is that call on its world. -/
structure Simulates (sha : Bytes → Word) (h : Heap) (op : Op) : Prop where
  world : (h.step sha op).1.world = (h.world.call sha op).1
  reply : (h.step sha op).2 = (h.world.call sha op).2
  ok : Ok sha (h.step sha op).1
  nonZero : (h.step sha op).1.NonZero

theorem Simulates.of {r : Reply} {w : World} (hs : h.step sha op = (h', r))
    (hc : h.world.call sha op = (w, r))
    (hw : h'.world = w) (ok : Ok sha h') (nonZero : h'.NonZero) : Simulates sha h op where
  world := by rw [hs, hc, hw]
  reply := by rw [hs, hc]
  ok := by rwa [hs]
  nonZero := by rwa [hs]

/-- A call that finds no map. -/
theorem Simulates.gone (hk : Ok sha h) (hz : h.NonZero) {r : Reply} (hs : h.step sha op = (h, r))
    (hc : h.world.call sha op = (h.world, r)) : Simulates sha h op := .of hs hc rfl hk hz

theorem simulates_new (hk : Ok sha h) (hz : h.NonZero) : Simulates sha h .new := by
  obtain ⟨-, hb, hn, -⟩ := accountMapNew_builds hk
  refine .of rfl rfl (world_add hk hb hn fun b mt ho => ?_) hb.ok hz
  cases (own_of_absent (a := b) hb.view rfl).symm.trans ho

theorem simulates_clone (hk : Ok sha h) (hz : h.NonZero) (m : Nat) : Simulates sha h (.clone m) := by
  cases hv : h.view m with
  | none =>
    refine .gone (r := .fault .badarg) hk hz ?_ ?_
    · show replyHandle h (h.accountMapClone m) = _
      rw [accountMapClone, maps_none hv]
      rfl
    · show Option.elim (h.view m) _ _ = _
      rw [hv]
      rfl
  | some v =>
    obtain ⟨h', he, hb, hf⟩ := accountMapClone_builds hk hv
    have hg := clone_grows he
    refine .of (r := .handle h.nextMap) (w := h.world.add { v with frozen := false }) ?_ ?_
      (world_add hk hb hg.nextMap hf) hb.ok (hg.nonZero hz)
    · show replyHandle h (h.accountMapClone m) = _
      rw [he]
      rfl
    · show Option.elim (h.view m) _ _ = _
      rw [hv]
      rfl

theorem holds_lock (he : h.accountMapLock m = some h') : Holds m none h h' := by
  obtain ⟨s, hs, rfl⟩ := Option.map_eq_some_iff.1 he
  refine ⟨rfl, fun a mt _ ho => ?_, fun c cs' hcs => ⟨cs', hcs, rfl⟩⟩
  rw [← ho]
  show ((update h.maps m _ m).bind _).bind _ = ((h.maps m).bind _).bind _
  rw [update_self, hs]
  rfl

theorem simulates_lock (hk : Ok sha h) (hz : h.NonZero) (m : Nat) : Simulates sha h (.lock m) := by
  cases hv : h.view m with
  | none =>
    refine .gone (r := .fault .badarg) hk hz ?_ ?_
    · unfold step accountMapLock
      dsimp only
      rw [maps_none hv]
      rfl
    · show Option.elim (h.view m) _ _ = _
      rw [hv]
      rfl
  | some v =>
    obtain ⟨h', he, -, hm⟩ := accountMapLock_moves hk hv
    have hh := holds_lock he
    refine .of (r := .ok) (w := h.world.replace m { v with frozen := true } none) ?_ ?_
      (world_replace hk hm hh nofun) hm.ok (hh.nonZero hz)
    · unfold step
      dsimp only
      rw [he]
    · show Option.elim (h.view m) _ _ = _
      rw [hv]
      rfl

theorem simulates_destroy (hk : Ok sha h) (hz : h.NonZero) (m : Nat) :
    Simulates sha h (.destroy m) := by
  refine .of rfl rfl ?_ ?_ (destruct_nonZero hz)
  · cases hv : h.view m with
    | none =>
      have hd : h.destructAccountmap m = h := by
        unfold destructAccountmap
        rw [maps_none hv]
      rw [hd]
      exact world_remove hk (Beside.refl h m) (maps_none hv) rfl
    | some v =>
      obtain ⟨-, hg, hb, hn⟩ := destructAccountmap_spec hk hv
      exact world_remove hk hb hg hn
  · cases hv : h.view m with
    | none =>
      unfold destructAccountmap
      rw [maps_none hv]
      exact hk
    | some v => exact (destructAccountmap_spec hk hv).1

theorem simulates_compact (hk : Ok sha h) (hz : h.NonZero) (m : Nat) :
    Simulates sha h (.compact m) := by
  cases hv : h.view m with
  | none =>
    refine .gone (r := .fault .badarg) hk hz ?_ ?_
    · unfold step accountMapCompact
      dsimp only
      rw [maps_none hv]
    · show (h.world, Option.elim (h.view m) _ _) = _
      rw [hv]
      rfl
  | some v =>
    obtain ⟨hm, -⟩ := compact_spec hk hv
    obtain ⟨ht, hh⟩ := accountMapCompact_eq hk hz hv
    refine .of (r := .term (v.compact sha)) ?_ ?_ (world_kept hk hv hm hh) hm.ok
      (hh.nonZero hz)
    · unfold step
      dsimp only
      generalize h.accountMapCompact sha m = x at ht ⊢
      obtain ⟨q, t⟩ := x
      obtain rfl : t = some _ := ht
      rfl
    · show (h.world, Option.elim (h.view m) _ _) = _
      rw [hv]
      rfl

theorem simulates_uncompactTerm (hk : Ok sha h) (hz : h.NonZero) {t : Term}
    (hp : (Op.uncompactTerm t).Plain sha) :
    Simulates sha h (.uncompactTerm t) := by
  cases hl : parseCompactState t with
  | none =>
    refine .gone (r := .fault .badarg) hk hz ?_ ?_
    · show replyHandle h (h.uncompactTerm sha t) = _
      rw [uncompactTerm, hl]
      rfl
    · show Option.elim (parseCompactState t) _ _ = _
      rw [hl]
      rfl
  | some l =>
    obtain ⟨hnd, hon⟩ := hp l hl
    obtain ⟨h', he, hb, hf⟩ := uncompactTerm_builds hk hl hnd fun p hp => (hon p hp).1
    have hg := uncompactTerm_grows hl (fun p hp => (hon p hp).2) he
    refine .of (r := .handle h.nextMap)
      (w := h.world.add (View.ofAccounts sha (l.map fun p => (p.1, p.2.account)))) ?_ ?_
      (world_add hk hb hg.nextMap hf) hb.ok (hg.nonZero hz)
    · show replyHandle h (h.uncompactTerm sha t) = _
      rw [he]
      rfl
    · show Option.elim (parseCompactState t) _ _ = _
      rw [hl]
      rfl

theorem simulates_difference (hk : Ok sha h) (hz : h.NonZero) (a b : Nat) :
    Simulates sha h (.difference a b) := by
  have hcall : h.world.call sha (.difference a b) = (h.world, (h.view a).elim (.fault .badarg) fun v =>
      (h.view b).elim (.fault .badarg) fun u => .difference (v.differenceFull sha u)) := rfl
  have hnone : h.view a = none ∨ h.view b = none →
    h.step sha (.difference a b) = (h, .fault .badarg) := by
    intro hu
    unfold step differenceFull
    dsimp only
    rcases hu with hu | hu
    · rw [maps_none hu]
    · rw [maps_none hu]
      cases h.maps a <;> rfl
  cases hv : h.view a with
  | none => exact .gone hk hz (hnone (.inl hv)) (by rw [hcall, hv]; rfl)
  | some v =>
    cases hu : h.view b with
    | none => exact .gone hk hz (hnone (.inr hu)) (by rw [hcall, hv, hu]; rfl)
    | some u =>
      obtain ⟨h1, h2⟩ := differenceFull_spec hk hv hu
      have hh : Holds a none h (h.differenceFull sha a b).1 := holds_differenceFull h a b
      have hm : Moves sha a [] h (h.differenceFull sha a b).1 v := by
        refine ⟨h2.ok, (h2.view hk a).trans hv, fun _ _ =>
          by rw [h2.maps], fun _ _ _ _ _ => by rw [h2.res], h2.slots,
          fun c mt ho => .inl ?_, by rw [h2.res]⟩
        rw [← ho]
        exact (congrFun h2.own _).symm
      refine .of (r := .difference (v.differenceFull sha u)) ?_ (by rw [hcall, hv, hu]; rfl)
        (world_kept hk hv hm hh) h2.ok (hh.nonZero hz)
      unfold step
      dsimp only
      generalize h.differenceFull sha a b = x at h1 ⊢
      obtain ⟨q, t⟩ := x
      obtain rfl : t = some _ := h1
      rfl

theorem simulates_ask (hk : Ok sha h) (hz : h.NonZero) (m : Nat) (q : Query) :
    Simulates sha h (.ask m q) := by
  cases hv : h.view m with
  | none =>
    refine .gone (r := .answer .badarg) hk hz ?_ ?_
    · unfold step ask
      dsimp only
      rw [maps_none hv]
    · show (h.world, Reply.answer (Option.elim (h.view m) _ _)) = _
      rw [hv]
      rfl
  | some v =>
    obtain ⟨ha, hm⟩ := ask_moves hk hv q
    have hh := @holds_ask sha h m q
    refine .of (r := .answer (v.answer sha q)) ?_ ?_ (world_kept hk hv hm hh) hm.ok (hh.nonZero hz)
    · rw [← ha]
      rfl
    · show (h.world, Reply.answer (Option.elim (h.view m) _ _)) = _
      rw [hv]
      rfl

theorem simulates_write (hk : Ok sha h) (hz : h.NonZero) (hw : op.writes = some m) :
    Simulates sha h op := by
  cases hv : h.view m with
  | some v =>
    obtain ⟨h1, h2, h3, h4⟩ := write_world hk hv hw
    exact ⟨h1, h2, h3, h4 hz⟩
  | none =>
    refine .gone hk hz (write_gone hv hw) ?_
    cases op with
    | put n =>
      cases hw
      show Option.elim (h.view m) _ _ = _
      rw [hv]
      rfl
    | delete n =>
      cases hw
      show Option.elim (h.view m) _ _ = _
      rw [hv]
      rfl
    | storagePutMap n =>
      cases hw
      show Option.elim (h.view m) _ _ = _
      rw [hv]
      rfl
    | applyDifference n =>
      cases hw
      show Option.elim (h.view m) _ _ = _
      rw [hv]
      rfl
    | _ => cases hw

/-- **One call.** -/
theorem step_simulates (hk : Ok sha h) (hz : h.NonZero) (hp : op.Plain sha) : Simulates sha h op := by
  cases op with
  | new => exact simulates_new hk hz
  | clone m => exact simulates_clone hk hz m
  | lock m => exact simulates_lock hk hz m
  | destroy m => exact simulates_destroy hk hz m
  | compact m => exact simulates_compact hk hz m
  | uncompactTerm t => exact simulates_uncompactTerm hk hz hp
  | uncompactHandle m => exact hp.elim
  | difference a b => exact simulates_difference hk hz a b
  | ask m q => exact simulates_ask hk hz m q
  | put m => exact simulates_write (m := m) hk hz rfl
  | delete m => exact simulates_write (m := m) hk hz rfl
  | storagePutMap m => exact simulates_write (m := m) hk hz rfl
  | applyDifference m => exact simulates_write (m := m) hk hz rfl

/-- Giving an account a live storage is no event in the world. -/
theorem materializeAt_world (hk : Ok sha h) (m : Nat) (a : Addr) :
    (h.materializeAt m a).world = h.world := by
  cases hv : h.view m with
  | some v => exact world_kept hk hv (materializeAt_moves' hk hv) (holds_materializeAt m a h)
  | none =>
    have he : h.entry m a = none := by
      unfold entry
      rw [maps_none hv]
      rfl
    unfold materializeAt
    rw [he]

/-! ## Runs -/

end Heap

/-- A call, or a storage that is given a tree without one. -/
inductive Event where
  | call (op : Op)
  | materialize (m : Nat) (a : Addr)

/-- The calls of a sequence of events. -/
def Event.calls (l : List Event) : List Op :=
  l.filterMap fun
    | .call op => some op
    | .materialize _ _ => none

namespace Heap

/-- The replies to the calls of a sequence of events. -/
def replies (sha : Bytes → Word) (h : Heap) : List Event → List Reply
  | [] => []
  | .call op :: l => (h.step sha op).2 :: (h.step sha op).1.replies sha l
  | .materialize m a :: l => (h.materializeAt m a).replies sha l

variable {sha : Bytes → Word} {h : Heap}

theorem materializeAt_ok (hk : Ok sha h) (m : Nat) (a : Addr) : Ok sha (h.materializeAt m a) := by
  cases hv : h.view m with
  | some v => exact (materializeAt_moves' hk hv).ok
  | none =>
    have he : h.entry m a = none := by
      unfold entry
      rw [maps_none hv]
      rfl
    unfold materializeAt
    rw [he]
    exact hk

/-- **A run.** The replies are those of the world. -/
theorem replies_world : ∀ (l : List Event) (h : Heap), Ok sha h → h.NonZero →
    (∀ op ∈ Event.calls l, op.Plain sha) →
    h.replies sha l = h.world.replies sha (Event.calls l)
  | [], _, _, _, _ => rfl
  | .call op :: l, h, hk, hz, hp => by
    have hs := step_simulates hk hz (hp op List.mem_cons_self)
    have ih := replies_world l (h.step sha op).1 hs.ok hs.nonZero fun o ho =>
      hp o (List.mem_cons_of_mem _ ho)
    show _ :: _ = (h.world.call sha op).2 :: (h.world.call sha op).1.replies sha (Event.calls l)
    rw [ih, hs.reply, hs.world]
  | .materialize m a :: l, h, hk, hz, hp => by
    have ih := replies_world l (h.materializeAt m a) (materializeAt_ok hk m a)
      ((holds_materializeAt m a h).nonZero hz) hp
    rw [materializeAt_world hk] at ih
    exact ih

/-- Whichever accounts are given a live storage, and whenever, the replies are those
of the same calls on the heap left alone. -/
theorem replies_materialized (h : Heap) (hk : Ok sha h) (hz : h.NonZero) (l : List Event)
    (hp : ∀ op ∈ Event.calls l, op.Plain sha) : h.replies sha l = h.replies sha
      ((Event.calls l).map .call) := by
  have hcalls : ∀ ops : List Op, Event.calls (ops.map .call) = ops := by
    intro ops
    induction ops with
    | nil => rfl
    | cons op ops ih => exact congrArg (op :: ·) ih
  rw [replies_world l h hk hz hp, replies_world _ h hk hz (by rwa [hcalls]), hcalls]

/-- A compact term of one account with its own root. -/
theorem plain_uncompactTerm {a : Addr} {p : ParsedCompactAccount} (hp : p.Honest sha)
    (hz : ∀ s ∈ p.slots.getD [], s.2 ≠ 0) :
      (Op.uncompactTerm (.map [(.ofAddr a, .compactAccount p)])).Plain sha := by
  have hentry : Term.parseCompactEntry (.ofAddr a, .compactAccount p) = some (a, p) := by
    unfold Term.parseCompactEntry
    rw [Term.getAddress_ofAddr, Term.parseCompactAccount_compactAccount]
    rfl
  have hparse : parseCompactState (.map [(.ofAddr a, .compactAccount p)]) = some [(a, p)] := by
    unfold parseCompactState
    simp only [Term.entries?, Option.bind_some, List.mapM_cons, hentry, List.mapM_nil]
    rfl
  intro l hl
  obtain rfl := Option.some.inj (hparse.symm.trans hl)
  refine ⟨by simp, fun q hq => ?_⟩
  obtain rfl := List.mem_singleton.1 hq
  exact ⟨hp, hz⟩

end Heap
end Diode.L3
