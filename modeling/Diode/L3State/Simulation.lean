import Diode.L3State.View

/-!
# The native routines perform their edits

`Performs m f es`: on every heap that satisfies `Ok`, the routine `f` does to
the view of map `m` what the edits `es` do, ends with the same fault, and
touches nothing that another map holds by itself (`Within`).

Each primitive of `AccountMap` has one lemma here; the loops follow from
`Performs.seq` and `Performs.forEach`.
-/
namespace Diode.L3
open Diode.Core Diode.L1.Ext Function

namespace Heap
variable {sha : Bytes → Word} {h h' : Heap} {m : Nat} {a : Addr} {e : AccountEntry} {v : View}
    {s : SharedAccountMap}

/-! ## Reading a heap after an assignment -/

theorem entry_of_map (hs : h.maps m = some s) (a : Addr) : h.entry m a = s.accounts.get a := by
  unfold entry
  rw [hs, Option.bind_some]

theorem setEntry_of_map (hs : h.maps m = some s) (a : Addr) (e : AccountEntry) :
    h.setEntry m a e = h.setMap m { s with accounts := s.accounts.put a e } := by
  unfold setEntry
  rw [hs]

theorem maps_setMap (h : Heap) (m : Nat) (s : SharedAccountMap) :
    (h.setMap m s).maps = update h.maps m (some s) := rfl

/-- One slot of a table changed to `x`. -/
def Replaces (t t' : SMap Addr AccountEntry) (a : Addr) (x : Option AccountEntry) : Prop :=
  ∀ b, t'.get b = if a = b then x else t.get b

theorem entry_setMap (hs : h.maps m = some s) {t : SharedAccountMap} {x : Option AccountEntry}
    (ht : Replaces s.accounts t.accounts a x) (m' : Nat) (b : Addr) :
    (h.setMap m t).entry m' b = if m' = m ∧ a = b then x else h.entry m' b := by
  unfold entry
  rw [maps_setMap]
  by_cases hm : m' = m
  · subst hm
    rw [update_self, Option.bind_some, ht b, hs, Option.bind_some]
    by_cases hb : a = b
    · rw [if_pos hb, if_pos ⟨rfl, hb⟩]
    · rw [if_neg hb, if_neg fun h => hb h.2]
  · rw [update_of_ne hm, if_neg fun h => hm h.1]

theorem own_setMap (hs : h.maps m = some s) {t : SharedAccountMap} {x : Option AccountEntry}
    (ht : Replaces s.accounts t.accounts a x) (hst : t.state_trie = s.state_trie) :
    (h.setMap m t).own = update h.own (.entry m a) (x.bind AccountEntry.storage) := by
  funext o
  cases o with
  | trie m' =>
    rw [update_of_ne (show Owner.trie m' ≠ .entry m a from nofun)]
    show ((h.setMap m t).maps m').map _ = (h.maps m').map _
    rw [maps_setMap]
    by_cases hm : m' = m
    · subst hm
      rw [update_self, hs, Option.map_some, Option.map_some, hst]
    · rw [update_of_ne hm]
  | entry m' b =>
    show ((h.setMap m t).entry m' b).bind _ = _
    rw [entry_setMap hs ht]
    by_cases hm : m' = m ∧ a = b
    · obtain ⟨rfl, rfl⟩ := hm
      rw [if_pos ⟨rfl, rfl⟩, update_self]
    · rw [if_neg hm, update_of_ne fun e => hm (by cases e; exact ⟨rfl, rfl⟩)]
      rfl

theorem replaces_put (t : SMap Addr AccountEntry) (a : Addr) (e : AccountEntry) :
    Replaces t (t.put a e) a (some e) :=
  fun b => t.get_put a b e

theorem replaces_del (t : SMap Addr AccountEntry) (a : Addr) : Replaces t (t.del a) a none :=
    fun b => t.get_del a b

theorem entry_setEntry_self (hs : h.maps m = some s) : (h.setEntry m a e).entry m a = some e := by
  rw [setEntry_of_map hs, entry_setMap hs (replaces_put _ _ _), if_pos ⟨rfl, rfl⟩]

theorem view_of_map (hs : h.maps m = some s) :
    h.view m = some ⟨s.frozen, h.res.tree s.state_trie, s.accounts.map h.account⟩ := by
  unfold view
  rw [hs, Option.map_some]

theorem view_some (hv : h.view m = some v) : ∃ s, h.maps m = some s ∧ v.frozen = s.frozen ∧
    v.trie = h.res.tree s.state_trie ∧ v.accounts = s.accounts.map h.account := by
  obtain ⟨s, hs, rfl⟩ := Option.map_eq_some_iff.1 hv
  exact ⟨s, hs, rfl, rfl, rfl⟩

theorem view_get (hv : h.view m = some v) (a : Addr) :
    v.accounts.get a = (h.entry m a).map h.account := by
  obtain ⟨s, hs, -, -, ha⟩ := view_some hv
  rw [ha, SMap.get_map, entry_of_map hs]

/-- Two heaps show the same account where its storage reads the same. -/
theorem account_congr (hc : ∀ mt, e.storage = some mt → h'.res.tree mt = h.res.tree mt)
    (hs : e.storage = none → h'.slots e = h.slots e) : h'.account e = h.account e := by
  unfold account storageOf
  cases he : e.storage with
  | none => rw [hs he]
  | some mt => dsimp only; rw [hc mt he]

/-- An account reads the same when its tree does and compact slots were kept. -/
theorem account_eq (hk : Ok sha h) (he : h.entry m a = some e)
    (ht : ∀ mt, e.storage = some mt → h'.res.tree mt = h.res.tree mt)
    (hs : ∀ c cs, h.compacts c = some cs → ∃ cs', h'.compacts c = some cs' ∧ cs'.slots = cs.slots) :
    h'.account e = h.account e := by
  refine account_congr ht fun _ => ?_
  unfold slots
  cases hc : e.compact_storage with
  | none => rfl
  | some c =>
    obtain ⟨cs, hcs⟩ := hk.compact m a e c he hc
    obtain ⟨cs', hcs', heq⟩ := hs c cs hcs
    rw [Option.bind_some, Option.bind_some, hcs, hcs', Option.elim_some, Option.elim_some, heq]

theorem own_entry (he : h.entry m a = some e) : h.own (.entry m a) = e.storage := by
  show (h.entry m a).bind _ = _
  rw [he, Option.bind_some]

/-! ## What a routine may touch -/

/-- From `h` to `h'` only map `m` was worked on, and of what it shares with
other maps only the storages of the accounts in `W` were written. -/
structure Within (h h' : Heap) (m : Nat) (W : List Addr) : Prop where
  maps : ∀ m', m' ≠ m → h'.maps m' = h.maps m'
  trees : ∀ o mt, o.map ≠ m → h.own o = some mt → (∀ a ∈ W, h.own (.entry m a) ≠ some mt) →
    h'.res.tree mt = h.res.tree mt
  slots : ∀ c cs, h.compacts c = some cs → ∃ cs', h'.compacts c = some cs' ∧ cs'.slots = cs.slots
  own : ∀ a mt, h'.own (.entry m a) = some mt → h.own (.entry m a) = some mt ∨ h.res.nextMt ≤ mt
  nextMt : h.res.nextMt ≤ h'.res.nextMt

namespace Within
variable {W W' : List Addr} {h'' : Heap}

theorem refl (h : Heap) (m : Nat) : Within h h m [] where
  maps := fun _ _ => rfl
  trees := fun _ _ _ _ _ => rfl
  slots := fun _ cs hc => ⟨cs, hc, rfl⟩
  own := fun _ _ ho => .inl ho
  nextMt := le_refl _

theorem own_other (hw : Within h h' m W) {o : Owner} (ho : o.map ≠ m) : h'.own o = h.own o := by
  cases o with
  | trie m' =>
    show (h'.maps m').map _ = (h.maps m').map _
    rw [hw.maps m' ho]
  | entry m' b =>
    show ((h'.maps m').bind _).bind _ = ((h.maps m').bind _).bind _
    rw [hw.maps m' ho]

theorem trans (hk : Ok sha h) (h1 : Within h h' m W) (h2 : Within h' h'' m W') :
    Within h h'' m (W ++ W') where
  maps := fun m' hm => (h2.maps m' hm).trans (h1.maps m' hm)
  trees := by
    intro o mt ho hmt hW
    rw [← h1.trees o mt ho hmt fun a ha => hW a (List.mem_append_left _ ha)]
    refine h2.trees o mt ho (by rw [h1.own_other ho, hmt]) fun a ha e => ?_
    rcases h1.own a mt e with h | h
    · exact hW a (List.mem_append_right _ ha) h
    · exact absurd (hk.held.own_lt hmt) (not_lt.2 h)
  slots := by
    intro c cs hc
    obtain ⟨cs1, hc1, e1⟩ := h1.slots c cs hc
    obtain ⟨cs2, hc2, e2⟩ := h2.slots c cs1 hc1
    exact ⟨cs2, hc2, e2.trans e1⟩
  own := by
    intro a mt ho
    rcases h2.own a mt ho with h | h
    · exact h1.own a mt h
    · exact .inr (le_trans h1.nextMt h)
  nextMt := le_trans h1.nextMt h2.nextMt

theorem mono (hw : Within h h' m W) (hs : ∀ a ∈ W, a ∈ W') : Within h h' m W' :=
  ⟨hw.maps, fun o mt ho hmt hW => hw.trees o mt ho hmt fun a ha => hW a (hs a ha), hw.slots,
    hw.own, hw.nextMt⟩

/-- A map that shares no written storage looks the same afterwards. -/
theorem frame (hk : Ok sha h) (hw : Within h h' m W) {m' : Nat} (hm : m' ≠ m)
    (hW : ∀ a ∈ W, h.Alone m a) :
    h'.view m' = h.view m' := by
  unfold view
  rw [hw.maps m' hm]
  cases hs : h.maps m' with
  | none => rfl
  | some s =>
    have htree : ∀ o mt, o.map = m' → h.own o = some mt → h'.res.tree mt = h.res.tree mt := by
      intro o mt ho hmt
      refine hw.trees o mt (by rw [ho]; exact hm) hmt fun a ha e => ?_
      have := hW a ha o mt e hmt
      rw [this] at ho
      exact hm ho.symm
    have hentries : s.accounts.map h'.account = s.accounts.map h.account := by
      refine SMap.map_congr fun b e he => ?_
      have hent : h.entry m' b = some e := (entry_of_map hs b).trans he
      exact account_eq hk hent (fun mt hmt => htree (.entry m' b) mt rfl
        ((own_entry hent).trans hmt)) hw.slots
    rw [Option.map_some, Option.map_some, hentries, htree (.trie m') s.state_trie rfl (by
      show (h.maps m').map _ = _
      rw [hs, Option.map_some])]

end Within

/-- From `h` to `h'` map `m` may have come to hold anything, but nothing that
another map holds was written. -/
structure Beside (h h' : Heap) (m : Nat) : Prop where
  maps : ∀ m', m' ≠ m → h'.maps m' = h.maps m'
  trees : ∀ o mt, o.map ≠ m → h.own o = some mt → h'.res.tree mt = h.res.tree mt
  slots : ∀ c cs, h.compacts c = some cs → ∃ cs', h'.compacts c = some cs' ∧ cs'.slots = cs.slots
  nextMt : h.res.nextMt ≤ h'.res.nextMt

namespace Beside
variable {h'' : Heap}

theorem refl (h : Heap) (m : Nat) : Beside h h m :=
  ⟨fun _ _ => rfl, fun _ _ _ _ => rfl, fun _ cs hc => ⟨cs, hc, rfl⟩, le_refl _⟩

theorem own_other (hb : Beside h h' m) {o : Owner} (ho : o.map ≠ m) : h'.own o = h.own o := by
  cases o with
  | trie m' =>
    show (h'.maps m').map _ = (h.maps m').map _
    rw [hb.maps m' ho]
  | entry m' b =>
    show ((h'.maps m').bind _).bind _ = ((h.maps m').bind _).bind _
    rw [hb.maps m' ho]

theorem trans (h1 : Beside h h' m) (h2 : Beside h' h'' m) : Beside h h'' m where
  maps := fun m' hm => (h2.maps m' hm).trans (h1.maps m' hm)
  trees := fun o mt ho hmt => (h2.trees o mt ho ((h1.own_other ho).trans hmt)).trans
    (h1.trees o mt ho hmt)
  slots := by
    intro c cs hc
    obtain ⟨cs1, hc1, e1⟩ := h1.slots c cs hc
    obtain ⟨cs2, hc2, e2⟩ := h2.slots c cs1 hc1
    exact ⟨cs2, hc2, e2.trans e1⟩
  nextMt := le_trans h1.nextMt h2.nextMt

end Beside

theorem Within.beside (hw : Within h h' m []) : Beside h h' m :=
  ⟨hw.maps, fun o mt ho hmt => hw.trees o mt ho hmt nofun, hw.slots, hw.nextMt⟩

theorem Beside.within (hb : Beside h h' m)
    (hown : ∀ a mt, h'.own (.entry m a) = some mt → h.own (.entry m a) = some mt ∨ h.res.nextMt ≤ mt) :
    Within h h' m [] :=
  ⟨hb.maps, fun o mt ho hmt _ => hb.trees o mt ho hmt, hb.slots, hown, hb.nextMt⟩

/-- The invariant holds, map `m` shows `v` and no other map was touched. -/
structure Builds (sha : Bytes → Word) (m : Nat) (h h' : Heap) (v : View) : Prop where
  ok : Ok sha h'
  view : h'.view m = some v
  beside : Beside h h' m

theorem Builds.trans {h'' : Heap} {v' : View} (h1 : Builds sha m h h' v) (h2 : Builds sha m h' h'' v') :
    Builds sha m h h'' v' := ⟨h2.ok, h2.view, h1.beside.trans h2.beside⟩

/-- The invariant holds, map `m` shows `v` and nothing else was touched. -/
structure Moves (sha : Bytes → Word) (m : Nat) (W : List Addr) (h h' : Heap) (v : View) : Prop where
  ok : Ok sha h'
  view : h'.view m = some v
  within : Within h h' m W

theorem Moves.refl (hk : Ok sha h) (hv : h.view m = some v) : Moves sha m [] h h v :=
  ⟨hk, hv, Within.refl h m⟩

theorem Moves.trans {W W' : List Addr} {h'' : Heap} {v' : View} (hk : Ok sha h)
    (h1 : Moves sha m W h h' v)
    (h2 : Moves sha m W' h' h'' v') : Moves sha m (W ++ W') h h'' v' :=
  ⟨h2.ok, h2.view, Within.trans hk h1.within h2.within⟩

/-! ## The primitives -/

theorem Ok.own_fresh (hk : Ok sha h) {mt : Nat} (hm : h.res.nextMt ≤ mt) (o : Owner) :
    h.own o ≠ some mt :=
  fun e => absurd (hk.held.own_lt e) (not_lt.2 hm)

/-- A resource of map `m` other than a shared storage is held once. -/
theorem Ok.trie_own (hk : Ok sha h) (hs : h.maps m = some s) {o : Owner}
    (ho : h.own o = some s.state_trie) :
    o = .trie m := by
  have ht : h.own (.trie m) = some s.state_trie := by
    show (h.maps m).map _ = _
    rw [hs, Option.map_some]
  rcases hk.apart o (.trie m) _ ho ht with e | ⟨_, _, _, _, _, -, e⟩
  · exact e
  · cases e

/-- **A change of one slot of the table**, with the resources its storage needs.
The storage is the one the slot had, or one that only other maps' accounts use. -/
theorem Builds.setTable (hk : Ok sha h) (hv : h.view m = some v) (hs : h.maps m = some s)
    {res : Resources}
    {x : Option AccountEntry} {accounts : SMap Addr AccountEntry} (shown : SMap Addr Account)
    (ht : Replaces s.accounts accounts a x)
    (hshown : ∀ b, shown.get b = if a = b then x.map ({ h with res } : Heap).account else v.accounts.get b)
    (held : res.Held (update h.own (.entry m a) (x.bind AccountEntry.storage)))
    (trees : ∀ o mt, o ≠ .entry m a → h.own o = some mt → res.tree mt = h.res.tree mt)
    (next : h.res.nextMt ≤ res.nextMt)
    (free : ∀ mt, x.bind AccountEntry.storage = some mt → h.own (.entry m a) = some mt ∨
      ∀ o, h.own o = some mt → ∃ m' b, m' ≠ m ∧ o = .entry m' b)
    (kind : ∀ e, x = some e → e.storage ≠ none → e.compact_storage = none)
    (compact : ∀ e c, x = some e → e.compact_storage = some c → ∃ cs, h.compacts c = some cs) :
    Builds sha m h ({ h with res }.setMap m { s with accounts }) { v with accounts := shown } := by
  obtain ⟨s0, hs0, hf, htr, ha⟩ := view_some hv
  rw [hs, Option.some.injEq] at hs0
  subst hs0
  have hs' : ({ h with res } : Heap).maps m = some s := hs
  have hown : ({ h with res }.setMap m { s with accounts }).own = update h.own (.entry m a)
    (x.bind AccountEntry.storage) :=
    own_setMap (t := { s with accounts }) hs' ht rfl
  have hent : ∀ m' b, ({ h with res }.setMap m { s with accounts }).entry m' b =
      if m' = m ∧ a = b then x else h.entry m' b :=
    entry_setMap (t := { s with accounts }) hs' ht
  refine ⟨⟨?_, ?_, ?_, ?_, hk.root, hk.freshCompact, ?_⟩, ?_,
    ⟨?_, ?_, fun _ cs hc => ⟨cs, hc, rfl⟩, next⟩⟩
  · rw [hown]
    exact held
  · have hnew : ∀ o mt, o ≠ .entry m a → h.own o = some mt → x.bind AccountEntry.storage = some mt →
        ∃ m' b m'' b', m' ≠ m'' ∧ o = .entry m' b ∧ Owner.entry m a = .entry m'' b' := by
      intro o mt hne ho he
      rcases free mt he with h1 | h1
      · rcases hk.apart o _ mt ho h1 with h2 | h2
        · exact absurd h2 hne
        · exact h2
      · obtain ⟨m', b, hm', rfl⟩ := h1 o ho
        exact ⟨m', b, m, a, hm', rfl, rfl⟩
    intro o o' mt ho ho'
    rw [hown] at ho ho'
    by_cases e1 : o = .entry m a
    · subst e1
      by_cases e2 : o' = .entry m a
      · exact .inl e2.symm
      · rw [update_self] at ho
        rw [update_of_ne e2] at ho'
        obtain ⟨m', b, m'', b', hne, h1, h2⟩ := hnew o' mt e2 ho' ho
        exact .inr ⟨m'', b', m', b, hne.symm, h2, h1⟩
    · rw [update_of_ne e1] at ho
      by_cases e2 : o' = .entry m a
      · subst e2
        rw [update_self] at ho'
        exact .inr (hnew o mt e1 ho ho')
      · rw [update_of_ne e2] at ho'
        exact hk.apart o o' mt ho ho'
  · intro m' b e' he'
    rw [hent] at he'
    split at he'
    · exact kind e' he'
    · exact hk.kind m' b e' he'
  · intro m' b e' c he' hc
    rw [hent] at he'
    split at he'
    · exact compact e' c he' hc
    · exact hk.compact m' b e' c he' hc
  · intro m' hm'
    have hm'' : h.nextMap ≤ m' := hm'
    have hne : m' ≠ m := fun e => by rw [← e, hk.freshMap m' hm''] at hs; cases hs
    rw [maps_setMap, update_of_ne hne]
    exact hk.freshMap m' hm''
  · rw [view_of_map (s := { s with accounts }) (by rw [maps_setMap, update_self])]
    have htrie : res.tree s.state_trie = h.res.tree s.state_trie :=
      trees (.trie m) _ nofun (by show (h.maps m).map _ = _; rw [hs, Option.map_some])
    have hacc : accounts.map ({ h with res } : Heap).account = shown := by
      apply SMap.ext
      intro b
      rw [SMap.get_map, ht b, hshown b, ha, SMap.get_map]
      by_cases hb : a = b
      · rw [if_pos hb, if_pos hb]
      · rw [if_neg hb, if_neg hb]
        cases he : s.accounts.get b with
        | none => rfl
        | some e' =>
          rw [Option.map_some, Option.map_some]
          refine congrArg some (account_congr (fun mt hmt => ?_) fun _ => rfl)
          refine trees (.entry m b) mt (fun e => hb (by cases e; rfl)) ?_
          show (h.entry m b).bind _ = _
          rw [entry_of_map hs, he, Option.bind_some, hmt]
    show some (View.mk s.frozen (res.tree s.state_trie)
      (accounts.map ({ h with res } : Heap).account)) = _
    rw [htrie, ← hf, ← htr, hacc]
  · intro m' hm'
    rw [maps_setMap, update_of_ne hm']
  · intro o mt ho hmt
    exact trees o mt (fun e => ho (by rw [e]; rfl)) hmt

theorem Moves.setTable (hk : Ok sha h) (hv : h.view m = some v) (hs : h.maps m = some s)
    {res : Resources}
    {x : Option AccountEntry} {accounts : SMap Addr AccountEntry} (shown : SMap Addr Account)
    (ht : Replaces s.accounts accounts a x)
    (hshown : ∀ b, shown.get b = if a = b then x.map ({ h with res } : Heap).account else v.accounts.get b)
    (held : res.Held (update h.own (.entry m a) (x.bind AccountEntry.storage)))
    (trees : ∀ o mt, o ≠ .entry m a → h.own o = some mt → res.tree mt = h.res.tree mt)
    (next : h.res.nextMt ≤ res.nextMt)
    (fresh : ∀ mt, x.bind AccountEntry.storage = some mt → h.own (.entry m a) = some mt ∨
      h.res.nextMt ≤ mt)
    (kind : ∀ e, x = some e → e.storage ≠ none → e.compact_storage = none)
    (compact : ∀ e c, x = some e → e.compact_storage = some c → ∃ cs, h.compacts c = some cs) :
    Moves sha m [] h ({ h with res }.setMap m { s with accounts }) { v with accounts := shown } := by
  have hb := Builds.setTable hk hv hs shown ht hshown held trees next
    (fun mt hmt => (fresh mt hmt).imp_right fun h1 o ho => absurd ho (hk.own_fresh h1 o)) kind compact
  refine ⟨hb.ok, hb.view, hb.beside.within fun b mt ho => ?_⟩
  rw [own_setMap (h := { h with res }) (t := { s with accounts }) hs ht rfl] at ho
  by_cases e1 : Owner.entry m b = .entry m a
  · rw [e1, update_self] at ho
    rw [e1]
    exact fresh mt ho
  · rw [update_of_ne e1] at ho
    exact .inl ho

/-- **Assignment to an entry.** -/
theorem Moves.setEntry (hk : Ok sha h) (hv : h.view m = some v) (res : Resources)
    (held : res.Held (update h.own (.entry m a) e.storage))
    (trees : ∀ o mt, o ≠ .entry m a → h.own o = some mt → res.tree mt = h.res.tree mt)
    (next : h.res.nextMt ≤ res.nextMt)
    (fresh : ∀ mt, e.storage = some mt → h.own (.entry m a) = some mt ∨ h.res.nextMt ≤ mt)
    (kind : e.storage ≠ none → e.compact_storage = none)
    (compact : ∀ c, e.compact_storage = some c → ∃ cs, h.compacts c = some cs) :
    Moves sha m [] h ({ h with res }.setEntry m a e)
      { v with accounts := v.accounts.put a (({ h with res } : Heap).account e) } := by
  obtain ⟨s, hs, -⟩ := view_some hv
  rw [setEntry_of_map (h := { h with res }) hs]
  refine Moves.setTable (x := some e) hk hv hs _ (replaces_put _ _ _)
    (fun b => SMap.get_put _ _ _ _) held trees next fresh
    (fun e' he' => ?_) fun e' c he' => ?_
  · cases he'; exact kind
  · cases he'; exact compact c

/-- A change of the resources that keeps who owns what. -/
theorem Ok.withRes (hk : Ok sha h) {res : Resources} (held : res.Held h.own) : Ok sha { h with res } :=
  ⟨held, hk.apart, hk.kind, hk.compact, hk.root, hk.freshCompact, hk.freshMap⟩

/-- A write to the state trie of `m`. -/
theorem Moves.writeTrie (hk : Ok sha h) (hv : h.view m = some v) (hs : h.maps m = some s)
    {res : Resources} {t : Tree}
    (held : res.Held h.own) (next : res.nextMt = h.res.nextMt) (tree : res.tree s.state_trie = t)
    (others : ∀ mt, mt ≠ s.state_trie → res.tree mt = h.res.tree mt) :
    Moves sha m [] h { h with res } { v with trie := t } := by
  obtain ⟨s0, hs0, hf, ht, ha⟩ := view_some hv
  rw [hs, Option.some.injEq] at hs0
  subst hs0
  refine ⟨hk.withRes held, ?_, fun _ _ => rfl, ?_, fun _ cs hc => ⟨cs, hc, rfl⟩, fun _ _ ho =>
    .inl ho, le_of_eq next.symm⟩
  · rw [view_of_map (h := { h with res }) hs]
    have hacc : s.accounts.map ({ h with res } : Heap).account = v.accounts := by
      rw [ha]
      refine SMap.map_congr fun b e he => account_congr (fun mt hmt => others mt fun e' => ?_) fun _ => rfl
      subst e'
      have ho : h.own (.entry m b) = some s.state_trie :=
        (own_entry ((entry_of_map hs b).trans he)).trans hmt
      cases hk.trie_own hs ho
    rw [hacc, tree, hf]
  · intro o mt ho hmt _
    refine others mt fun e => ho ?_
    subst e
    rw [hk.trie_own hs hmt]
    rfl

theorem own_trie (hs : h.maps m = some s) : h.own (.trie m) = some s.state_trie := by
  show (h.maps m).map _ = _
  rw [hs, Option.map_some]

theorem insertStateTrieHash_moves (hk : Ok sha h) (hv : h.view m = some v) (a : Addr) (w : Word) :
    Moves sha m [] h (h.insertStateTrieHash m a w) { v with trie := v.trie.insertItem (Addr.bytes a) w } := by
  obtain ⟨s, hs, -, ht, -⟩ := view_some hv
  have hi : h.insertStateTrieHash m a w = { h with res := h.res.insertItem s.state_trie (Addr.bytes a) w } := by
    unfold insertStateTrieHash
    rw [hs]
  obtain ⟨hheld, hn, htree, hothers⟩ := hk.held.insertItem (own_trie hs) (Addr.bytes a) w
  rw [hi]
  exact Moves.writeTrie hk hv hs hheld hn (by rw [htree, ht]) hothers

/-- A cache fill: the slots stay, the root that appears is the root of the slots. -/
theorem Moves.fillCache (hk : Ok sha h) (hv : h.view m = some v) {c : Nat} {cs : CompactStorage}
    (hc : h.compacts c = some cs) :
    Moves sha m [] h (h.setCompact c { cs with root_hash := some ((Tree.ofSlots cs.slots).rootHash sha) }) v := by
  generalize hq : h.setCompact c { cs with root_hash := some ((Tree.ofSlots cs.slots).rootHash sha) } = q
  have hqc : q.compacts = update h.compacts c
    (some { cs with root_hash := some ((Tree.ofSlots cs.slots).rootHash sha) }) := by
    rw [← hq]; rfl
  have hmaps : q.maps = h.maps := by rw [← hq]; rfl
  have hres : q.res = h.res := by rw [← hq]; rfl
  have hslots : ∀ c' cs', h.compacts c' = some cs' → ∃ cs'', q.compacts c' = some cs'' ∧
    cs''.slots = cs'.slots := by
    intro c' cs' hc'
    rw [hqc]
    by_cases e : c' = c
    · subst e
      rw [hc, Option.some.injEq] at hc'
      subst hc'
      exact ⟨_, update_self .., rfl⟩
    · exact ⟨cs', by rw [update_of_ne e, hc'], rfl⟩
  have hok : Ok sha q := by
    rw [← hq]
    refine ⟨hk.held, hk.apart, hk.kind, ?_, ?_, ?_, hk.freshMap⟩
    · intro m' a e c' he hc'
      obtain ⟨cs', hcs'⟩ := hk.compact m' a e c' he hc'
      obtain ⟨cs'', hcs'', -⟩ := hslots c' cs' hcs'
      exact ⟨cs'', by rw [hq]; exact hcs''⟩
    · intro c' cs' w hc' hw
      rw [hq, hqc] at hc'
      by_cases e : c' = c
      · subst e
        rw [update_self, Option.some.injEq] at hc'
        subst hc'
        exact (Option.some.inj hw).symm
      · rw [update_of_ne e] at hc'
        exact hk.root c' cs' w hc' hw
    · intro c' hc'
      have hc'' : h.nextCompact ≤ c' := hc'
      have hne : c' ≠ c := fun e => by rw [← e, hk.freshCompact c' hc''] at hc; cases hc
      rw [hq, hqc, update_of_ne hne, hk.freshCompact c' hc'']
  refine ⟨hok, ?_, fun _ _ =>
    by rw [hmaps], fun _ _ _ _ _ => by rw [hres], hslots, fun a mt ho => .inl ?_, by rw [hres]⟩
  · obtain ⟨s, hs, hf, ht, ha⟩ := view_some hv
    rw [view_of_map (show q.maps m = some s by rw [hmaps, hs]), hres]
    have hacc : s.accounts.map q.account = v.accounts := by
      rw [ha]
      exact SMap.map_congr fun b e he => account_eq hk ((entry_of_map hs b).trans he)
        (fun _ _ => by rw [hres]) hslots
    rw [hacc, ← hf, ← ht]
  · rw [← hq] at ho
    exact ho

/-- **`storage_root_hash_for_entry`** answers the root of the storage and at
most fills a cache. -/
theorem storageRootHashForEntry_moves (hk : Ok sha h) (hv : h.view m = some v) {m' : Nat}
    (he : h.entry m' a = some e) :
    (h.storageRootHashForEntry sha e).2 = (h.storageOf e).rootHash sha ∧
      (h.storageRootHashForEntry sha e).1.maps = h.maps ∧
      Moves sha m [] h (h.storageRootHashForEntry sha e).1 v := by
  unfold storageRootHashForEntry storageOf
  cases hst : e.storage with
  | some mt => exact ⟨rfl, rfl, Moves.refl hk hv⟩
  | none =>
    unfold slots
    cases hc : e.compact_storage with
    | none => exact ⟨rfl, rfl, Moves.refl hk hv⟩
    | some c =>
      obtain ⟨cs, hcs⟩ := hk.compact m' a e c he hc
      dsimp only
      rw [Option.bind_some, hcs]
      dsimp only
      rw [Option.elim_some]
      cases hr : if cs.slots.isEmpty then none else cs.root_hash with
      | some w =>
        refine ⟨hk.root c cs w hcs ?_, rfl, Moves.refl hk hv⟩
        split at hr
        · cases hr
        · exact hr
      | none => exact ⟨rfl, rfl, Moves.fillCache hk hv hcs⟩

theorem entry_map (he : h.entry m a = some e) : ∃ s, h.maps m = some s ∧ s.accounts.get a = some e := by
  obtain ⟨s, hs, h⟩ := Option.bind_eq_some_iff.1 he
  exact ⟨s, hs, h⟩

/-- An assignment that keeps the storage of the entry. -/
theorem Moves.setFields (hk : Ok sha h) (hv : h.view m = some v) (he : h.entry m a = some e)
    (e' : AccountEntry)
    (hst : e'.storage = e.storage) (hc : e'.compact_storage = e.compact_storage) :
    Moves sha m [] h (h.setEntry m a e') { v with accounts := v.accounts.put a (h.account e') } := by
  refine Moves.setEntry hk hv h.res ?_ (fun _ _ _ _ => rfl) (le_refl _) (fun mt hmt => .inl ?_) ?_ ?_
  · rw [hst, ← own_entry he, update_eq_self]
    exact hk.held
  · rw [own_entry he, ← hst, hmt]
  · rw [hst, hc]
    exact hk.kind m a e he
  · intro c hc'
    exact hk.compact m a e c he (hc ▸ hc')

/-- **`materialize_storage`** on an entry of the table shows nothing. -/
theorem materializeAt_moves (hk : Ok sha h) (hv : h.view m = some v) (he : h.entry m a = some e) :
    Moves sha m [] h (h.materializeAt m a) v ∧ ∃ e', (h.materializeAt m a).entry m a = some e' ∧
      e'.storage ≠ none ∧
      e'.nonce = e.nonce ∧ e'.balance = e.balance ∧ e'.code = e.code ∧
      (e.storage ≠ none → e'.storage = e.storage) := by
  obtain ⟨s, hs, hget⟩ := entry_map he
  have hat : v.accounts.get a = some (h.account e) := by rw [view_get hv, he, Option.map_some]
  unfold materializeAt
  rw [he]
  dsimp only
  unfold materializeStorage
  cases hst : e.storage with
  | some mt =>
    dsimp only
    have hm := Moves.setFields hk hv he e rfl rfl
    rw [SMap.put_get_self _ hat] at hm
    refine ⟨hm, e, ?_, by rw [hst]; nofun, rfl, rfl, rfl, fun _ => hst⟩
    exact entry_setEntry_self hs
  | none =>
    dsimp only
    have ho : h.own (.entry m a) = none := by rw [own_entry he, hst]
    obtain ⟨hheld, hn, htree, hothers⟩ := hk.held.allocWith ho (Tree.ofSlots (h.slots e))
    have hm := Moves.setEntry (e := { e with storage := some h.res.alloc.1, compact_storage :=
      none }) hk hv _ hheld
      (fun o mt _ ho => hothers mt fun e' => hk.own_fresh (le_of_eq e'.symm) o ho) (by omega)
      (fun mt hmt => .inr (le_of_eq (Option.some.inj hmt))) (fun _ => rfl) nofun
    have hacc : ({ h with res := h.res.alloc.2.modifyTree h.res.alloc.1 fun _ => Tree.ofSlots (h.slots e) } : Heap).account
        { e with storage := some h.res.alloc.1, compact_storage := none } = h.account e := by
      unfold account storageOf
      dsimp only
      rw [htree, hst]
    rw [hacc, SMap.put_get_self _ hat] at hm
    refine ⟨hm, { e with storage := some h.res.alloc.1, compact_storage := none }, ?_, nofun,
      rfl, rfl, rfl,
      fun h => absurd rfl h⟩
    exact entry_setEntry_self (by exact hs)

/-- **`ensure_account_entry`.** -/
theorem ensureAccountEntry_moves (hk : Ok sha h) (hv : h.view m = some v) (a : Addr) :
    Moves sha m [] h (h.ensureAccountEntry m a)
      (if (v.accounts.get a).isSome then v else { v with accounts := v.accounts.put a Account.default }) := by
  have hg := view_get hv a
  unfold ensureAccountEntry
  cases he : h.entry m a with
  | some e =>
    rw [hg, he, Option.map_some, Option.isSome_some, if_pos rfl]
    exact Moves.refl hk hv
  | none =>
    rw [hg, he, Option.map_none, Option.isSome_none, if_neg nofun]
    dsimp only
    have ho : h.own (.entry m a) = none := by
      show (h.entry m a).bind _ = _
      rw [he, Option.bind_none]
    obtain ⟨hheld, htree, hothers⟩ := hk.held.alloc ho
    have hm := Moves.setEntry (e := ⟨0, 0, some h.res.alloc.1, none, []⟩) hk hv _ hheld
      (fun o mt _ ho => hothers mt fun e' => hk.own_fresh (le_of_eq e'.symm) o ho) (Nat.le_succ _)
      (fun mt hmt => .inr (le_of_eq (Option.some.inj hmt))) (fun _ => rfl) nofun
    have hacc : ({ h with res := h.res.alloc.2 } : Heap).account ⟨0, 0, some h.res.alloc.1, none,
      []⟩ = Account.default := by
      unfold account storageOf Account.default
      dsimp only
      rw [htree]
    rwa [hacc] at hm

/-- **`write_storage_slot`.** -/
theorem writeStorageSlot_moves (hk : Ok sha h) (hv : h.view m = some v) (a : Addr)
    (key : Bytes) (w : Word) :
    Moves sha m [a] h (h.writeStorageSlot m a key w)
      (v.update a fun acc => { acc with storage := acc.storage.insertItem key w }) := by
  cases he : h.entry m a with
  | none =>
    have hw : h.writeStorageSlot m a key w = h := by
      unfold writeStorageSlot materializeAt
      rw [he]; dsimp only; rw [he, Option.bind_none]
    have hu : v.update a (fun acc => { acc with storage := acc.storage.insertItem key w }) = v := by
      unfold View.update
      rw [view_get hv, he, Option.map_none]
    rw [hw, hu]
    exact ⟨hk, hv, (Within.refl h m).mono nofun⟩
  | some e =>
    obtain ⟨hmat, e', he', hne, -, -, -, hsame⟩ := materializeAt_moves hk hv he
    have hsame' : ∀ mt, (h.materializeAt m a).own (.entry m a) = some mt →
      h.own (.entry m a) = some mt ∨ h.res.nextMt ≤ mt :=
      hmat.within.own a
    unfold writeStorageSlot
    dsimp only
    generalize h.materializeAt m a = q at hmat he' hsame'
    obtain ⟨mt, hmt⟩ := Option.ne_none_iff_exists'.1 hne
    rw [he', Option.bind_some, hmt]
    dsimp only
    have hown : q.own (.entry m a) = some mt := by rw [own_entry he', hmt]
    obtain ⟨hheld, hn, htree, hothers⟩ := hmat.ok.held.insertItem hown key w
    obtain ⟨s, hs, hf, ht, ha⟩ := view_some hmat.view
    have hqk : Ok sha { q with res := q.res.insertItem mt key w } := hmat.ok.withRes hheld
    have hwithin : Within q { q with res := q.res.insertItem mt key w } m [a] := by
      refine ⟨fun _ _ => rfl, fun o mt' ho hmt' hW => hothers mt' fun e => ?_, fun _ cs hc =>
        ⟨cs, hc, rfl⟩,
        fun _ _ ho => .inl ho, le_of_eq hn.symm⟩
      exact hW a (List.mem_singleton_self a) (by rw [hown, e])
    refine ⟨hqk, ?_, (Within.trans hk hmat.within hwithin).mono fun b hb => by simpa using hb⟩
    rw [view_of_map (h := { q with res := q.res.insertItem mt key w }) hs]
    have htrie : (q.res.insertItem mt key w).tree s.state_trie = v.trie := by
      rw [ht]
      refine hothers _ fun e => ?_
      have := hmat.ok.trie_own hs (o := .entry m a) (by rw [hown, e])
      cases this
    have hat : v.accounts.get a = some (q.account e') := by
      rw [view_get hmat.view, he', Option.map_some]
    rw [View.update_of_get hat]
    have hacc : s.accounts.map ({ q with res := q.res.insertItem mt key w } : Heap).account =
        v.accounts.put a { q.account e' with storage := (q.account e').storage.insertItem key w } := by
      apply SMap.ext
      intro b
      rw [SMap.get_map, SMap.get_put, ha, SMap.get_map, ← entry_of_map hs]
      by_cases hb : a = b
      · subst hb
        rw [if_pos rfl, he', Option.map_some]
        unfold account storageOf
        rw [hmt]
        dsimp only
        rw [htree]
      · rw [if_neg hb]
        cases heb : q.entry m b with
        | none => rfl
        | some eb =>
          rw [Option.map_some, Option.map_some]
          refine congrArg some (account_congr (fun mt' hmt' => hothers mt' fun e => ?_) fun _ => rfl)
          subst e
          rcases hmat.ok.apart _ _ mt' hown
            (show q.own (.entry m b) = some mt' by rw [own_entry heb, hmt']) with h1 | h1
          · exact hb (by cases h1; rfl)
          · obtain ⟨m1, a1, m2, a2, hne', h2, h3⟩ := h1
            cases h2; cases h3
            exact hne' rfl
    rw [hacc, htrie, ← hf]

/-- What the routine does: it may allocate the entry's storage, then hashes the entry it finds. -/
theorem updateStateTrieForEntry_cases (sha : Bytes → Word) (h : Heap) (m : Nat) (a : Addr) :
    ∃ g, (g = h ∨ g = h.materializeAt m a) ∧
      (h.updateStateTrieForEntry sha m a = g ∨
        ∃ e hash, h.updateStateTrieForEntry sha m a =
          (g.storageRootHashForEntry sha e).1.insertStateTrieHash m a hash) := by
  unfold updateStateTrieForEntry
  cases he : h.entry m a with
  | none =>
    refine ⟨h, .inl rfl, .inl ?_⟩
    dsimp only
    rw [he]
  | some e =>
    dsimp only
    by_cases hc : e.compact_storage.isSome = true
    · rw [if_pos hc, he]
      exact ⟨h, .inl rfl, .inr ⟨e, _, rfl⟩⟩
    · rw [if_neg hc]
      refine ⟨_, .inr rfl, ?_⟩
      cases (h.materializeAt m a).entry m a with
      | none => exact .inl rfl
      | some e' => exact .inr ⟨e', _, rfl⟩

/-- **`update_state_trie_for_entry`.** -/
theorem updateStateTrieForEntry_moves (hk : Ok sha h) (hv : h.view m = some v) (a : Addr) :
    Moves sha m [] h (h.updateStateTrieForEntry sha m a)
      (match v.accounts.get a with
        | none => v
        | some acc => { v with trie := v.trie.insertItem (Addr.bytes a) (acc.hash sha) }) := by
  have hg := view_get hv a
  cases he : h.entry m a with
  | none =>
    rw [hg, he]
    unfold updateStateTrieForEntry
    rw [he]; dsimp only; rw [he]
    exact Moves.refl hk hv
  | some e =>
    rw [hg, he, Option.map_some]
    dsimp only
    -- the entry that is hashed, after the storage it lacks has been allocated
    obtain ⟨q, e', hq, hm, he', hacc⟩ :
      ∃ q e', (if e.compact_storage.isSome then h else h.materializeAt m a) = q ∧
        Moves sha m [] h q v ∧ q.entry m a = some e' ∧ q.account e' = h.account e := by
      by_cases hc : e.compact_storage.isSome
      · exact ⟨h, e, if_pos hc, Moves.refl hk hv, he, rfl⟩
      · obtain ⟨hmat, e', he', -⟩ := materializeAt_moves hk hv he
        refine ⟨_, e', if_neg hc, hmat, he', ?_⟩
        have := view_get hmat.view a
        rw [he', hg, he, Option.map_some, Option.map_some, Option.some.injEq] at this
        exact this.symm
    unfold updateStateTrieForEntry
    rw [he]
    dsimp only
    rw [hq, he']
    dsimp only
    obtain ⟨hroot, -, hcache⟩ := storageRootHashForEntry_moves hm.ok hm.view he'
    rw [hroot]
    have hhash : accountHash sha e'.nonce e'.balance ((q.storageOf e').rootHash sha) (sha e'.code) =
      (h.account e).hash sha := by
      rw [← hacc]; rfl
    rw [hhash]
    exact (hm.trans hk hcache).trans hk (insertStateTrieHash_moves hcache.ok hcache.view a _)

end Heap

/-! ## Routines and their edits -/

open Heap
variable {sha : Bytes → Word} {m : Nat} {a : Addr}

/-- The routine does to the view of `m` what the edits do. -/
def Performs (sha : Bytes → Word) (m : Nat) (f : Run) (es : List Edit) : Prop :=
  ∀ h v, Ok sha h → h.view m = some v →
    Moves sha m (slotTargets (v.executed sha es)) h (f h).1 (v.run sha es).1 ∧
      (f h).2 = (v.run sha es).2

namespace Performs
variable {f g : Run} {es fs : List Edit}

theorem skip : Performs sha m Run.skip [] := fun _ _ hk hv => ⟨Moves.refl hk hv, rfl⟩

theorem fail (x : Fault) : Performs sha m (Run.fail x) [.fail x] := fun _ _ hk hv =>
    ⟨Moves.refl hk hv, rfl⟩

theorem seq (hf : Performs sha m f es) (hg : Performs sha m g fs) : Performs sha m (f.seq g)
    (es ++ fs) := by
  intro h v hk hv
  obtain ⟨hm, hr⟩ := hf h v hk hv
  rw [View.run_append, View.executed_append]
  unfold Run.seq slotTargets at *
  rw [List.filterMap_append]
  generalize f h = p at hm hr
  generalize v.run sha es = q at hm hr
  obtain ⟨h1, x⟩ := p
  obtain ⟨v1, y⟩ := q
  dsimp only at hm hr
  subst hr
  cases x with
  | some x =>
    refine ⟨?_, rfl⟩
    dsimp only
    rw [List.filterMap_nil, List.append_nil]
    exact hm
  | none =>
    obtain ⟨hm', hr'⟩ := hg h1 v1 hm.ok hm.view
    exact ⟨hm.trans hk hm', hr'⟩

theorem forEach {α : Type} {f : α → Run} {es : α → List Edit} : ∀ {l : List α},
    (∀ x ∈ l, Performs sha m (f x) (es x)) → Performs sha m (Run.forEach l f) (l.flatMap es)
  | [], _ => skip
  | x :: l, h => by
    rw [List.flatMap_cons]
    exact (h x List.mem_cons_self).seq (forEach fun y hy => h y (List.mem_cons_of_mem _ hy))

theorem whenSome {α : Type} {f : α → Run} {es : α → List Edit} {x : Option α}
    (h : ∀ y, x = some y → Performs sha m (f y) (es y)) : Performs sha m (Run.whenSome x f)
      (x.elim [] es) := by
  cases x with
  | none => exact skip
  | some y => exact h y rfl

/-- A routine that performs one edit. -/
theorem one {e : Edit} (hf : ∀ h v, Ok sha h → h.view m = some v → match v.edit sha e with
      | .ok v' => Moves sha m (slotTargets [e]) h (f h).1 v' ∧ (f h).2 = none
      | .error x => Moves sha m [] h (f h).1 v ∧ (f h).2 = some x) : Performs sha m f [e] := by
  intro h v hk hv
  have := hf h v hk hv
  simp only [View.run, View.executed]
  cases he : v.edit sha e with
  | ok v' => rw [he] at this; exact this
  | error x => rw [he] at this; exact this

end Performs

theorem ensure_performs (a : Addr) : Performs sha m (fun h => (h.ensureAccountEntry m a, none))
    [.ensure a] :=
  Performs.one fun _ _ hk hv => ⟨ensureAccountEntry_moves hk hv a, rfl⟩

theorem seal_performs (a : Addr) :
    Performs sha m (fun h => (h.updateStateTrieForEntry sha m a, none)) [.seal a] :=
  Performs.one fun _ _ hk hv => ⟨updateStateTrieForEntry_moves hk hv a, rfl⟩

/-- Compare a field of an entry and assign it. -/
def checkField (m : Nat) (a : Addr) (ok : AccountEntry → Bool) (set : AccountEntry → AccountEntry) :
    Run := fun h =>
  match h.entry m a with
  | none => (h, some .mismatch)
  | some e => if ok e then (h.setEntry m a (set e), none) else (h, some .mismatch)

theorem checkField_performs {γ : Type} [DecidableEq γ] {edit : Edit} {ok : AccountEntry → Bool}
    {set : AccountEntry → AccountEntry} (proj : Account → γ) (old : γ) (f : Account → Account)
    (hedit : ∀ v : View, v.edit sha edit =
      if (v.accounts.get a).map proj = some old then .ok (v.update a f) else .error .mismatch)
    (htarget : slotTargets [edit] = []) (hok : ∀ (h : Heap) e, ok e = true ↔ proj (h.account e) = old)
    (hst : ∀ e, (set e).storage = e.storage) (hc : ∀ e, (set e).compact_storage = e.compact_storage)
    (hset : ∀ (h : Heap) e, h.account (set e) = f (h.account e)) :
      Performs sha m (checkField m a ok set) [edit] := by
  refine Performs.one fun h v hk hv => ?_
  rw [hedit, htarget, view_get hv]
  unfold checkField
  cases he : h.entry m a with
  | none =>
    rw [Option.map_none, Option.map_none, if_neg nofun]
    exact ⟨Moves.refl hk hv, rfl⟩
  | some e =>
    rw [Option.map_some, Option.map_some]
    dsimp only
    by_cases h1 : proj (h.account e) = old
    · rw [if_pos (congrArg some h1), if_pos ((hok h e).2 h1)]
      refine ⟨?_, rfl⟩
      rw [View.update_of_get (show v.accounts.get a = some (h.account e) by rw [view_get hv, he, Option.map_some]), ← hset]
      exact Moves.setFields hk hv he _ (hst e) (hc e)
    · rw [if_neg fun e' => h1 (Option.some.inj e'), if_neg fun e' => h1 ((hok h e).1 e')]
      exact ⟨Moves.refl hk hv, rfl⟩

/-- The edits of a field whose new value is decoded into the entry itself, so that
it is lost when the value is malformed. -/
def decodedEdits {γ : Type} (edit : γ → γ → Edit) (zero : γ) (old new : Option γ) : List Edit :=
  match old with
  | none => [.fail .mismatch]
  | some o => match new with
    | some n => [edit o n]
    | none => [edit o zero, .fail .mismatch]

theorem decodeField_performs {γ : Type} [DecidableEq γ] {f : Run} {es : List Edit}
    (old new : Option γ) (edit : γ → γ → Edit) (proj : AccountEntry → γ) (set : γ → AccountEntry → AccountEntry) (zero : γ)
    (hcheck : ∀ o n, Performs sha m (checkField m a (fun e => o = proj e) (set n)) [edit o n])
    (hf : ∀ h, f h = match h.entry m a with
      | none => (h, some .mismatch)
      | some e =>
        if old = some (proj e) then
          match new with
          | some v => (h.setEntry m a (set v e), none)
          | none => (h.setEntry m a (set zero e), some .mismatch)
        else (h, some .mismatch))
    (hes : es = decodedEdits edit zero old new) : Performs sha m f es := by
  subst hes
  cases old with
  | none =>
    have hfail : f = Run.fail .mismatch := by
      funext h
      rw [hf]
      cases h.entry m a <;> rfl
    rw [hfail]
    exact Performs.fail _
  | some o =>
    cases new with
    | none =>
      have hseq : f = (checkField m a (fun e => o = proj e) (set zero)).seq (Run.fail .mismatch) := by
        funext h
        rw [hf]
        unfold checkField Run.seq
        dsimp only
        cases h.entry m a with
        | none => rfl
        | some e =>
          simp only [Option.some.injEq, decide_eq_true_eq]
          split <;> rfl
      rw [hseq]
      exact (hcheck o zero).seq (Performs.fail _)
    | some n =>
      have hone : f = checkField m a (fun e => o = proj e) (set n) := by
        funext h
        rw [hf]
        unfold checkField
        cases h.entry m a with
        | none => rfl
        | some e => simp only [Option.some.injEq, decide_eq_true_eq]
      rw [hone]
      exact hcheck o n

/-- **`apply_field_delta`.** -/
theorem applyFieldDelta_performs (a : Addr) (field : Field) (delta : Term) :
    Performs sha m (applyFieldDelta m a field delta) (fieldEdits a field delta) := by
  unfold fieldEdits
  cases hd : delta.pair? with
  | none =>
    have hf : applyFieldDelta m a field delta = Run.fail .mismatch := by
      funext h
      unfold applyFieldDelta
      rw [hd]
      cases h.entry m a <;> rfl
    rw [hf]
    exact Performs.fail _
  | some p =>
    obtain ⟨old, new⟩ := p
    cases field with
    | nonce =>
      dsimp only
      cases ho : old.getUint64 with
      | none =>
        have hf : applyFieldDelta m a .nonce delta = Run.fail .mismatch := by
          funext h
          unfold applyFieldDelta
          cases h.entry m a with
          | none => rfl
          | some e => simp only [hd, ho]; rfl
        rw [hf]
        exact Performs.fail _
      | some o =>
        cases hn : new.getUint64 with
        | none =>
          have hf : applyFieldDelta m a .nonce delta = Run.fail .mismatch := by
            funext h
            unfold applyFieldDelta
            cases h.entry m a with
            | none => rfl
            | some e => simp only [hd, ho, hn]; rfl
          rw [hf]
          exact Performs.fail _
        | some n =>
          have hf : applyFieldDelta m a .nonce delta =
              checkField m a (fun e => e.nonce = o) fun e => { e with nonce := n } := by
            funext h
            unfold applyFieldDelta checkField
            cases h.entry m a with
            | none => rfl
            | some e => simp only [hd, ho, hn, decide_eq_true_eq]
          rw [hf]
          exact checkField_performs Account.nonce o (fun acc => { acc with nonce := n })
            (fun _ => rfl) rfl
            (fun _ _ => decide_eq_true_iff) (fun _ => rfl) (fun _ => rfl) fun _ _ => rfl
    | balance =>
      dsimp only
      have hcheck : ∀ o n, Performs sha m (checkField m a (fun e => o = e.balance) fun e =>
        { e with balance := n }) [.balance a o n] := fun o n =>
        checkField_performs Account.balance o (fun acc => { acc with balance := n }) (fun _ => rfl) rfl
          (fun _ _ => decide_eq_true_iff.trans eq_comm) (fun _ => rfl) (fun _ => rfl) fun _ _ => rfl
      refine decodeField_performs old.getBalance new.getBalance (fun o n => .balance a o n) AccountEntry.balance
        (fun n e => { e with balance := n }) 0 hcheck (fun h => ?_) ?_
      · unfold applyFieldDelta
        rw [hd]
        cases h.entry m a with
        | none => rfl
        | some e =>
          dsimp only
          cases new.getBalance <;> rfl
      · cases old.getBalance with
        | none => rfl
        | some o => cases new.getBalance <;> rfl
    | code =>
      dsimp only
      have hcheck : ∀ o n, Performs sha m (checkField m a (fun e => o = e.code) fun e =>
        { e with code := n }) [.code a o n] := fun o n =>
        checkField_performs Account.code o (fun acc => { acc with code := n }) (fun _ => rfl) rfl
          (fun _ _ => decide_eq_true_iff.trans eq_comm) (fun _ => rfl) (fun _ => rfl) fun _ _ => rfl
      refine decodeField_performs old.getCode new.getCode (fun o n => .code a o n) AccountEntry.code
        (fun n e => { e with code := n }) [] hcheck (fun h => ?_) ?_
      · unfold applyFieldDelta
        rw [hd]
        cases h.entry m a with
        | none => rfl
        | some e =>
          dsimp only
          cases new.getCode <;> rfl
      · cases old.getCode with
        | none => rfl
        | some o => cases new.getCode <;> rfl

theorem readStorageSlot_eq {h : Heap} {v : View} (hv : h.view m = some v) (key : Bytes) :
    h.readStorageSlot m a key = (v.storage a).read key := by
  unfold readStorageSlot View.storage
  rw [view_get hv]
  cases h.entry m a <;> rfl

/-- `materialize_storage` shows nothing, also where there is no entry. -/
theorem materializeAt_moves' {h : Heap} {v : View} (hk : Ok sha h) (hv : h.view m = some v) :
    Moves sha m [] h (h.materializeAt m a) v := by
  cases he : h.entry m a with
  | some e => exact (materializeAt_moves hk hv he).1
  | none =>
    unfold Heap.materializeAt
    rw [he]
    exact Moves.refl hk hv

/-- One slot of `apply_storage_delta`. -/
theorem applySlotDelta_performs (a : Addr) (slot : Term × Term) :
    Performs sha m (applySlotDelta m a slot) (slotEdits a slot) := by
  unfold slotEdits
  cases hb : slot.1.bin? with
  | none =>
    have hf : applySlotDelta m a slot = Run.fail .mismatch := by
      funext h
      simp only [applySlotDelta, hb]
      rfl
    rw [hf]
    exact Performs.fail _
  | some key =>
    cases hp : slot.2.pair? with
    | none =>
      have hf : applySlotDelta m a slot = Run.fail .mismatch := by
        funext h
        simp only [applySlotDelta, hb, hp]
        rfl
      rw [hf]
      exact Performs.fail _
    | some p =>
      obtain ⟨old, new⟩ := p
      dsimp only
      cases ho : old.getStorageValue with
      | none =>
        refine Performs.one fun h v hk hv => ?_
        simp only [applySlotDelta, hb, hp, ho, reduceCtorEq, if_false]
        exact ⟨materializeAt_moves' hk hv, rfl⟩
      | some o =>
        cases hn : new.getStorageValue with
        | none =>
          refine Performs.one fun h v hk hv => ?_
          simp only [applySlotDelta, hb, hp, ho, hn, ite_self]
          exact ⟨materializeAt_moves' hk hv, rfl⟩
        | some n =>
          refine Performs.one fun h v hk hv => ?_
          have hmat := materializeAt_moves' (a := a) hk hv
          simp only [applySlotDelta, hb, hp, ho, hn, readStorageSlot_eq hmat.view, View.edit,
            Option.all_some,
            decide_eq_true_eq, Option.some.injEq]
          by_cases h1 : o = (v.storage a).read key
          · rw [if_pos h1, if_pos h1.symm]
            exact ⟨hmat.trans hk (writeStorageSlot_moves hmat.ok hmat.view a key n), rfl⟩
          · rw [if_neg h1, if_neg fun e => h1 e.symm]
            exact ⟨hmat, rfl⟩

/-- **`apply_storage_delta`.** -/
theorem applyStorageDelta_performs (a : Addr) (stateMap : Term) :
    Performs sha m (applyStorageDelta m a stateMap) (storageEdits a stateMap) := by
  unfold applyStorageDelta storageEdits
  cases stateMap.entries? with
  | none => exact Performs.fail _
  | some l => exact Performs.forEach fun x _ => applySlotDelta_performs a x

theorem applyDifferenceItem_performs (head : Term) : Performs sha m (applyDifferenceItem sha m head)
    (itemEdits head) := by
  unfold applyDifferenceItem itemEdits
  cases head.pair? with
  | none => exact Performs.fail _
  | some p =>
    obtain ⟨addr, report⟩ := p
    dsimp only
    cases addr.getAddress with
    | none => exact Performs.fail _
    | some a =>
      cases report.entries? with
      | none => exact Performs.fail _
      | some _ =>
        dsimp only
        rw [List.append_assoc, List.append_assoc]
        exact (ensure_performs a).seq <|
          (Performs.whenSome fun d _ => applyStorageDelta_performs a d).seq <|
          (Performs.forEach fun f _ => Performs.whenSome fun d _ =>
            applyFieldDelta_performs a f d).seq (seal_performs a)

theorem storagePutSlot_performs (a : Addr) (kv : Term) : Performs sha m (storagePutSlot m a kv)
    (putSlotEdits a kv) := by
  unfold putSlotEdits
  cases hs : kv.slot32? with
  | none =>
    have hf : storagePutSlot m a kv = Run.fail .badarg := by
      funext h
      simp only [storagePutSlot, hs]
      rfl
    rw [hf]
    exact Performs.fail _
  | some p =>
    obtain ⟨key, w⟩ := p
    have hf : storagePutSlot m a kv = fun h => (h.writeStorageSlot m a key w, none) := by
      funext h
      simp only [storagePutSlot, hs]
    rw [hf]
    exact Performs.one fun _ _ hk hv => ⟨writeStorageSlot_moves hk hv a key w, rfl⟩

theorem storagePutItem_performs (head : Term) : Performs sha m (storagePutItem sha m head)
    (putItemEdits head) := by
  unfold storagePutItem putItemEdits
  cases head.pair? with
  | none => exact Performs.fail _
  | some p =>
    obtain ⟨addr, kvs⟩ := p
    dsimp only
    cases addr.getAddress with
    | none => exact Performs.fail _
    | some a =>
      dsimp only
      cases kvs.isList with
      | false => exact Performs.fail _
      | true =>
        rw [if_pos rfl, if_pos rfl, List.append_assoc]
        exact (ensure_performs a).seq <|
          (Performs.forEach fun x _ => storagePutSlot_performs a x).seq (seal_performs a)

/-! ## Single accounts -/

theorem release_entry {h : Heap} (hk : Ok sha h) (a : Addr) :
    ∃ res, (h.entry m a).elim h h.releaseEntryStorage = { h with res } ∧
      res.Held (update h.own (.entry m a) none) ∧
      res.nextMt = h.res.nextMt ∧ ∀ o mt, o ≠ .entry m a → h.own o = some mt →
        res.tree mt = h.res.tree mt := by
  have hnone : h.own (.entry m a) = none → h.res.Held (update h.own (.entry m a) none) := fun ho => by
    rw [← ho, update_eq_self]
    exact hk.held
  cases he : h.entry m a with
  | none =>
    exact ⟨h.res, rfl, hnone (by show (h.entry m a).bind _ = _; rw [he, Option.bind_none]), rfl,
      fun _ _ _ _ => rfl⟩
  | some e =>
    rw [Option.elim_some]
    unfold Heap.releaseEntryStorage
    cases hst : e.storage with
    | none => exact ⟨h.res, rfl, hnone (by rw [own_entry he, hst]), rfl, fun _ _ _ _ => rfl⟩
    | some mt =>
      obtain ⟨hheld, hn, ht⟩ :=
        hk.held.release (show h.own (.entry m a) = some mt by rw [own_entry he, hst])
      exact ⟨_, rfl, hheld, hn, ht⟩

/-- A storage of its own for an account, in place of the one it has. -/
theorem replace_performs (a : Addr) (nonce : BitVec 64) (balance : Word) (storage : Tree)
    (code : Bytes) :
    Performs sha m (fun h =>
      let h := (h.entry m a).elim h h.releaseEntryStorage
      let (mt, res) := h.res.alloc
      let h := { h with res := res.modifyTree mt fun _ => storage }
      (h.setEntry m a ⟨nonce, balance, some mt, none, code⟩, none))
        [.replace a ⟨nonce, balance, code, storage⟩] := by
  refine Performs.one fun h v hk hv => ?_
  obtain ⟨res, hq, hheld, hn, htree⟩ := release_entry (m := m) hk a
  dsimp only
  rw [hq]
  dsimp only
  obtain ⟨hheld', hn', htree', hothers⟩ := hheld.allocWith (o := .entry m a) (update_self ..) storage
  rw [update_idem] at hheld'
  have hm := Moves.setEntry (e := ⟨nonce, balance, some res.alloc.1, none, code⟩) hk hv _ hheld'
    (fun o mt hne ho => (hothers mt fun e => hk.own_fresh (le_of_eq (hn.symm.trans e.symm)) o ho).trans (htree o mt hne ho))
    (by omega) (fun mt hmt => .inr (le_of_eq (hn.symm.trans (Option.some.inj hmt))))
      (fun _ => rfl) nofun
  have hacc : ({ h with res := res.alloc.2.modifyTree res.alloc.1 fun _ => storage } : Heap).account
      ⟨nonce, balance, some res.alloc.1, none, code⟩ = ⟨nonce, balance, code, storage⟩ := by
    unfold Heap.account Heap.storageOf
    dsimp only
    rw [htree']
  rw [hacc] at hm
  exact ⟨hm, rfl⟩

theorem putKeep_performs (a : Addr) (nonce : BitVec 64) (balance : Word) (code : Bytes) :
    Performs sha m (putKeep sha m a nonce balance code) [.ensure a, .fields a nonce balance code,
      .seal a] := by
  have hfields : Performs sha m (fun h => (match h.entry m a with
      | none => h
      | some e => h.setEntry m a { e with nonce, balance, code }, none))
          [.fields a nonce balance code] := by
    refine Performs.one fun h v hk hv => ⟨?_, rfl⟩
    dsimp only
    cases he : h.entry m a with
    | none =>
      have hu : v.update a (fun acc => { acc with nonce, balance, code }) = v := by
        unfold View.update
        rw [view_get hv, he, Option.map_none]
      rw [hu]
      exact Moves.refl hk hv
    | some e =>
      rw [View.update_of_get (show v.accounts.get a = some (h.account e) by rw [view_get hv, he, Option.map_some])]
      exact Moves.setFields hk hv he { e with nonce, balance, code } rfl rfl
  have hf : putKeep sha m a nonce balance code = Run.seq (fun h => (h.ensureAccountEntry m a, none))
      (Run.seq (fun h => (match h.entry m a with
        | none => h
        | some e => h.setEntry m a { e with nonce, balance, code }, none))
        fun h => (h.updateStateTrieForEntry sha m a, none)) := by
    funext h
    simp only [putKeep, Run.seq]
    cases he : (h.ensureAccountEntry m a).entry m a with
    | none =>
      simp only [updateStateTrieForEntry, he]
    | some e => rfl
  rw [hf]
  exact (ensure_performs a).seq (hfields.seq (seal_performs a))

theorem putStorage_performs (a : Addr) (nonce : BitVec 64) (balance : Word) (storage : Tree)
    (code : Bytes) :
    Performs sha m (putStorage sha m a nonce balance storage code)
      [.replace a ⟨nonce, balance, code, storage⟩, .seal a] :=
  (replace_performs a nonce balance storage code).seq (seal_performs a)

theorem delete_performs (a : Addr) : Performs sha m (fun h => match h.maps m, h.entry m a with
    | some s, some e =>
      (((h.releaseEntryStorage e).setMap m { s with accounts := s.accounts.del a }).removeStateTrieEntry m a, none)
    | _, _ => (h, none)) [.erase a] := by
  refine Performs.one fun h v hk hv => ?_
  obtain ⟨s, hs, -⟩ := view_some hv
  unfold View.edit
  dsimp only
  rw [hs, view_get hv]
  cases he : h.entry m a with
  | none =>
    rw [Option.map_none, Option.isSome_none, if_neg nofun]
    exact ⟨Moves.refl hk hv, rfl⟩
  | some e =>
    rw [Option.map_some, Option.isSome_some, if_pos rfl]
    dsimp only
    obtain ⟨res, hq, hheld, hn, htree⟩ := release_entry (m := m) hk a
    rw [he, Option.elim_some] at hq
    rw [hq]
    have hm := Moves.setTable (x := none) hk hv hs (v.accounts.del a) (replaces_del s.accounts a)
      (fun b => SMap.get_del _ _ _) hheld htree (le_of_eq hn.symm) nofun nofun nofun
    exact ⟨hm.trans hk (insertStateTrieHash_moves hm.ok hm.view a 0), rfl⟩

/-! ## The calls -/

/-- What a call on a handle does to its view, frozen or not. -/
def PerformsAt (sha : Bytes → Word) (m : Nat) (h : Heap) (v : View) (f : Run) (es : List Edit) : Prop :=
  Moves sha m (slotTargets (v.executed sha (v.writable es))) h (f h).1 (v.run sha (v.writable es)).1 ∧
    (f h).2 = (v.run sha (v.writable es)).2

theorem writeable_performs {f : Run} {es : List Edit} (hf : Performs sha m f es) {h : Heap}
    {v : View} (hk : Ok sha h)
    (hv : h.view m = some v) : PerformsAt sha m h v (makeWriteableAccountmap m f) es := by
  obtain ⟨s, hs, hfr, -⟩ := view_some hv
  unfold PerformsAt makeWriteableAccountmap View.writable
  rw [hs, hfr]
  dsimp only
  cases s.frozen with
  | true => exact ⟨Moves.refl hk hv, rfl⟩
  | false => exact hf h v hk hv

theorem badarg_performs {h : Heap} {v : View} (hk : Ok sha h) (hv : h.view m = some v) :
    PerformsAt sha m h v (Run.fail .badarg) [.fail .badarg] := by
  unfold PerformsAt View.writable
  cases v.frozen <;> exact ⟨Moves.refl hk hv, rfl⟩

variable {h : Heap} {v : View}

/-- **`account_map_apply_difference`.** -/
theorem applyDifference_performs (hk : Ok sha h) (hv : h.view m = some v) (delta : Term) :
    PerformsAt sha m h v (applyDifference sha m delta) (deltaEdits delta) := by
  unfold applyDifference deltaEdits
  cases delta.isList with
  | false => exact badarg_performs hk hv
  | true => exact writeable_performs (Performs.forEach fun x _ => applyDifferenceItem_performs x) hk hv

/-- **`account_map_storage_put_map`.** -/
theorem storagePutMap_performs (hk : Ok sha h) (hv : h.view m = some v) (updates : Term) :
    PerformsAt sha m h v (storagePutMap sha m updates) (putMapEdits updates) := by
  unfold storagePutMap putMapEdits
  cases updates.isList with
  | false => exact badarg_performs hk hv
  | true => exact writeable_performs (Performs.forEach fun x _ => storagePutItem_performs x) hk hv

/-- **`account_map_put`.** -/
theorem accountMapPut_performs (hk : Ok sha h) (hv : h.view m = some v)
    (addr nonce balance storage code : Term) :
    PerformsAt sha m h v (accountMapPut sha m addr nonce balance storage code)
      (putEdits addr nonce balance storage code) := by
  unfold accountMapPut putEdits
  cases addr.getAddress with
  | none => exact badarg_performs hk hv
  | some a =>
    cases nonce.getUint64 with
    | none => exact badarg_performs hk hv
    | some n =>
      cases balance.getBalance with
      | none => exact badarg_performs hk hv
      | some b =>
        cases code.getCode with
        | none => exact badarg_performs hk hv
        | some c =>
          dsimp only
          cases storage.isAtom .keep with
          | true => exact writeable_performs (putKeep_performs a n b c) hk hv
          | false =>
            rw [if_neg nofun, if_neg nofun]
            cases storage.storagePayload with
            | none => exact badarg_performs hk hv
            | some t => exact writeable_performs (putStorage_performs a n b t c) hk hv

/-- **`account_map_delete`.** -/
theorem accountMapDelete_performs (hk : Ok sha h) (hv : h.view m = some v) (addr : Term) :
    PerformsAt sha m h v (accountMapDelete m addr) (deleteEdits addr) := by
  unfold accountMapDelete deleteEdits
  cases addr.getAddress with
  | none => exact badarg_performs hk hv
  | some a => exact writeable_performs (delete_performs a) hk hv

end Diode.L3
