import Diode.L3State.Simulation

/-!
# Maps made from maps

`account_map_new`, `account_map_clone`, `account_map_lock` and the destructor
of a handle, on the views: a fork shows what its source shows, and no map that
was there before looks different.
-/
namespace Diode.L3
open Diode.Core Diode.L1.Ext Function Heap

variable {sha : Bytes → Word} {h q : Heap} {m n : Nat} {a : Addr} {e : AccountEntry} {v : View}
    {s : SharedAccountMap}

theorem ok_init : Ok sha Heap.init where
  held := Resources.held_init _ fun o => by cases o <;> rfl
  apart := fun o _ _ ho _ => by cases o <;> cases ho
  kind := fun _ _ _ he _ => by cases he
  compact := fun _ _ _ _ he _ => by cases he
  root := fun _ _ _ hc _ => by cases hc
  freshCompact := fun _ _ => rfl
  freshMap := fun _ _ => rfl

namespace Heap

theorem lt_nextMap (hk : Ok sha h) (hs : h.maps m = some s) : m < h.nextMap := by
  by_contra hn
  rw [hk.freshMap m (Nat.le_of_not_lt hn)] at hs
  cases hs

theorem view_lt (hk : Ok sha h) (hv : h.view m = some v) : m < h.nextMap := by
  obtain ⟨s, hs, -⟩ := view_some hv
  exact lt_nextMap hk hs

/-- Nobody but `n` sees the difference. -/
theorem Beside.frame (hk : Ok sha h) (hb : Beside h q n) (hm : m ≠ n) : q.view m = h.view m := by
  unfold view
  rw [hb.maps m hm]
  cases hs : h.maps m with
  | none => rfl
  | some s =>
    have hentries : s.accounts.map q.account = s.accounts.map h.account := by
      refine SMap.map_congr fun b e he => ?_
      have hent : h.entry m b = some e := (entry_of_map hs b).trans he
      exact account_eq hk hent (fun mt hmt => hb.trees (.entry m b) mt hm
        ((own_entry hent).trans hmt)) hb.slots
    rw [Option.map_some, Option.map_some, hentries, hb.trees (.trie m) s.state_trie hm (by
      show (h.maps m).map _ = _
      rw [hs, Option.map_some])]

theorem Beside.entry (hb : Beside h q n) (hm : m ≠ n) (a : Addr) : q.entry m a = h.entry m a := by
  unfold Heap.entry
  rw [hb.maps m hm]

theorem Beside.account (hk : Ok sha h) (hb : Beside h q n) (hm : m ≠ n) (he : h.entry m a = some e) :
    q.account e = h.account e :=
  account_eq hk he (fun mt hmt => hb.trees (.entry m a) mt hm ((own_entry he).trans hmt)) hb.slots

/-- The heap with a new, empty map around an existing trie. -/
def addMap (h : Heap) (st : Nat) : Heap :=
    { h.setMap h.nextMap ⟨false, st, SMap.empty⟩ with nextMap := h.nextMap + 1 }

theorem own_addMap (hk : Ok sha h) (st : Nat) : (h.addMap st).own = update h.own
    (.trie h.nextMap) (some st) := by
  have hnone : h.maps h.nextMap = none := hk.freshMap _ (le_refl _)
  funext o
  cases o with
  | trie m' =>
    show (update h.maps h.nextMap (some ⟨false, st, SMap.empty⟩) m').map _ = _
    by_cases e : m' = h.nextMap
    · subst e
      rw [update_self, update_self, Option.map_some]
    · rw [update_of_ne e, update_of_ne fun e' => e (by cases e'; rfl)]
      rfl
  | entry m' b =>
    rw [update_of_ne (show Owner.entry m' b ≠ .trie h.nextMap from nofun)]
    show ((update h.maps h.nextMap (some ⟨false, st, SMap.empty⟩) m').bind _).bind _ =
      ((h.maps m').bind _).bind _
    by_cases e : m' = h.nextMap
    · subst e
      rw [update_self, hnone]
      rfl
    · rw [update_of_ne e]

/-- **A new map** around a trie resource nobody else holds. -/
theorem Builds.addMap (hk : Ok sha h) {res : Resources} {st : Nat}
    (held : res.Held (update h.own (.trie h.nextMap) (some st)))
    (trees : ∀ o mt, h.own o = some mt → res.tree mt = h.res.tree mt)
    (next : h.res.nextMt ≤ res.nextMt) (fresh : h.res.nextMt ≤ st) :
    Builds sha h.nextMap h ({ h with res }.addMap st) ⟨false, res.tree st, SMap.empty⟩ := by
  have hown : ({ h with res }.addMap st).own = update h.own (.trie h.nextMap) (some st) := by
    have := own_addMap (h := { h with compacts := h.compacts }) hk st
    exact this
  have hent : ∀ m' b, ({ h with res }.addMap st).entry m' b = h.entry m' b := by
    intro m' b
    show (update h.maps h.nextMap (some ⟨false, st, SMap.empty⟩) m').bind _ = (h.maps m').bind _
    by_cases e : m' = h.nextMap
    · subst e
      rw [update_self, hk.freshMap _ (le_refl _)]
      rfl
    · rw [update_of_ne e]
  refine ⟨⟨?_, ?_, ?_, ?_, hk.root, hk.freshCompact, ?_⟩, ?_, ⟨?_, fun o mt _ ho => trees o mt ho,
    fun _ cs hc => ⟨cs, hc, rfl⟩, next⟩⟩
  · rw [hown]
    exact held
  · intro o o' mt ho ho'
    rw [hown] at ho ho'
    by_cases e1 : o = .trie h.nextMap
    · by_cases e2 : o' = .trie h.nextMap
      · exact .inl (e1.trans e2.symm)
      · rw [e1, update_self, Option.some.injEq] at ho
        rw [update_of_ne e2] at ho'
        exact absurd ho' (hk.own_fresh (by omega) o')
    · rw [update_of_ne e1] at ho
      by_cases e2 : o' = .trie h.nextMap
      · rw [e2, update_self, Option.some.injEq] at ho'
        exact absurd ho (hk.own_fresh (by omega) o)
      · rw [update_of_ne e2] at ho'
        exact hk.apart o o' mt ho ho'
  · intro m' b e he
    rw [hent] at he
    exact hk.kind m' b e he
  · intro m' b e c he hc
    rw [hent] at he
    exact hk.compact m' b e c he hc
  · intro m' hm'
    have hm'' : h.nextMap + 1 ≤ m' := hm'
    show update h.maps h.nextMap (some ⟨false, st, SMap.empty⟩) m' = none
    rw [update_of_ne (by omega)]
    exact hk.freshMap m' (by omega)
  · have hmap : ({ h with res }.addMap st).maps h.nextMap = some ⟨false, st, SMap.empty⟩ :=
      update_self ..
    rw [view_of_map hmap]
    rfl
  · intro m' hm'
    exact update_of_ne hm' _ _

/-- **`account_map_new`.** -/
theorem accountMapNew_builds (hk : Ok sha h) :
    h.accountMapNew.1 = h.nextMap ∧ Builds sha h.nextMap h h.accountMapNew.2 View.empty ∧
      h.accountMapNew.2.nextMap = h.nextMap + 1 ∧
      h.accountMapNew.2.maps h.nextMap = some ⟨false, h.res.nextMt, SMap.empty⟩ ∧
      h.accountMapNew.2.res.Sole h.res.nextMt := by
  have ho : h.own (.trie h.nextMap) = none := by
    show (h.maps h.nextMap).map _ = _
    rw [hk.freshMap _ (le_refl _), Option.map_none]
  obtain ⟨hheld, htree, hothers⟩ := hk.held.alloc ho
  have hb := Builds.addMap hk hheld (fun o mt ho => hothers mt fun e => hk.own_fresh
    (le_of_eq e.symm) o ho)
    (Nat.le_succ _) (le_refl h.res.nextMt)
  rw [htree] at hb
  exact ⟨rfl, hb, rfl, update_self .., hk.held.sole_alloc⟩

/-- An account added to the table of `n`. -/
theorem Builds.addEntry (hk : Ok sha q) (hv : q.view n = some v) (res : Resources)
    (held : res.Held (update q.own (.entry n a) e.storage))
    (trees : ∀ o mt, o ≠ .entry n a → q.own o = some mt → res.tree mt = q.res.tree mt)
    (next : q.res.nextMt ≤ res.nextMt)
    (free : ∀ mt, e.storage = some mt → ∀ o, q.own o = some mt → ∃ m' b, m' ≠ n ∧ o = .entry m' b)
    (kind : e.storage ≠ none → e.compact_storage = none)
    (compact : ∀ c, e.compact_storage = some c → ∃ cs, q.compacts c = some cs) :
    Builds sha n q ({ q with res }.setEntry n a e)
      { v with accounts := v.accounts.put a (({ q with res } : Heap).account e) } := by
  obtain ⟨s, hs, -⟩ := view_some hv
  rw [setEntry_of_map (h := { q with res }) hs]
  refine Builds.setTable (x := some e) hk hv hs _ (replaces_put _ _ _)
    (fun b => SMap.get_put _ _ _ _) held trees next
    (fun mt hmt => .inr (free mt hmt)) (fun e' he' => ?_) fun e' c he' => ?_
  · cases he'; exact kind
  · cases he'; exact compact c

theorem own_of_absent (hv : q.view n = some v) (hnone : v.accounts.get a = none) :
    q.own (.entry n a) = none := by
  rw [view_get hv, Option.map_eq_none_iff] at hnone
  show (q.entry n a).bind _ = none
  rw [hnone, Option.bind_none]

theorem own_setEntry (hs : q.maps n = some s) {res : Resources} :
    ({ q with res }.setEntry n a e).own = update q.own (.entry n a) e.storage := by
  rw [setEntry_of_map (h := { q with res }) hs]
  exact own_setMap (h := { q with res }) (x := some e) hs (replaces_put _ _ _) rfl

/-! ## Clone -/

/-- One entry of the fork. -/
theorem forkEntry_builds (hk : Ok sha h) (hm : m ≠ n) (hq : Ok sha q) (hb : Beside h q n)
    (hv : q.view n = some v)
    (he : h.entry m a = some e) (hnone : v.accounts.get a = none) {clones : List (Nat × Nat)}
    (hclones : ∀ orig, e.storage = some orig → clones.lookup orig = none) :
    Builds sha n q (forkEntry n (q, clones) (a, e)).1
      { v with accounts := v.accounts.put a (h.account e) } ∧
      (∀ k, (forkEntry n (q, clones) (a, e)).2.lookup k ≠ none → clones.lookup k ≠ none ∨
        e.storage = some k) ∧
      ∀ b mt, (forkEntry n (q, clones) (a, e)).1.own (.entry n b) = some mt →
        q.own (.entry n b) = some mt ∨ q.res.nextMt ≤ mt := by
  obtain ⟨s, hs, -⟩ := view_some hv
  have hholds : ∀ (res : Resources) (e' : AccountEntry),
    (∀ mt, e'.storage = some mt → q.res.nextMt ≤ mt) → ∀ b mt,
      ({ q with res }.setEntry n a e').own (.entry n b) = some mt → q.own (.entry n b) = some mt ∨
        q.res.nextMt ≤ mt := by
    intro res e' hfresh b mt ho
    rw [own_setEntry hs] at ho
    by_cases e1 : Owner.entry n b = .entry n a
    · rw [e1, update_self] at ho
      exact .inr (hfresh mt ho)
    · rw [update_of_ne e1] at ho
      exact .inl ho
  have heq : q.entry m a = some e := (hb.entry hm a).trans he
  have hown : q.own (.entry n a) = none := own_of_absent hv hnone
  -- an entry without a live storage is copied as it is
  have hkept : e.storage = none →
      Builds sha n q ({ q with res := q.res }.setEntry n a e)
        { v with accounts := v.accounts.put a (h.account e) } := fun hst => by
    have := Builds.addEntry (a := a) (e := e) hq hv q.res
      (by rw [hst, ← hown, update_eq_self]; exact hq.held)
      (fun _ _ _ _ => rfl) (le_refl _) (by rw [hst]; nofun) (by rw [hst]; exact fun h => absurd rfl h)
      fun c hc' => hq.compact m a e c heq hc'
    rwa [show ({ q with res := q.res } : Heap).account e = h.account e from hb.account hk hm he] at this
  unfold forkEntry
  cases hc : e.compact_storage with
  | some c =>
    have hst : e.storage = none := by
      by_contra hne
      rw [hq.kind m a e heq hne] at hc
      cases hc
    exact ⟨hkept hst, fun k hk' => .inl hk', hholds q.res e (by rw [hst]; nofun)⟩
  | none =>
    cases hst : e.storage with
    | none => exact ⟨hkept hst, fun k hk' => .inl hk', hholds q.res e (by rw [hst]; nofun)⟩
    | some orig =>
      dsimp only
      rw [hclones orig hst]
      dsimp only
      have hsrc : q.own (.entry m a) = some orig := (own_entry heq).trans hst
      obtain ⟨h1, hn, hheld, htree, hothers⟩ := hq.held.clone hsrc hown
      have hacc : ({ q with res := (q.res.clone orig).2 } : Heap).account
        { e with storage := some (q.res.clone orig).1 } =
          h.account e := by
        rw [← hb.account hk hm he]
        unfold Heap.account storageOf
        dsimp only
        rw [h1, htree, hst]
      have := Builds.addEntry (a := a) (e := { e with storage := some (q.res.clone orig).1 }) hq hv
        (q.res.clone orig).2 (by rw [h1]; exact hheld)
        (fun o mt _ ho => hothers mt fun e' => hq.own_fresh (le_of_eq e'.symm) o ho) (by omega)
        (fun mt hmt o ho => absurd ho
          (hq.own_fresh (by rw [Option.some.injEq, h1] at hmt; exact le_of_eq hmt) o)) (fun _ => hc)
        (by rw [hc]; nofun)
      rw [hacc] at this
      refine ⟨this, fun k hk' => ?_, hholds _ _ fun mt hmt =>
        le_of_eq (h1.symm.trans (Option.some.inj hmt))⟩
      by_cases e' : k = orig
      · exact .inr (by rw [e'])
      · refine .inl ?_
        rwa [List.lookup_cons, show (k == orig) = false from beq_false_of_ne e'] at hk'

/-- The loop of `fork_shared_accountmap`. -/
theorem forkEntries_builds (hk : Ok sha h) (hm : m ≠ n) : ∀ (l : List (Addr × AccountEntry))
    (q : Heap) (v : View)
    (clones : List (Nat × Nat)), (l.map Prod.fst).Nodup → (∀ p ∈ l, h.entry m p.1 = some p.2) → Ok sha q →
    Beside h q n → q.view n = some v → (∀ p ∈ l, v.accounts.get p.1 = none) →
    (∀ p ∈ l, ∀ orig, p.2.storage = some orig → clones.lookup orig = none) →
    Builds sha n q (l.foldl (forkEntry n) (q, clones)).1
      { v with accounts := (l.map fun p => (p.1, h.account p.2)).foldl (fun t p => t.put p.1 p.2) v.accounts } ∧
      ∀ b mt, (l.foldl (forkEntry n) (q, clones)).1.own (.entry n b) = some mt →
        q.own (.entry n b) = some mt ∨ q.res.nextMt ≤ mt
  | [], q, v, _, _, _, hq, _, hv, _, _ => ⟨⟨hq, hv, Beside.refl q n⟩, fun _ _ ho => .inl ho⟩
  | (a, e) :: l, q, v, clones, hnd, hsrc, hq, hb, hv, hnone, hclones => by
    rw [List.map_cons, List.nodup_cons] at hnd
    obtain ⟨h1, h2, h3⟩ := forkEntry_builds hk hm hq hb hv (hsrc (a, e) List.mem_cons_self)
      (hnone (a, e) List.mem_cons_self)
      (hclones (a, e) List.mem_cons_self)
    have hne : ∀ p ∈ l, a ≠ p.1 := fun p hp e' => hnd.1 (List.mem_map.2 ⟨p, hp, e'.symm⟩)
    rw [List.foldl_cons]
    generalize hr : forkEntry n (q, clones) (a, e) = r at h1 h2 h3
    obtain ⟨q1, clones1⟩ := r
    have hnone' : ∀ p ∈ l, (v.accounts.put a (h.account e)).get p.1 = none := fun p hp => by
      rw [SMap.get_put, if_neg (hne p hp)]
      exact hnone p (List.mem_cons_of_mem _ hp)
    have hclones' : ∀ p ∈ l, ∀ orig, p.2.storage = some orig → clones1.lookup orig = none :=
      fun p hp orig hst => by
      by_contra hl
      rcases h2 orig hl with hl | hl
      · exact hl (hclones p (List.mem_cons_of_mem _ hp) orig hst)
      · -- two accounts of one map do not share a storage
        have o1 : h.own (.entry m a) = some orig :=
          (own_entry (hsrc (a, e) List.mem_cons_self)).trans hl
        have o2 : h.own (.entry m p.1) = some orig :=
          (own_entry (hsrc p (List.mem_cons_of_mem _ hp))).trans hst
        rcases hk.apart _ _ orig o1 o2 with e' | ⟨m1, a1, m2, a2, hne', e1, e2⟩
        · exact hne p hp (by cases e'; rfl)
        · cases e1; cases e2
          exact hne' rfl
    obtain ⟨h4, h5⟩ := forkEntries_builds hk hm l q1 _ clones1 hnd.2
      (fun p hp => hsrc p (List.mem_cons_of_mem _ hp)) h1.ok
      (hb.trans h1.beside) h1.view hnone' hclones'
    refine ⟨h1.trans h4, fun b mt ho => ?_⟩
    rcases h5 b mt ho with ho | hle
    · exact h3 b mt ho
    · exact .inr (le_trans h1.beside.nextMt hle)

/-- **`account_map_clone`.** The fork is writable and shows what its source shows. -/
theorem accountMapClone_builds (hk : Ok sha h) (hv : h.view m = some v) :
    ∃ h', h.accountMapClone m = some (h.nextMap, h') ∧
    Builds sha h.nextMap h h' { v with frozen := false } ∧
      ∀ b mt, h'.own (.entry h.nextMap b) = some mt → h.res.nextMt ≤ mt := by
  obtain ⟨s, hs, -, ht, ha⟩ := view_some hv
  have hmn : m ≠ h.nextMap := Nat.ne_of_lt (lt_nextMap hk hs)
  have hst : h.own (.trie m) = some s.state_trie := by
    show (h.maps m).map _ = _
    rw [hs, Option.map_some]
  have ho : h.own (.trie h.nextMap) = none := by
    show (h.maps h.nextMap).map _ = _
    rw [hk.freshMap _ (le_refl _), Option.map_none]
  obtain ⟨h1, hn, hheld, htree, hothers⟩ := hk.held.clone hst ho
  have hb := Builds.addMap hk hheld (fun o mt ho => hothers mt fun e => hk.own_fresh
    (le_of_eq e.symm) o ho) (by omega)
    (le_refl h.res.nextMt)
  obtain ⟨hloop, hown⟩ := forkEntries_builds hk hmn s.accounts.entries _ _ [] s.accounts.keys_nodup
    (fun p hp => (entry_of_map hs p.1).trans ((s.accounts.mem_iff p.1 p.2).1 hp)) hb.ok hb.beside
      hb.view (fun _ _ => rfl)
    fun _ _ _ _ => rfl
  refine ⟨(h.forkSharedAccountmap s).2, by rw [accountMapClone, hs, Option.map_some]; rfl, ?_⟩
  have hfork : (h.forkSharedAccountmap s).2 = (s.accounts.entries.foldl (forkEntry h.nextMap)
      ({ h with res := (h.res.clone s.state_trie).2 }.addMap h.res.nextMt, [])).1 := by
    rw [← h1]
    rfl
  rw [hfork]
  refine ⟨?_, fun b mt ho => ?_⟩
  swap
  · rcases hown b mt ho with h1 | h1
    · cases (own_of_absent hb.view rfl).symm.trans h1
    · exact le_trans hb.beside.nextMt h1
  have := hb.trans hloop
  rw [htree, ← ht] at this
  have hacc : (s.accounts.entries.map fun p => (p.1, h.account p.2)).foldl
    (fun t p => t.put p.1 p.2) SMap.empty = v.accounts := by
    rw [ha]
    exact (s.accounts.map h.account).foldl_entries
  dsimp only at this
  rwa [hacc] at this

/-- **`account_map_lock`.** -/
theorem accountMapLock_moves (hk : Ok sha h) (hv : h.view m = some v) :
    ∃ h', h.accountMapLock m = some h' ∧ h'.nextMap = h.nextMap ∧
      Moves sha m [] h h' { v with frozen := true } := by
  obtain ⟨s, hs, -, ht, ha⟩ := view_some hv
  refine ⟨h.setMap m { s with frozen := true }, by rw [accountMapLock, hs, Option.map_some], rfl, ?_⟩
  have hent : ∀ m' b, (h.setMap m { s with frozen := true }).entry m' b = h.entry m' b := by
    intro m' b
    show (update h.maps m (some { s with frozen := true }) m').bind _ = (h.maps m').bind _
    by_cases e : m' = m
    · subst e; rw [update_self, hs]; rfl
    · rw [update_of_ne e]
  have hown : (h.setMap m { s with frozen := true }).own = h.own := by
    funext o
    cases o with
    | trie m' =>
      show (update h.maps m (some { s with frozen := true }) m').map _ = (h.maps m').map _
      by_cases e : m' = m
      · subst e; rw [update_self, hs]; rfl
      · rw [update_of_ne e]
    | entry m' b =>
      show ((h.setMap m { s with frozen := true }).entry m' b).bind _ = (h.entry m' b).bind _
      rw [hent]
  refine ⟨⟨by rw [hown]; exact hk.held, by rw [hown]; exact hk.apart, fun m' b e he => ?_, fun m' b e c he => ?_, hk.root,
    hk.freshCompact, fun m' hm' => ?_⟩, ?_, fun m' hm' => update_of_ne hm' _ _, fun _ _ _ _ _ => rfl,
    fun _ cs hc => ⟨cs, hc, rfl⟩, fun b mt hb => .inl (by rw [hown] at hb; exact hb), le_refl _⟩
  · rw [hent] at he
    exact hk.kind m' b e he
  · rw [hent] at he
    exact hk.compact m' b e c he
  · have hm'' : h.nextMap ≤ m' := hm'
    have := lt_nextMap hk hs
    show update h.maps m _ m' = none
    rw [update_of_ne (by omega)]
    exact hk.freshMap m' hm''
  · rw [view_of_map (s := { s with frozen := true }) (update_self ..), ht, ha]
    rfl

/-! ## Destruction -/

theorem release_entries : ∀ (l : List (Addr × AccountEntry)) (r : Resources) (own : Owner → Option Nat),
    (l.map Prod.fst).Nodup → r.Held own → (∀ p ∈ l, own (.entry m p.1) = p.2.storage) →
    ∃ r', (∀ h : Heap, l.foldl (fun h p => h.releaseEntryStorage p.2) { h with res := r } =
      { h with res := r' }) ∧
      r'.Held (fun o => if ∃ p ∈ l, o = .entry m p.1 then none else own o) ∧ r'.nextMt = r.nextMt ∧
      ∀ o mt, (∀ p ∈ l, o ≠ .entry m p.1) → own o = some mt → r'.tree mt = r.tree mt
  | [], r, own, _, hr, _ => ⟨r, fun _ => rfl, by simpa using hr, rfl, fun _ _ _ _ => rfl⟩
  | (a, e) :: l, r, own, hnd, hr, hown => by
    rw [List.map_cons, List.nodup_cons] at hnd
    have hrel : ∃ r1, (∀ h : Heap, ({ h with res := r } : Heap).releaseEntryStorage e =
      { h with res := r1 }) ∧
        r1.Held (update own (.entry m a) none) ∧ r1.nextMt = r.nextMt ∧
        ∀ o mt, o ≠ .entry m a → own o = some mt → r1.tree mt = r.tree mt := by
      have ho : own (.entry m a) = e.storage := hown (a, e) List.mem_cons_self
      unfold Heap.releaseEntryStorage
      cases hst : e.storage with
      | none => exact ⟨r, fun _ =>
          rfl, by rw [← hst, ← ho, update_eq_self]; exact hr, rfl, fun _ _ _ _ => rfl⟩
      | some mt =>
        obtain ⟨hheld, hn, ht⟩ := hr.release (ho.trans hst)
        exact ⟨r.release mt, fun _ => rfl, hheld, hn, ht⟩
    obtain ⟨r1, hr1, hheld1, hn1, ht1⟩ := hrel
    have hne : ∀ p ∈ l, Owner.entry m p.1 ≠ .entry m a := fun p hp e' =>
      hnd.1 (List.mem_map.2 ⟨p, hp, by cases e'; rfl⟩)
    obtain ⟨r2, hr2, hheld2, hn2, ht2⟩ := release_entries l r1 _ hnd.2 hheld1 fun p hp => by
      rw [update_of_ne (hne p hp)]
      exact hown p (List.mem_cons_of_mem _ hp)
    refine ⟨r2, fun h => ?_, ?_, hn2.trans hn1, fun o mt ho hmt => ?_⟩
    · rw [List.foldl_cons, hr1]
      exact hr2 h
    · convert hheld2 using 2 with o
      by_cases hl : ∃ p ∈ l, o = .entry m p.1
      · obtain ⟨p, hp, rfl⟩ := hl
        rw [if_pos ⟨p, List.mem_cons_of_mem _ hp, rfl⟩, if_pos ⟨p, hp, rfl⟩]
      · rw [if_neg hl]
        by_cases ha : o = .entry m a
        · rw [if_pos ⟨(a, e), List.mem_cons_self, ha⟩, ha, update_self]
        · rw [update_of_ne ha, if_neg]
          intro hx
          obtain ⟨p, hp, hpo⟩ := hx
          rcases List.mem_cons.1 hp with rfl | hp
          · exact ha hpo
          · exact hl ⟨p, hp, hpo⟩
    · have hoa := ho (a, e) List.mem_cons_self
      rw [ht2 o mt (fun p hp => ho p (List.mem_cons_of_mem _ hp)) (by rw [update_of_ne hoa]; exact hmt)]
      exact ht1 o mt hoa hmt

/-- **The destructor of a handle.** The map is gone, the others keep what they show. -/
theorem destructAccountmap_spec (hk : Ok sha h) (hv : h.view m = some v) :
    Ok sha (h.destructAccountmap m) ∧ (h.destructAccountmap m).maps m = none ∧ Beside h (h.destructAccountmap m) m ∧
      (h.destructAccountmap m).nextMap = h.nextMap := by
  obtain ⟨s, hs, -⟩ := view_some hv
  have hown : ∀ p ∈ s.accounts.entries, h.own (.entry m p.1) = p.2.storage := fun p hp =>
    own_entry ((entry_of_map hs p.1).trans ((s.accounts.mem_iff p.1 p.2).1 hp))
  obtain ⟨r1, hr1, hheld1, hn1, ht1⟩ := release_entries s.accounts.entries h.res h.own s.accounts.keys_nodup hk.held hown
  have hst : h.own (.trie m) = some s.state_trie := by
    show (h.maps m).map _ = _
    rw [hs, Option.map_some]
  obtain ⟨hheld2, hn2, ht2⟩ := hheld1.release (o := .trie m) ((if_neg (by simp)).trans hst)
  have hdef : h.destructAccountmap m = { h with res := r1.release s.state_trie, maps := update h.maps m none } := by
    unfold destructAccountmap
    rw [hs]
    dsimp only
    rw [hr1 h]
  rw [hdef]
  generalize hq : ({ h with res := r1.release s.state_trie, maps := update h.maps m none } : Heap) = q
  have hmaps : q.maps = update h.maps m none := by rw [← hq]
  have hres : q.res = r1.release s.state_trie := by rw [← hq]
  have hent : ∀ m' b, q.entry m' b = if m' = m then none else h.entry m' b := by
    intro m' b
    unfold Heap.entry
    rw [hmaps]
    by_cases e : m' = m
    · rw [e, update_self, if_pos rfl, Option.bind_none]
    · rw [update_of_ne e, if_neg e]
  have hqown : q.own = fun o => if o.map = m then none else h.own o := by
    funext o
    cases o with
    | trie m' =>
      show (q.maps m').map _ = if m' = m then none else (h.maps m').map _
      rw [hmaps]
      by_cases e : m' = m
      · rw [e, update_self, if_pos rfl, Option.map_none]
      · rw [update_of_ne e, if_neg e]
    | entry m' b =>
      show (q.entry m' b).bind _ = if m' = m then none else (h.entry m' b).bind _
      rw [hent]
      split <;> rfl
  have hsub : ∀ o mt, q.own o = some mt → h.own o = some mt := by
    intro o mt ho
    rw [hqown] at ho
    dsimp only at ho
    split at ho
    · cases ho
    · exact ho
  have hfun : q.own = update (fun o => if ∃ p ∈ s.accounts.entries,
    o = .entry m p.1 then none else h.own o) (.trie m) none := by
    rw [hqown]
    funext o
    by_cases e : o = .trie m
    · rw [e, update_self]
      exact if_pos rfl
    · rw [update_of_ne e]
      by_cases e1 : ∃ p ∈ s.accounts.entries, o = .entry m p.1
      · rw [if_pos e1]
        obtain ⟨p, -, rfl⟩ := e1
        exact if_pos rfl
      · rw [if_neg e1]
        split
        · rename_i e2
          cases o with
          | trie m' => exact absurd (congrArg Owner.trie e2) e
          | entry m' b =>
            have e3 : m' = m := e2
            subst e3
            show none = (h.entry m' b).bind _
            rw [entry_of_map hs]
            cases hb : s.accounts.get b with
            | none => rfl
            | some x => exact absurd ⟨(b, x), (s.accounts.mem_iff b x).2 hb, rfl⟩ e1
        · rfl
  refine ⟨⟨?_, fun o o' mt ho ho' => hk.apart o o' mt (hsub o mt ho) (hsub o' mt ho'),
    fun m' b e he => ?_,
    fun m' b e c he hc => ?_, ?_, ?_, fun m' hm' => ?_⟩, ?_, ⟨fun m' hm' => ?_, fun o mt ho hmt =>
      ?_, ?_, ?_⟩, ?_⟩
  · rw [hfun, hres]
    exact hheld2
  · rw [hent] at he
    split at he
    · cases he
    · exact hk.kind m' b e he
  · rw [hent] at he
    split at he
    · cases he
    · obtain ⟨cs, hcs⟩ := hk.compact m' b e c he hc
      exact ⟨cs, by rw [← hq]; exact hcs⟩
  · rw [← hq]
    exact hk.root
  · rw [← hq]
    exact hk.freshCompact
  · rw [← hq] at hm'
    have hm'' : h.nextMap ≤ m' := hm'
    rw [hmaps]
    by_cases e : m' = m
    · rw [e, update_self]
    · rw [update_of_ne e]
      exact hk.freshMap m' hm''
  · rw [hmaps, update_self]
  · rw [hmaps, update_of_ne hm']
  · have hno : ∀ p ∈ s.accounts.entries, o ≠ .entry m p.1 := fun p _ e => ho (by rw [e]; rfl)
    rw [hres, ht2 o mt (fun e => ho (by rw [e]; rfl)) (by
      rw [if_neg fun e => by obtain ⟨p, hp, hpo⟩ := e; exact hno p hp hpo]
      exact hmt), ht1 o mt hno hmt]
  · rw [← hq]
    exact fun _ cs hc => ⟨cs, hc, rfl⟩
  · rw [hres, hn2, hn1]
  · rw [← hq]

end Heap
end Diode.L3
