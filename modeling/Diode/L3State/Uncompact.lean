import Diode.L3State.Fork

/-!
# `account_map_uncompact_state`

An uncompacted state shows the accounts it was made from, with one leaf for
each of them (`View.ofAccounts`), and no map that was there before looks
different. From a handle the new map shares the live storages of the old one
(`uncompactHandle_builds`); from a term it shares nothing, and the cached
hashes of the term have to be those of its slots and code (`Honest`).
-/
namespace Diode.L3
open Diode.Core Diode.L1.Ext Function Heap

variable {sha : Bytes → Word} {h q : Heap} {m n : Nat} {a : Addr} {e : AccountEntry} {v : View}
    {s : SharedAccountMap}

/-- The state built from scratch for a list of accounts. -/
def View.ofAccounts (sha : Bytes → Word) (l : List (Addr × Account)) : View where
  frozen := false
  trie := l.foldl (fun t p => t.insertItem (Addr.bytes p.1) (p.2.hash sha)) Tree.empty
  accounts := l.foldl (fun t p => t.put p.1 p.2) SMap.empty

/-- The account a parsed compact term stands for. -/
def ParsedCompactAccount.account (p : ParsedCompactAccount) : Account :=
  ⟨p.nonce, p.balance, p.code, Tree.ofSlots (p.slots.getD [])⟩

/-- The hashes that came along are those of the slots and the code. -/
def ParsedCompactAccount.Honest (sha : Bytes → Word) (p : ParsedCompactAccount) : Prop :=
  (∀ w, p.compact_root_hash = some w → w = (Tree.ofSlots (p.slots.getD [])).rootHash sha) ∧
    ∀ w, p.compact_code_hash = some w → w = sha p.code

namespace Heap

/-- The trie of `n` is `st`, and no other resource points to its state. -/
def OwnTrie (q : Heap) (n st : Nat) : Prop := (q.maps n).map SharedAccountMap.state_trie = some st ∧ q.res.Sole st

theorem OwnTrie.setEntry {st : Nat} (ht : OwnTrie q n st) {r : Resources} (hs : r.Sole st)
    (a : Addr) (e : AccountEntry) :
    OwnTrie ({ q with res := r }.setEntry n a e) n st := by
  obtain ⟨h1, h2⟩ := ht
  obtain ⟨s, hs', rfl⟩ := Option.map_eq_some_iff.1 h1
  rw [setEntry_of_map (h := { q with res := r }) hs']
  exact ⟨by rw [maps_setMap, update_self, Option.map_some], hs⟩

/-- **`append_uncompacted_account`.** -/
theorem appendUncompactedAccount_builds (hq : Ok sha q) (hv : q.view n = some v)
    (hnone : v.accounts.get a = none)
    (hfree : ∀ mt, e.storage = some mt → e.compact_storage = none ∧ (∃ o, q.own o = some mt) ∧
      ∀ o, q.own o = some mt → ∃ m' b, m' ≠ n ∧ o = .entry m' b)
    (hcompact : ∀ c, e.compact_storage = some c → ∃ cs, q.compacts c = some cs)
      (rootOverride codeHashOverride : Option Word)
    (hroot : ∀ w, rootOverride = some w → w = (q.storageOf e).rootHash sha ∧ e.storage = none)
    (hcode : ∀ w, codeHashOverride = some w → w = sha e.code) {st : Nat} (ht : OwnTrie q n st)
      (pending : List (Addr × Word)) :
    Builds sha n q (appendUncompactedAccount sha n (q, pending) a e rootOverride codeHashOverride).1
        { v with accounts := v.accounts.put a (q.account e) } ∧
      (appendUncompactedAccount sha n (q, pending) a e rootOverride codeHashOverride).2 =
        pending ++ [(a, (q.account e).hash sha)] ∧
      OwnTrie (appendUncompactedAccount sha n (q, pending) a e rootOverride codeHashOverride).1 n st ∧
      ∀ b mt, (appendUncompactedAccount sha n (q, pending) a e rootOverride codeHashOverride).1.own
        (.entry n b) = some mt →
        q.own (.entry n b) = some mt ∨ (b = a ∧ e.storage = some mt) ∨ q.res.nextMt ≤ mt := by
  obtain ⟨s, hs, -⟩ := view_some hv
  have hown : q.own (.entry n a) = none := own_of_absent hv hnone
  have hcodeHash : codeHashOverride.getD (sha e.code) = sha e.code := by
    cases hc : codeHashOverride with
    | none => rfl
    | some w => rw [Option.getD_some, hcode w hc]
  -- what an assignment of `e'` to the new slot lets `n` hold
  have hholds : ∀ (res : Resources) (e' : AccountEntry),
    (∀ mt, e'.storage = some mt → e.storage = some mt ∨ q.res.nextMt ≤ mt) →
      ∀ b mt, ({ q with res }.setEntry n a e').own (.entry n b) = some mt →
        q.own (.entry n b) = some mt ∨ (b = a ∧ e.storage = some mt) ∨ q.res.nextMt ≤ mt := by
    intro res e' he' b mt hb
    rw [own_setEntry hs] at hb
    by_cases hba : Owner.entry n b = .entry n a
    · rw [hba, update_self] at hb
      rcases he' mt hb with h1 | h1
      · exact .inr (.inl ⟨by cases hba; rfl, h1⟩)
      · exact .inr (.inr h1)
    · rw [update_of_ne hba] at hb
      exact .inl hb
  unfold appendUncompactedAccount
  cases hst : e.storage with
  | some mt =>
    obtain ⟨hc, ⟨o', hsrc⟩, hothers⟩ := hfree mt hst
    have hro : rootOverride = none := by
      by_contra hne
      obtain ⟨w, hw⟩ := Option.ne_none_iff_exists'.1 hne
      rw [hst] at hroot
      cases (hroot w hw).2
    subst hro
    obtain ⟨hheld, htree⟩ := hq.held.keep hsrc hown
    obtain ⟨-, hn, -, hso⟩ := Resources.Held.keep_states q.res mt
    have hacc : ({ q with res := q.res.keep mt } : Heap).account e = q.account e :=
      account_congr (fun mt' _ => htree mt') fun _ => rfl
    have hsole : (q.res.keep mt).Sole st := by
      unfold Resources.Sole
      rw [hso]
      exact ht.2
    have hb := Builds.addEntry (a := a) (e := e) hq hv (q.res.keep mt) (by rw [hst]; exact hheld)
      (fun o mt' _ _ => htree mt') (le_of_eq hn.symm)
      (fun mt' hmt' o ho => hothers o (by rw [← hst, hmt']; exact ho)) (fun _ => hc) hcompact
    rw [hacc] at hb
    rw [hst] at hholds
    dsimp only
    rw [hcodeHash, hc, Option.isNone_none, if_pos rfl, Option.getD_none]
    dsimp only
    refine ⟨hb, ?_, ht.setEntry hsole a e, hholds _ _ fun mt' h => .inl (hst ▸ h)⟩
    rw [hst, Option.elim_some, htree]
    have hroot : (q.account e).storage = q.res.tree mt := by
      show q.storageOf e = _
      unfold storageOf
      rw [hst]
    rw [← hroot]
    rfl
  | none =>
    rw [hst] at hholds
    dsimp only
    cases hro : rootOverride with
    | some w =>
      rw [Option.isNone_some, if_neg nofun, Option.getD_some]
      dsimp only
      rw [hcodeHash]
      have hb := Builds.addEntry (a := a) (e := e) hq hv q.res
        (by rw [hst, ← hown, update_eq_self]; exact hq.held)
        (fun _ _ _ _ => rfl) (le_refl _) (by rw [hst]; nofun)
          (by rw [hst]; exact fun h => absurd rfl h) hcompact
      exact ⟨hb, by rw [(hroot w hro).1]; rfl, OwnTrie.setEntry (r := q.res) ht ht.2 a e, hholds q.res e fun mt h => .inl (hst ▸ h)⟩
    | none =>
      rw [Option.isNone_none, if_pos rfl, Option.getD_none]
      unfold materializeStorage
      rw [hst]
      dsimp only
      obtain ⟨hheld, hn, htree, hothers⟩ := hq.held.allocWith hown (Tree.ofSlots (q.slots e))
      have hsole : (q.res.alloc.2.modifyTree q.res.alloc.1 fun _ => Tree.ofSlots (q.slots e)).Sole st := by
        unfold Resources.Sole
        rw [Resources.Held.stateOf_modifyTree]
        refine hq.held.sole_of_alloc ht.2 (hq.held.own_lt (o := .trie n) ?_)
        exact ht.1
      have hacc : ({ q with res := q.res.alloc.2.modifyTree q.res.alloc.1 fun _ => Tree.ofSlots (q.slots e) } : Heap).account
          { e with storage := some q.res.alloc.1, compact_storage := none } = q.account e := by
        unfold account storageOf
        dsimp only
        rw [htree, hst]
      have hb := Builds.addEntry (a := a)
        (e := { e with storage := some q.res.alloc.1, compact_storage := none }) hq hv
        (q.res.alloc.2.modifyTree q.res.alloc.1 fun _ => Tree.ofSlots (q.slots e)) hheld
        (fun o mt _ ho => hothers mt fun e' => hq.own_fresh (le_of_eq e'.symm) o ho) (by omega)
        (fun mt hmt o ho => absurd ho (hq.own_fresh (le_of_eq (Option.some.inj hmt)) o))
          (fun _ => rfl) nofun
      rw [hacc] at hb
      refine ⟨hb, ?_, ht.setEntry hsole a _, hholds _ _ fun mt h => .inr (le_of_eq (Option.some.inj h))⟩
      rw [Option.elim_some, htree, ← hacc, hcodeHash]
      unfold Account.hash account storageOf
      dsimp only
      rw [htree]

/-- A loop that adds one account at a time to `n`, under an invariant `I` of its own. -/
theorem fold_builds {α : Type} {f : Heap × List (Addr × Word) → α → Heap × List (Addr × Word)}
    (key : α → Addr)
    (acc : α → Account) {st : Nat} (I : Heap → Prop) {h : Heap} : ∀ {l : List α},
    (∀ x ∈ l, ∀ q v pending, Ok sha q → Beside h q n → q.view n = some v → v.accounts.get
      (key x) = none → OwnTrie q n st →
      I q → Builds sha n q (f (q, pending) x).1 { v with accounts := v.accounts.put (key x) (acc x) } ∧
        (f (q, pending) x).2 = pending ++ [(key x, (acc x).hash sha)] ∧
          OwnTrie (f (q, pending) x).1 n st ∧
        I (f (q, pending) x).1) →
    (l.map key).Nodup → ∀ q v pending, Ok sha q → Beside h q n → q.view n = some v →
    (∀ x ∈ l, v.accounts.get (key x) = none) → OwnTrie q n st → I q →
    Builds sha n q (l.foldl f (q, pending)).1
        { v with accounts := (l.map fun x => (key x, acc x)).foldl (fun t p => t.put p.1 p.2) v.accounts } ∧
      (l.foldl f (q, pending)).2 = pending ++ l.map (fun x => (key x, (acc x).hash sha)) ∧
      OwnTrie (l.foldl f (q, pending)).1 n st ∧ I (l.foldl f (q, pending)).1
  | [], _, _, q, v, pending, hq, _, hv, _, ht, hI =>
    ⟨⟨hq, hv, Beside.refl q n⟩, (List.append_nil pending).symm, ht, hI⟩
  | x :: l, hstep, hnd, q, v, pending, hq, hb, hv, hnone, ht, hI => by
    rw [List.map_cons, List.nodup_cons] at hnd
    obtain ⟨h1, h2, h3, h4⟩ := hstep x List.mem_cons_self q v pending hq hb hv
      (hnone x List.mem_cons_self) ht hI
    rw [List.foldl_cons]
    generalize f (q, pending) x = r at h1 h2 h3 h4
    obtain ⟨q1, pending1⟩ := r
    dsimp only at h1 h2 h3 h4
    obtain ⟨k1, k2, k3⟩ := fold_builds key acc I (fun y hy => hstep y (List.mem_cons_of_mem _ hy))
      hnd.2 q1 _ pending1 h1.ok
      (hb.trans h1.beside) h1.view (fun y hy => by
        show (v.accounts.put (key x) _).get (key y) = none
        rw [SMap.get_put, if_neg fun e' => hnd.1 (List.mem_map.2 ⟨y, hy, e'.symm⟩)]
        exact hnone y (List.mem_cons_of_mem _ hy)) h3 h4
    exact ⟨h1.trans k1, by rw [k2, h2, List.map_cons, List.append_assoc]; rfl, k3⟩

/-- **`batch_insert_state_items`** on the trie of a map under construction. -/
theorem batchInsertStateItems_builds (hq : Ok sha q) (hv : q.view n = some v) {st : Nat}
    (ht : OwnTrie q n st)
    (items : List (Addr × Word)) :
    Builds sha n q (q.batchInsertStateItems n items)
      { v with trie := items.foldl (fun t p => t.insertItem (Addr.bytes p.1) p.2) v.trie } := by
  obtain ⟨s, hs, -, htrie, -⟩ := view_some hv
  obtain ⟨h1, h2⟩ := ht
  rw [hs, Option.map_some, Option.some.injEq] at h1
  subst h1
  have hst : q.own (.trie n) = some s.state_trie := by
    show (q.maps n).map _ = _
    rw [hs, Option.map_some]
  obtain ⟨hheld, hn, htree, hothers⟩ := hq.held.modifyTree hst h2 fun t =>
    items.foldl (fun t p => t.insertItem (Addr.bytes p.1) p.2) t
  have hm := Moves.writeTrie hq hv hs hheld hn htree hothers
  unfold batchInsertStateItems
  rw [hs, htrie]
  exact ⟨hm.ok, hm.view, hm.within.beside⟩

theorem own_batchInsertStateItems (q : Heap) (n : Nat) (items : List (Addr × Word)) :
    (q.batchInsertStateItems n items).own = q.own := by
  unfold batchInsertStateItems
  cases q.maps n <;> rfl

/-- Accounts added to an empty map and their leaves inserted: the state built from scratch. -/
theorem build_state {h q : Heap} {l : List (Addr × Account)} {st : Nat} (hk : Builds sha n h q
      ⟨false, Tree.empty, l.foldl (fun t p => t.put p.1 p.2) SMap.empty⟩) (ht : OwnTrie q n st) :
    Builds sha n h (q.batchInsertStateItems n (l.map fun p => (p.1, p.2.hash sha)))
      (View.ofAccounts sha l) := by
  have := hk.trans (batchInsertStateItems_builds hk.ok hk.view ht (l.map fun p => (p.1, p.2.hash sha)))
  rw [List.foldl_map] at this
  exact this

/-- **`account_map_uncompact_state` on a handle.** -/
theorem uncompactHandle_builds (hk : Ok sha h) (hv : h.view m = some v) :
    ∃ h', h.uncompactHandle sha m = some (h.nextMap, h') ∧
      Builds sha h.nextMap h h' (View.ofAccounts sha v.accounts.entries) := by
  obtain ⟨s, hs, -, -, ha⟩ := view_some hv
  have hmn : m ≠ h.nextMap := Nat.ne_of_lt (lt_nextMap hk hs)
  obtain ⟨hn, hnew, -, hmap, hsole⟩ := accountMapNew_builds hk
  have hent : ∀ p ∈ s.accounts.entries, h.entry m p.1 = some p.2 := fun p hp =>
    (entry_of_map hs p.1).trans ((s.accounts.mem_iff p.1 p.2).1 hp)
  obtain ⟨h1, h2, h3, -⟩ := fold_builds Prod.fst (fun p : Addr × AccountEntry => h.account p.2)
    (f := fun acc p => appendUncompactedAccount sha h.nextMap acc p.1 p.2 none none)
    (fun q => ∀ b mt, q.own (.entry h.nextMap b) = some mt → h.own (.entry m b) = some mt ∨
      h.res.nextMt ≤ mt)
    (l := s.accounts.entries) (h := h) (by
      intro p hp q v pending hq hb hv hnone ht hI
      have he := hent p hp
      have heq : q.entry m p.1 = some p.2 := (hb.entry hmn p.1).trans he
      have hown : q.own (.entry h.nextMap p.1) = none := own_of_absent hv hnone
      obtain ⟨k1, k2, k3, k4⟩ := appendUncompactedAccount_builds (a := p.1) (e := p.2) hq hv hnone (by
          intro mt hmt
          have hsrc : q.own (.entry m p.1) = some mt := (own_entry heq).trans hmt
          refine ⟨hq.kind m p.1 p.2 heq (by rw [hmt]; nofun), ⟨_, hsrc⟩, fun o ho => ?_⟩
          rcases hq.apart _ _ mt hsrc ho with e' | ⟨m1, a1, m2, a2, -, -, rfl⟩
          · exact ⟨m, p.1, hmn, e'.symm⟩
          · refine ⟨m2, a2, fun e' => ?_, rfl⟩
            subst e'
            have hlt := hk.held.own_lt ((own_entry he).trans hmt)
            rcases hI a2 mt ho with h4 | h4
            · rcases hk.apart _ _ mt ((own_entry he).trans hmt) h4 with e' | ⟨m3, a3, m4, a4, hne, e3, e4⟩
              · cases e'
                rw [hown] at ho
                cases ho
              · cases e3; cases e4
                exact hne rfl
            · omega) (fun c hc => hq.compact m p.1 p.2 c heq hc) none none nofun nofun ht pending
      rw [hb.account hk hmn he] at k1 k2
      refine ⟨k1, k2, k3, fun b mt ho => ?_⟩
      rcases k4 b mt ho with h4 | ⟨rfl, h4⟩ | h4
      · exact hI b mt h4
      · exact .inl ((own_entry he).trans h4)
      · exact .inr (le_trans hb.nextMt h4)) s.accounts.keys_nodup h.accountMapNew.2 View.empty
          [] hnew.ok hnew.beside
    hnew.view (fun _ _ => rfl) ⟨by rw [hmap, Option.map_some], hsole⟩ (by
      intro b mt ho
      have : h.accountMapNew.2.entry h.nextMap b = none := by
        unfold Heap.entry
        rw [hmap]
        rfl
      have ho' : (h.accountMapNew.2.entry h.nextMap b).bind _ = some mt := ho
      rw [this] at ho'
      cases ho')
  refine ⟨_, by rw [uncompactHandle, hs, Option.map_some]; rfl, ?_⟩
  have hb := build_state (l := s.accounts.entries.map fun p => (p.1, h.account p.2)) (hnew.trans h1) h3
  rw [List.map_map] at hb
  have hpend : (s.accounts.entries.foldl
    (fun acc p => appendUncompactedAccount sha h.nextMap acc p.1 p.2 none none)
      (h.accountMapNew.2, [])).2 = s.accounts.entries.map ((fun p => (p.1, p.2.hash sha)) ∘ fun p =>
        (p.1, h.account p.2)) := h2
  rw [← hpend] at hb
  rw [ha]
  exact hb

/-- The entry of a parsed account: the heap has a new compact storage at most. -/
theorem compactEntry_builds (hq : Ok sha q) (hv : q.view n = some v) {p : ParsedCompactAccount}
    (hp : p.Honest sha) :
    Builds sha n q (q.compactEntry p).1 v ∧ (q.compactEntry p).1.account
      (q.compactEntry p).2 = p.account ∧
      (q.compactEntry p).2.storage = none ∧
      (∀ c, (q.compactEntry p).2.compact_storage = some c → ∃ cs, (q.compactEntry p).1.compacts c = some cs) ∧
      (q.compactEntry p).1.res = q.res ∧ (q.compactEntry p).1.maps = q.maps := by
  have hroot := hp.1
  unfold compactEntry ParsedCompactAccount.account
  cases hs : p.slots with
  | none => exact ⟨⟨hq, hv, Beside.refl q n⟩, rfl, rfl, nofun, rfl, rfl⟩
  | some slots =>
    rw [hs, Option.getD_some] at hroot
    dsimp only
    generalize hq' : ({ q.setCompact q.nextCompact ⟨slots, p.compact_root_hash⟩ with nextCompact :=
      q.nextCompact + 1 } : Heap) = q'
    have hc : q'.compacts = update q.compacts q.nextCompact
      (some ⟨slots, p.compact_root_hash⟩) := by rw [← hq']; rfl
    have hnext : q'.nextCompact = q.nextCompact + 1 := by rw [← hq']
    have hmaps : q'.maps = q.maps := by rw [← hq']; rfl
    have hres : q'.res = q.res := by rw [← hq']; rfl
    have hmap : q'.nextMap = q.nextMap := by rw [← hq']; rfl
    have hent : ∀ m' b, q'.entry m' b = q.entry m' b := fun m' b => by
      unfold Heap.entry
      rw [hmaps]
    have hown : q'.own = q.own := by
      funext o
      cases o with
      | trie m' =>
        show (q'.maps m').map _ = (q.maps m').map _
        rw [hmaps]
      | entry m' b =>
        show (q'.entry m' b).bind _ = (q.entry m' b).bind _
        rw [hent]
    have hold : ∀ c cs, q.compacts c = some cs → q'.compacts c = some cs := by
      intro c cs hcs
      have hne : c ≠ q.nextCompact := fun e => by
        rw [e, hq.freshCompact _ (le_refl _)] at hcs; cases hcs
      rw [hc, update_of_ne hne, hcs]
    have hnew : q'.compacts q.nextCompact = some ⟨slots, p.compact_root_hash⟩ := by rw [hc, update_self]
    refine ⟨⟨⟨?_, ?_, ?_, ?_, ?_, ?_, ?_⟩, ?_,
      ⟨fun m' _ => by rw [hmaps], fun o mt _ _ => by rw [hres], fun c cs hcs =>
      ⟨cs, hold c cs hcs, rfl⟩, by rw [hres]⟩⟩, ?_, rfl, fun c hcs => ?_, rfl, rfl⟩
    · rw [hown, hres]
      exact hq.held
    · rw [hown]
      exact hq.apart
    · intro m' b e he
      rw [hent] at he
      exact hq.kind m' b e he
    · intro m' b e c he hcs
      rw [hent] at he
      obtain ⟨cs, h1⟩ := hq.compact m' b e c he hcs
      exact ⟨cs, hold c cs h1⟩
    · intro c cs w hcs hw
      rw [hc] at hcs
      by_cases e : c = q.nextCompact
      · rw [e, update_self, Option.some.injEq] at hcs
        subst hcs
        exact hroot w hw
      · rw [update_of_ne e] at hcs
        exact hq.root c cs w hcs hw
    · intro c hle
      rw [hc, update_of_ne (by omega)]
      exact hq.freshCompact c (by omega)
    · intro m' hm'
      rw [hmaps]
      rw [hmap] at hm'
      exact hq.freshMap m' hm'
    · obtain ⟨s, hs', hf, ht, ha⟩ := view_some hv
      rw [view_of_map (by rw [hmaps, hs']), hres, ← hf, ← ht]
      have : s.accounts.map q'.account = v.accounts := by
        rw [ha]
        refine SMap.map_congr fun b e he => ?_
        exact account_eq hq ((entry_of_map hs' b).trans he) (fun mt _ => by rw [hres]) fun c cs
          hcs => ⟨cs, hold c cs hcs, rfl⟩
      rw [this]
    · unfold Heap.account storageOf Heap.slots
      dsimp only
      rw [Option.bind_some, hnew]
      rfl
    · cases hcs
      exact ⟨_, update_self ..⟩

/-- One account of a compact term. -/
theorem uncompactParsed_builds (hq : Ok sha q) (hv : q.view n = some v)
    {p : Addr × ParsedCompactAccount}
    (hnone : v.accounts.get p.1 = none) (hp : p.2.Honest sha) {st : Nat} (ht : OwnTrie q n st)
      (pending : List (Addr × Word)) :
    Builds sha n q (uncompactParsed sha n (q, pending) p).1
      { v with accounts := v.accounts.put p.1 p.2.account } ∧
      (uncompactParsed sha n (q, pending) p).2 = pending ++ [(p.1, p.2.account.hash sha)] ∧
      OwnTrie (uncompactParsed sha n (q, pending) p).1 n st ∧
      ∀ b mt, (uncompactParsed sha n (q, pending) p).1.own (.entry n b) = some mt →
        q.own (.entry n b) = some mt ∨ q.res.nextMt ≤ mt := by
  obtain ⟨h1, h2, h3, h4, h5, h6⟩ := compactEntry_builds hq hv hp
  have ht' : OwnTrie (q.compactEntry p.2).1 n st := by
    unfold OwnTrie
    rw [h5, h6]
    exact ht
  have hcode : (q.compactEntry p.2).2.code = p.2.code := by
    unfold compactEntry
    cases p.2.slots <;> rfl
  have hslots : (q.compactEntry p.2).1.storageOf (q.compactEntry p.2).2 = Tree.ofSlots
    (p.2.slots.getD []) :=
    congrArg Account.storage h2
  obtain ⟨k1, k2, k3, k4⟩ := appendUncompactedAccount_builds (a := p.1)
    (e := (q.compactEntry p.2).2) h1.ok h1.view hnone
    (fun mt hmt => by rw [h3] at hmt; cases hmt) h4 p.2.compact_root_hash p.2.compact_code_hash
    (fun w hw => ⟨by rw [hslots]; exact hp.1 w hw, h3⟩)
      (fun w hw => by rw [hcode]; exact hp.2 w hw) ht' pending
  rw [h2] at k1 k2
  refine ⟨h1.trans k1, k2, k3, fun b mt ho => ?_⟩
  have hown : (q.compactEntry p.2).1.own (.entry n b) = q.own (.entry n b) := by
    show ((q.compactEntry p.2).1.entry n b).bind _ = (q.entry n b).bind _
    unfold Heap.entry
    rw [h6]
  rcases k4 b mt ho with k4 | ⟨-, k4⟩ | k4
  · exact .inl (hown.symm.trans k4)
  · rw [h3] at k4
    cases k4
  · rw [h5] at k4
    exact .inr k4

/-- **`account_map_uncompact_state` on a term.** -/
theorem uncompactTerm_builds (hk : Ok sha h) {t : Term} {l : List (Addr × ParsedCompactAccount)}
    (hl : parseCompactState t = some l) (hnd : (l.map Prod.fst).Nodup) (hon : ∀ p ∈ l, p.2.Honest sha) :
    ∃ h', h.uncompactTerm sha t = some (h.nextMap, h') ∧
      Builds sha h.nextMap h h' (View.ofAccounts sha (l.map fun p => (p.1, p.2.account))) ∧
      ∀ b mt, h'.own (.entry h.nextMap b) = some mt → h.res.nextMt ≤ mt := by
  obtain ⟨hn, hnew, -, hmap, hsole⟩ := accountMapNew_builds hk
  obtain ⟨h1, h2, h3, h4⟩ := fold_builds Prod.fst (fun p : Addr × ParsedCompactAccount => p.2.account)
    (f := uncompactParsed sha h.nextMap)
    (fun q => h.res.nextMt ≤ q.res.nextMt ∧ ∀ b mt, q.own (.entry h.nextMap b) = some mt →
      h.res.nextMt ≤ mt) (l := l) (h := h)
    (fun p hp q v pending hq _ hv hnone ht hI => by
      obtain ⟨k1, k2, k3, k4⟩ := uncompactParsed_builds hq hv hnone (hon p hp) ht pending
      refine ⟨k1, k2, k3, le_trans hI.1 k1.beside.nextMt, fun b mt ho => ?_⟩
      rcases k4 b mt ho with ho | hle
      · exact hI.2 b mt ho
      · exact le_trans hI.1 hle)
    hnd h.accountMapNew.2 View.empty [] hnew.ok hnew.beside hnew.view (fun _ _ => rfl)
    ⟨by rw [hmap, Option.map_some], hsole⟩ ⟨hnew.beside.nextMt, fun b mt ho => by
      cases (own_of_absent (a := b) hnew.view rfl).symm.trans ho⟩
  refine ⟨_, by rw [uncompactTerm, hl, Option.map_some]; rfl, ?_⟩
  have hb := build_state (l := l.map fun p => (p.1, p.2.account)) (hnew.trans h1) h3
  rw [List.map_map] at hb
  have hpend : (l.foldl (uncompactParsed sha h.nextMap) (h.accountMapNew.2, [])).2 =
      l.map ((fun p => (p.1, p.2.hash sha)) ∘ fun p => (p.1, p.2.account)) := h2
  rw [← hpend] at hb
  refine ⟨hb, fun b mt ho => h4.2 b mt ?_⟩
  rw [← ho]
  exact (congrFun (own_batchInsertStateItems ..) _).symm

end Heap
end Diode.L3
