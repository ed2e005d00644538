import Diode.L3State.Coherence
import Diode.L2Trie.RootHash

/-!
# The full difference is exact

For two coherent maps `account_map_difference_full` lists exactly the addresses
whose records differ, and for each of them exactly the slots that differ.

That a record is visible in its leaf rests on SHA-256 (`Collisionless`): no two
of the byte strings hashed for the two states collide, none of them has the
zero hash that stands for an absent leaf, and no 17 slots share 128 bits of
their key hash.
-/
namespace Diode.L3
open Diode.Core Diode.L1.Ext Diode.L2 Diode.L1.Rlp Function Heap

section
variable (sha : Bytes → Word)

/-- What is hashed for an account. -/
def Account.hashed (acc : Account) : List Bytes :=
  encodeAccount acc.nonce acc.balance (acc.storage.rootHash sha) (sha acc.code) :: acc.code ::
    rootHashed sha (shapeAt sha [] acc.storage.pairs)

/-- What is hashed for the accounts of a view. -/
def View.hashed (v : View) : List Bytes := v.accounts.entries.flatMap fun p => p.2.hashed sha

/-- What exactness asks of SHA-256 on two states. -/
structure Collisionless (v w : View) : Prop where
  inj : InjOn sha (v.hashed sha ++ w.hashed sha)
  nonzero : ∀ x ∈ v.hashed sha ++ w.hashed sha, sha x ≠ 0
  keys : ∀ p ∈ v.accounts.entries ++ w.accounts.entries, ∀ s ∈ p.2.storage.pairs, s.1.length < 256
  sparse : ∀ p ∈ v.accounts.entries ++ w.accounts.entries, Sparse sha p.2.storage.pairs

end

variable {sha : Bytes → Word} {v w : View}

/-! ## The keys -/

theorem mem_diffKeys {s t : Tree} {a : Addr} : a ∈ diffKeys s t ↔ s.read (Addr.bytes a) ≠ t.read
    (Addr.bytes a) := by
  unfold diffKeys
  rw [List.mem_filterMap, ← Tree.mem_differences]
  refine ⟨?_, ?_⟩
  · intro h
    obtain ⟨p, hp, he⟩ := h
    split at he
    · rename_i hl
      rw [Option.some.injEq] at he
      subst he
      exact ⟨p, hp, (Addr.bytes_ofBe hl).symm⟩
    · cases he
  · intro h
    obtain ⟨p, hp, he⟩ := h
    refine ⟨p, hp, ?_⟩
    rw [he, if_pos (Addr.bytes_length a), Addr.ofBe_bytes]

theorem nodup_diffKeys (s t : Tree) : (diffKeys s t).Nodup := by
  have hmap : diffKeys s t = ((t.difference s (s.difference t Tree.empty)).pairs.map Prod.fst).filterMap fun k =>
      if k.length = 20 then some (BitVec.ofNat 160 (ofBe k)) else none := by
    rw [List.filterMap_map]
    rfl
  rw [hmap]
  refine (SMap.keys_nodup _).filterMap fun k k' a hk hk' => ?_
  rw [Option.mem_def] at hk hk'
  split at hk
  · rename_i hl
    split at hk'
    · rename_i hl'
      rw [Option.some.injEq] at hk hk'
      rw [← Addr.bytes_ofBe hl, hk, ← hk', Addr.bytes_ofBe hl']
    · cases hk'
  · cases hk

/-! ## The slots -/

theorem get_eq_iff {s t : Tree} {k : Bytes} : s.slots.get k = t.slots.get k ↔ s.read k = t.read k := by
  rw [Tree.get_eq, Tree.get_eq]
  refine ⟨?_, ?_⟩
  · intro h
    split at h
    · rename_i h1
      split at h
      · rename_i h2
        rw [h1, h2]
      · cases h
    · split at h
      · cases h
      · exact Option.some.inj h
  · intro h
    rw [h]

theorem mem_slotDiff {s t : Tree} {k : Bytes} {x y : Option Word} :
    (k, x, y) ∈ slotDiff s t ↔ s.slots.get k = x ∧ t.slots.get k = y ∧ x ≠ y := by
  unfold slotDiff
  rw [List.mem_reverse, List.mem_map]
  refine ⟨?_, ?_⟩
  · intro h
    obtain ⟨p, hp, he⟩ := h
    cases he
    exact ⟨rfl, rfl, fun e => Tree.mem_differences.1 ⟨p, hp, rfl⟩ (get_eq_iff.1 e)⟩
  · intro h
    obtain ⟨rfl, rfl, hne⟩ := h
    obtain ⟨p, hp, rfl⟩ := Tree.mem_differences.2 fun e => hne (get_eq_iff.2 e)
    exact ⟨p, hp, rfl⟩

theorem nodup_slotDiff (s t : Tree) : ((slotDiff s t).map Prod.fst).Nodup := by
  unfold slotDiff
  rw [List.map_reverse, List.nodup_reverse, List.map_map]
  exact SMap.keys_nodup _

/-! ## Leaves and records -/

theorem mem_hashed {a : Addr} {acc : Account} (h : v.accounts.get a = some acc) {x : Bytes}
    (hx : x ∈ acc.hashed sha) :
    x ∈ v.hashed sha := List.mem_flatMap.2 ⟨(a, acc), (v.accounts.mem_iff a acc).2 h, hx⟩

namespace Collisionless

theorem hash_ne_zero (hh : Collisionless sha v w) {a : Addr} {acc : Account}
    (h : v.accounts.get a = some acc ∨ w.accounts.get a = some acc) : acc.hash sha ≠ 0 := by
  refine hh.nonzero (encodeAccount acc.nonce acc.balance (acc.storage.rootHash sha) (sha acc.code)) ?_
  rcases h with h | h
  · exact List.mem_append_left _ (mem_hashed h List.mem_cons_self)
  · exact List.mem_append_right _ (mem_hashed h List.mem_cons_self)

theorem hash_inj (hh : Collisionless sha v w) {a b : Addr} {x y : Account}
    (hx : v.accounts.get a = some x)
    (hy : w.accounts.get b = some y) (he : x.hash sha = y.hash sha) : x = y := by
  have hmx : ∀ s ∈ x.hashed sha, s ∈ v.hashed sha ++ w.hashed sha := fun s hs =>
    List.mem_append_left _ (mem_hashed hx hs)
  have hmy : ∀ s ∈ y.hashed sha, s ∈ v.hashed sha ++ w.hashed sha := fun s hs =>
    List.mem_append_right _ (mem_hashed hy hs)
  obtain ⟨h1, h2, h3, h4⟩ := encodeAccount_inj
    (hh.inj _ (hmx _ List.mem_cons_self) _ (hmy _ List.mem_cons_self) he)
  have hcode := hh.inj _ (hmx _ (List.mem_cons_of_mem _ List.mem_cons_self)) _
    (hmy _ (List.mem_cons_of_mem _ List.mem_cons_self)) h4
  have hex : (a, x) ∈ v.accounts.entries ++ w.accounts.entries :=
    List.mem_append_left _ ((v.accounts.mem_iff a x).2 hx)
  have hey : (b, y) ∈ v.accounts.entries ++ w.accounts.entries :=
    List.mem_append_right _ ((w.accounts.mem_iff b y).2 hy)
  have hz : ∀ t : Tree, ∀ p ∈ t.pairs, p.2 ≠ 0 := fun t p hp => (Tree.mem_pairs.1 hp).2
  have hpairs : x.storage.pairs = y.storage.pairs := by
    refine canonicalRoot_inj (shapeAt_wf x.storage.slots.sorted (hz _) (hh.sparse _ hex))
      (shapeAt_wf y.storage.slots.sorted (hz _) (hh.sparse _ hey)) x.storage.slots.sorted
        y.storage.slots.sorted
      (hh.keys _ hex) (hh.keys _ hey) (hh.inj.mono fun s hs => ?_) h3
    rcases List.mem_append.1 hs with hs | hs
    · exact hmx s (List.mem_cons_of_mem _ (List.mem_cons_of_mem _ hs))
    · exact hmy s (List.mem_cons_of_mem _ (List.mem_cons_of_mem _ hs))
  have hst : x.storage = y.storage := Tree.ext fun k => by
    unfold Tree.read SMap.get
    exact congrArg (fun l => (Assoc.get l k).getD 0) hpairs
  cases x; cases y
  simp_all

/-- A record is visible in its leaf. -/
theorem leaf_inj (hh : Collisionless sha v w) {a : Addr}
    (he : (v.accounts.get a).elim 0 (Account.hash sha) = (w.accounts.get a).elim 0 (Account.hash sha)) :
    v.accounts.get a = w.accounts.get a := by
  cases hx : v.accounts.get a with
  | none =>
    cases hy : w.accounts.get a with
    | none => rfl
    | some y =>
      rw [hx, hy] at he
      exact absurd he.symm (hh.hash_ne_zero (.inr hy))
  | some x =>
    cases hy : w.accounts.get a with
    | none =>
      rw [hx, hy] at he
      exact absurd he (hh.hash_ne_zero (.inl hx))
    | some y =>
      rw [hx, hy] at he
      rw [hh.hash_inj hx hy he]

end Collisionless

/-! ## Exactness -/

/-- Two records the native code takes for equal have equal leaves. -/
theorem hash_of_passes {x y : Option Account} (h : passes sha x y = true) :
    x.elim 0 (Account.hash sha) = y.elim 0 (Account.hash sha) := by
  unfold passes at h
  cases x with
  | none =>
    cases y with
    | none => rfl
    | some y => cases h
  | some x =>
    cases y with
    | none => cases h
    | some y =>
      simp only [Bool.and_eq_true, decide_eq_true_eq] at h
      obtain ⟨h1, h2⟩ := h
      unfold Account.side at h1
      rw [DiffSide.mk.injEq] at h1
      obtain ⟨h3, h4, h5⟩ := h1
      rw [Option.elim_some, Option.elim_some]
      unfold Account.hash
      rw [h2, h3, h4, h5]

/-- For coherent views nothing is skipped. -/
theorem differenceFull_coherent (cv : v.Coherent sha) (cw : w.Coherent sha) : v.differenceFull sha w =
    ((diffKeys v.trie w.trie).map fun a => diffEntry sha a (v.accounts.get a)
      (w.accounts.get a)).reverse := by
  unfold View.differenceFull
  rw [List.filter_eq_self.2]
  intro a ha
  rw [Bool.not_eq_true', Bool.eq_false_iff]
  intro hp
  apply mem_diffKeys.1 ha
  rw [cv.leaves a not_false, cw.leaves a not_false]
  exact hash_of_passes hp

/-- **The full difference is exact.** -/
theorem difference_full_exact {h : Heap} (hk : Ok sha h) {ma mb : Nat} (hv : h.view ma = some v)
    (hw : h.view mb = some w)
    (cv : v.Coherent sha) (cw : w.Coherent sha) (hh : Collisionless sha v w) :
    ∃ l, (h.differenceFull sha ma mb).2 = some l ∧ (l.map DiffEntry.addr).Nodup ∧
      (∀ a, a ∈ l.map DiffEntry.addr ↔ v.accounts.get a ≠ w.accounts.get a) ∧
      ∀ d ∈ l, d.a = (v.accounts.get d.addr).map Account.side ∧
        d.b = (w.accounts.get d.addr).map Account.side ∧
        (d.storage.map Prod.fst).Nodup ∧ ∀ k x y, (k, x, y) ∈ d.storage ↔
          (v.storage d.addr).slots.get k = x ∧ (w.storage d.addr).slots.get k = y ∧ x ≠ y := by
  have haddr : (v.differenceFull sha w).map DiffEntry.addr = (diffKeys v.trie w.trie).reverse := by
    rw [differenceFull_coherent cv cw, List.map_reverse, List.map_map]
    exact congrArg List.reverse (List.map_id _)
  refine ⟨_, (differenceFull_spec hk hv hw).1, ?_, fun a => ?_, fun d hd => ?_⟩
  · rw [haddr, List.nodup_reverse]
    exact nodup_diffKeys _ _
  · rw [haddr, List.mem_reverse, mem_diffKeys, cv.leaves a not_false, cw.leaves a not_false]
    exact not_congr ⟨hh.leaf_inj, fun e => by rw [e]⟩
  · rw [differenceFull_coherent cv cw, List.mem_reverse, List.mem_map] at hd
    obtain ⟨a, -, rfl⟩ := hd
    exact ⟨rfl, rfl, nodup_slotDiff _ _, fun k x y => mem_slotDiff⟩

/-- A map with one account against an empty one. -/
theorem difference_full_exact_one :
    let h := Heap.init.run Sha256.sha256 [.new, .new,
      .put 0 (.ofAddr 1) (.int 3) (.int 5) (.ofList [.tuple [.ofWord 7, .ofWord 8]]) (.bin [1, 2])]
    ∃ v w, h.view 0 = some v ∧ h.view 1 = some w ∧
      ∃ l, (h.differenceFull Sha256.sha256 0 1).2 = some l ∧ (l.map DiffEntry.addr).Nodup ∧
        (∀ a, a ∈ l.map DiffEntry.addr ↔ v.accounts.get a ≠ w.accounts.get a) ∧
        ∀ d ∈ l, d.a = (v.accounts.get d.addr).map Account.side ∧
          d.b = (w.accounts.get d.addr).map Account.side ∧
          (d.storage.map Prod.fst).Nodup ∧ ∀ k x y, (k, x, y) ∈ d.storage ↔
            (v.storage d.addr).slots.get k = x ∧ (w.storage d.addr).slots.get k = y ∧ x ≠ y := by
  intro h
  have hc : Heap.init.CarefulRun Sha256.sha256 [.new, .new,
      .put 0 (.ofAddr 1) (.int 3) (.int 5) (.ofList [.tuple [.ofWord 7, .ofWord 8]]) (.bin [1, 2])] :=
    ⟨careful_of_no_slots nofun nofun, careful_of_no_slots nofun nofun, careful_put .., trivial⟩
  have hs : Heap.init.successful Sha256.sha256 [.new, .new,
      .put 0 (.ofAddr 1) (.int 3) (.int 5) (.ofList [.tuple [.ofWord 7, .ofWord 8]])
        (.bin [1, 2])] = true := by
    rw [Sha256.sha256_eq]
    decide +kernel
  have hcoh := run_coherent ok_init hc hs fun _ _ hu => by cases hu
  let acc : Account := ⟨3, 5, [1, 2], Tree.empty.insertItem (Word.bytes 7) 8⟩
  have hv : ∃ v, h.view 0 = some v ∧ v.accounts.entries = [(1, acc)] := by
    refine ⟨_, (Option.some_get (show ((Heap.run Sha256.sha256 _ _).view 0).isSome = true by
      rw [Sha256.sha256_eq]
      decide +kernel)).symm, ?_⟩
    simp only [Sha256.sha256_eq]
    decide +kernel
  have hw : ∃ w, h.view 1 = some w ∧ w.accounts.entries = [] := by
    refine ⟨_, (Option.some_get (show ((Heap.run Sha256.sha256 _ _).view 1).isSome = true by
      rw [Sha256.sha256_eq]
      decide +kernel)).symm, ?_⟩
    simp only [Sha256.sha256_eq]
    decide +kernel
  obtain ⟨v, hv, ev⟩ := hv
  obtain ⟨w, hw, ew⟩ := hw
  have hh : Collisionless Sha256.sha256 v w := by
    have e1 : v.hashed Sha256.sha256 ++ w.hashed Sha256.sha256 = acc.hashed Sha256.sha256 := by
      unfold View.hashed
      rw [ev, ew]
      simp
    have e2 : v.accounts.entries ++ w.accounts.entries = [(1, acc)] := by rw [ev, ew]; rfl
    refine ⟨?_, ?_, ?_, ?_⟩
    · rw [e1]
      unfold InjOn
      rw [Sha256.sha256_eq]
      decide +kernel
    · rw [e1, Sha256.sha256_eq]
      decide +kernel
    · rw [e2]
      decide +kernel
    · rw [e2]
      decide +kernel
  exact ⟨v, w, hv, hw, difference_full_exact (run_ok ok_init hc) hv hw (hcoh 0 v hv) (hcoh 1 w hw) hh⟩

end Diode.L3
