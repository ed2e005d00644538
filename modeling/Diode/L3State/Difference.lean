import Diode.L3State.Compact

/-!
# `account_map_difference_full`

The native difference of two maps. It walks the keys on which the two state
tries disagree, skips an address whose two records are equal, and lists the
slots on which the storages disagree. Its shortcuts compare the states behind
resources.

`differenceFull_spec`: under `Ok` the answer is a function of the two views
(`View.differenceFull`), the shortcuts included, and nothing but root caches
changes.

The references a snapshot holds while the list is built are not modelled, nor
are the temporary trees; both are gone when the call returns.
-/
namespace Diode.L3
open Diode.Core Diode.L1.Ext Diode.L2 Function

/-- mirrors c_src/nif.cpp:1279-1289, 1341-1350 -/
structure DiffSide where
  nonce : BitVec 64
  balance : Word
  code : Bytes
  deriving DecidableEq

/-- One tuple of the result: the address, both sides, the slots with their two
values and the two storage roots. -/
structure DiffEntry where
  addr : Addr
  a : Option DiffSide
  b : Option DiffSide
  storage : List (Bytes × Option Word × Option Word)
  root_a : Option Word
  root_b : Option Word
  deriving DecidableEq

/-- The keys on which two tries disagree, with both values.
mirrors c_src/nif.cpp:1405-1428 -/
def slotDiff (a b : Tree) : List (Bytes × Option Word × Option Word) :=
  ((b.difference a (a.difference b Tree.empty)).pairs.map fun p =>
    (p.1, a.slots.get p.1, b.slots.get p.1)).reverse

/-- The addresses on which two state tries disagree. The source sorts them and
drops duplicates; `pairs` is sorted and has none.
mirrors c_src/nif.cpp:1474-1488 -/
def diffKeys (a b : Tree) : List Addr :=
  (b.difference a (a.difference b Tree.empty)).pairs.filterMap fun p =>
    if p.1.length = 20 then some (BitVec.ofNat 160 (ofBe p.1)) else none

namespace Heap

def side (e : AccountEntry) : DiffSide := ⟨e.nonce, e.balance, e.code⟩

/-- The shortcuts of `entries_equal`.
mirrors c_src/nif.cpp:1319-1328 -/
def sameStorage (h : Heap) (a b : AccountEntry) : Bool :=
  (match a.storage, b.storage with
    | some x, some y => h.res.stateOf x = h.res.stateOf y
    | _, _ => false) ||
  (a.compact_storage.isSome && a.compact_storage = b.compact_storage)

/-- The shortcuts of `build_storage_diff_list`: one live state, or two storages
without slots, which are both read as the `empty_storage_tree`.
mirrors c_src/nif.cpp:1353-1373, 1387-1401 -/
def oneTree (h : Heap) (a b : Option AccountEntry) : Bool :=
  match a.bind AccountEntry.storage, b.bind AccountEntry.storage with
  | some x, some y => h.res.stateOf x = h.res.stateOf y
  | none, none => (a.elim [] h.slots).isEmpty && (b.elim [] h.slots).isEmpty
  | _, _ => false

/-- mirrors c_src/nif.cpp:1382-1432 -/
def buildStorageDiffList (h : Heap) (a b : Option AccountEntry) :
    List (Bytes × Option Word × Option Word) :=
  if h.oneTree a b then [] else slotDiff (a.elim Tree.empty h.storageOf) (b.elim Tree.empty h.storageOf)

section
variable (sha : Bytes → Word)

/-- mirrors c_src/nif.cpp:1314-1333 -/
def entriesEqual (h : Heap) (a b : AccountEntry) : Heap × Bool :=
  if side a = side b then
    if h.sameStorage a b then (h, true)
    else
      let (h, rootA) := h.storageRootHashForEntry sha a
      let (h, rootB) := h.storageRootHashForEntry sha b
      (h, rootA = rootB)
  else (h, false)

/-- mirrors c_src/nif.cpp:1434-1448 -/
def rootForDiffSide (h : Heap) : Option AccountEntry → Heap × Option Word
  | none => (h, none)
  | some e =>
    let (h, root) := h.storageRootHashForEntry sha e
    (h, some root)

/-- The first loop of `account_map_difference_full`.
mirrors c_src/nif.cpp:1490-1518 -/
def collectDiffs (ma mb : Nat) (h : Heap) : List Addr →
    Heap × List (Addr × Option AccountEntry × Option AccountEntry)
  | [] => (h, [])
  | a :: l =>
    match h.entry ma a, h.entry mb a with
    | none, none => collectDiffs ma mb h l
    | some x, some y =>
      let (h, equal) := h.entriesEqual sha x y
      let (h, out) := collectDiffs ma mb h l
      (h, if equal then out else (a, some x, some y) :: out)
    | x, y =>
      let (h, out) := collectDiffs ma mb h l
      (h, (a, x, y) :: out)

/-- The second loop of `account_map_difference_full`.
mirrors c_src/nif.cpp:1521-1538 -/
def diffEntries (h : Heap) (out : List DiffEntry) :
    List (Addr × Option AccountEntry × Option AccountEntry) → Heap × List DiffEntry
  | [] => (h, out)
  | i :: l =>
    let storage := h.buildStorageDiffList i.2.1 i.2.2
    let (h, rootA) := h.rootForDiffSide sha i.2.1
    let (h, rootB) := h.rootForDiffSide sha i.2.2
    diffEntries h (⟨i.1, i.2.1.map side, i.2.2.map side, storage, rootA, rootB⟩ :: out) l

/-- mirrors c_src/nif.cpp:1450-1541 -/
def differenceFull (h : Heap) (ma mb : Nat) : Heap × Option (List DiffEntry) :=
  match h.maps ma, h.maps mb with
  | some sa, some sb =>
    if ma = mb then (h, some [])
    else if h.res.stateOf sa.state_trie = h.res.stateOf sb.state_trie then (h, some [])
    else
      let (h, items) := h.collectDiffs sha ma mb
        (diffKeys (h.res.tree sa.state_trie) (h.res.tree sb.state_trie))
      let (h, l) := h.diffEntries sha [] items
      (h, some l)
  | _, _ => (h, none)

end
end Heap

/-! ## The difference of two views -/

section
variable (sha : Bytes → Word)

def Account.side (acc : Account) : DiffSide := ⟨acc.nonce, acc.balance, acc.code⟩

/-- The tuple of an address with the records `x` and `y`. -/
def diffEntry (a : Addr) (x y : Option Account) : DiffEntry :=
  ⟨a, x.map Account.side, y.map Account.side,
    slotDiff (x.elim Tree.empty Account.storage) (y.elim Tree.empty Account.storage),
    x.map fun acc => acc.storage.rootHash sha, y.map fun acc => acc.storage.rootHash sha⟩

/-- Nothing is reported for two records the native code takes for equal. -/
def passes (x y : Option Account) : Bool :=
  match x, y with
  | none, none => true
  | some x, some y => x.side = y.side && decide (x.storage.rootHash sha = y.storage.rootHash sha)
  | _, _ => false

def View.differenceFull (v w : View) : List DiffEntry :=
  (((diffKeys v.trie w.trie).filter fun a => !passes sha (v.accounts.get a) (w.accounts.get a)).map fun a =>
    diffEntry sha a (v.accounts.get a) (w.accounts.get a)).reverse

end

/-! ## The native difference computes it -/

theorem slotDiff_self (t : Tree) : slotDiff t t = [] := by
  have h : (t.difference t (t.difference t Tree.empty)).pairs = [] := by
    rw [List.eq_nil_iff_forall_not_mem]
    intro p hp
    exact absurd rfl (Tree.mem_differences.1 ⟨p, hp, rfl⟩)
  unfold slotDiff
  rw [h]
  rfl

theorem diffKeys_self (t : Tree) : diffKeys t t = [] := by
  have h : (t.difference t (t.difference t Tree.empty)).pairs = [] := by
    rw [List.eq_nil_iff_forall_not_mem]
    intro p hp
    exact absurd rfl (Tree.mem_differences.1 ⟨p, hp, rfl⟩)
  unfold diffKeys
  rw [h]
  rfl

namespace Heap
variable {sha : Bytes → Word} {h h' h'' : Heap} {m : Nat} {a : Addr} {e : AccountEntry} {v : View}
    {s : SharedAccountMap}

/-- From `h` to `h'` at most root caches were filled. -/
structure Fills (sha : Bytes → Word) (h h' : Heap) : Prop where
  ok : Ok sha h'
  maps : h'.maps = h.maps
  res : h'.res = h.res
  slots : ∀ c cs, h.compacts c = some cs → ∃ cs', h'.compacts c = some cs' ∧ cs'.slots = cs.slots
  nextMap : h'.nextMap = h.nextMap

namespace Fills

theorem refl (hk : Ok sha h) : Fills sha h h := ⟨hk, rfl, rfl, fun _ cs hc => ⟨cs, hc, rfl⟩, rfl⟩

theorem trans (h1 : Fills sha h h') (h2 : Fills sha h' h'') : Fills sha h h'' where
  ok := h2.ok
  maps := h2.maps.trans h1.maps
  res := h2.res.trans h1.res
  slots := by
    intro c cs hc
    obtain ⟨cs1, hc1, e1⟩ := h1.slots c cs hc
    obtain ⟨cs2, hc2, e2⟩ := h2.slots c cs1 hc1
    exact ⟨cs2, hc2, e2.trans e1⟩
  nextMap := h2.nextMap.trans h1.nextMap

theorem entry (hf : Fills sha h h') (m : Nat) (a : Addr) : h'.entry m a = h.entry m a := by
  unfold Heap.entry
  rw [hf.maps]

theorem account (hf : Fills sha h h') (hk : Ok sha h) (he : h.entry m a = some e) :
    h'.account e = h.account e :=
  account_eq hk he (fun mt _ => by rw [hf.res]) hf.slots

theorem map_account (hf : Fills sha h h') (hk : Ok sha h) (m : Nat) (a : Addr) :
    (h.entry m a).map h'.account = (h.entry m a).map h.account := by
  cases he : h.entry m a with
  | none => rfl
  | some e => rw [Option.map_some, Option.map_some, hf.account hk he]

theorem own (hf : Fills sha h h') : h'.own = h.own := by
  funext o
  cases o with
  | trie m =>
    show (h'.maps m).map _ = (h.maps m).map _
    rw [hf.maps]
  | entry m b =>
    show (h'.entry m b).bind _ = (h.entry m b).bind _
    rw [hf.entry]

/-- **No map looks different.** -/
theorem view (hf : Fills sha h h') (hk : Ok sha h) (m : Nat) : h'.view m = h.view m := by
  unfold Heap.view
  rw [hf.maps, hf.res]
  cases hs : h.maps m with
  | none => rfl
  | some s =>
    have hentries : s.accounts.map h'.account = s.accounts.map h.account :=
      SMap.map_congr fun b e he => hf.account hk ((entry_of_map hs b).trans he)
    rw [Option.map_some, Option.map_some, hentries]

end Fills

theorem storageRootHashForEntry_fills (hk : Ok sha h) (he : h.entry m a = some e) :
    (h.storageRootHashForEntry sha e).2 = (h.storageOf e).rootHash sha ∧
      Fills sha h (h.storageRootHashForEntry sha e).1 := by
  obtain ⟨s, hs, -⟩ := Option.bind_eq_some_iff.1 he
  obtain ⟨h1, h2, h3⟩ := storageRootHashForEntry_moves hk (view_of_map hs) he
  refine ⟨h1, h3.ok, h2, ?_, h3.within.slots, ?_⟩ <;>
  · unfold storageRootHashForEntry
    split
    · rfl
    · split
      · rfl
      · split
        · rfl
        · split <;> rfl

theorem tree_of_sameState {r : Resources} {i j : Nat} (hs : r.stateOf i = r.stateOf j) :
    r.tree i = r.tree j := by
  rw [Resources.Held.tree_of_stateOf, Resources.Held.tree_of_stateOf, hs]

theorem storage_of_account (e : AccountEntry) : (h.account e).storage = h.storageOf e := rfl

/-- The shortcuts of `entries_equal` hold only of equal storages. -/
theorem sameStorage_eq (hk : Ok sha h) {ma mb : Nat} {x y : AccountEntry} (hx : h.entry ma a = some x)
    (hy : h.entry mb a = some y) (hs : h.sameStorage x y = true) : h.storageOf x = h.storageOf y := by
  unfold sameStorage at hs
  unfold storageOf
  rcases Bool.or_eq_true_iff.1 hs with h1 | h1
  · cases ex : x.storage with
    | none => rw [ex] at h1; cases h1
    | some i =>
      cases ey : y.storage with
      | none => rw [ex, ey] at h1; cases h1
      | some j =>
        rw [ex, ey] at h1
        exact tree_of_sameState (of_decide_eq_true h1)
  · simp only [Bool.and_eq_true, decide_eq_true_eq] at h1
    obtain ⟨hc, he⟩ := h1
    have hnx : x.storage = none := by
      by_contra hne
      rw [hk.kind ma a x hx hne] at hc
      cases hc
    have hny : y.storage = none := by
      by_contra hne
      rw [he, hk.kind mb a y hy hne] at hc
      cases hc
    unfold slots
    rw [hnx, hny, he]

theorem entriesEqual_spec (hk : Ok sha h) {ma mb : Nat} {x y : AccountEntry}
    (hx : h.entry ma a = some x)
    (hy : h.entry mb a = some y) :
    (h.entriesEqual sha x y).2 = passes sha (some (h.account x)) (some (h.account y)) ∧
      Fills sha h (h.entriesEqual sha x y).1 := by
  unfold entriesEqual passes
  dsimp only
  have hside : ∀ e, (h.account e).side = side e := fun _ => rfl
  rw [hside, hside]
  by_cases h1 : side x = side y
  · rw [if_pos h1, decide_eq_true h1, Bool.true_and]
    by_cases h2 : h.sameStorage x y = true
    · rw [if_pos h2, storage_of_account, storage_of_account, sameStorage_eq hk hx hy h2]
      exact ⟨(decide_eq_true rfl).symm, Fills.refl hk⟩
    · rw [if_neg h2]
      obtain ⟨k1, k2⟩ := storageRootHashForEntry_fills hk hx
      obtain ⟨k3, k4⟩ := storageRootHashForEntry_fills k2.ok ((k2.entry mb a).trans hy)
      have k5 : (h.storageRootHashForEntry sha x).1.storageOf y = h.storageOf y :=
        congrArg Account.storage (k2.account hk hy)
      dsimp only
      rw [k1, k3, k5]
      exact ⟨rfl, k2.trans k4⟩
  · rw [if_neg h1, decide_eq_false h1]
    exact ⟨rfl, Fills.refl hk⟩

theorem collectDiffs_spec {ma mb : Nat} : ∀ (l : List Addr) (h : Heap), Ok sha h →
    Fills sha h (h.collectDiffs sha ma mb l).1 ∧ (h.collectDiffs sha ma mb l).2 =
      (l.filter fun a => !passes sha ((h.entry ma a).map h.account)
        ((h.entry mb a).map h.account)).map fun a =>
        (a, h.entry ma a, h.entry mb a)
  | [], h, hk => ⟨Fills.refl hk, rfl⟩
  | a :: l, h, hk => by
    rw [List.filter_cons]
    unfold collectDiffs
    cases hx : h.entry ma a with
    | none =>
      obtain ⟨k1, k2⟩ := collectDiffs_spec l h hk
      cases hy : h.entry mb a with
      | none => exact ⟨k1, k2⟩
      | some y =>
        refine ⟨k1, ?_⟩
        dsimp only
        rw [k2, Option.map_none, Option.map_some, show passes sha none (some (h.account y)) =
          false from rfl, Bool.not_false,
          if_pos rfl, List.map_cons, hx, hy]
    | some x =>
      cases hy : h.entry mb a with
      | none =>
        obtain ⟨k1, k2⟩ := collectDiffs_spec l h hk
        refine ⟨k1, ?_⟩
        dsimp only
        rw [k2, Option.map_none, Option.map_some, show passes sha (some (h.account x)) none =
          false from rfl, Bool.not_false,
          if_pos rfl, List.map_cons, hx, hy]
      | some y =>
        obtain ⟨e1, e2⟩ := entriesEqual_spec hk hx hy
        obtain ⟨k1, k2⟩ := collectDiffs_spec l _ e2.ok
        refine ⟨e2.trans k1, ?_⟩
        dsimp only
        simp only [e2.entry, e2.map_account hk] at k2
        rw [k2, e1, Option.map_some, Option.map_some]
        cases passes sha (some (h.account x)) (some (h.account y)) with
        | true => rfl
        | false => rw [Bool.not_false, if_pos rfl, List.map_cons, hx, hy]; rfl

theorem rootForDiffSide_spec (hk : Ok sha h) (m : Nat) (a : Addr) :
    (h.rootForDiffSide sha (h.entry m a)).2 = ((h.entry m a).map h.account).map
      (fun acc => acc.storage.rootHash sha) ∧
      Fills sha h (h.rootForDiffSide sha (h.entry m a)).1 := by
  cases he : h.entry m a with
  | none => exact ⟨rfl, Fills.refl hk⟩
  | some e =>
    obtain ⟨k1, k2⟩ := storageRootHashForEntry_fills hk he
    refine ⟨?_, k2⟩
    unfold rootForDiffSide
    dsimp only
    rw [k1]
    rfl

theorem elim_storage (h : Heap) (x : Option AccountEntry) :
    x.elim Tree.empty h.storageOf = (x.map h.account).elim Tree.empty Account.storage := by
  cases x <;> rfl

theorem buildStorageDiffList_eq (h : Heap) (x y : Option AccountEntry) : h.buildStorageDiffList x y =
    slotDiff ((x.map h.account).elim Tree.empty Account.storage)
      ((y.map h.account).elim Tree.empty Account.storage) := by
  unfold buildStorageDiffList
  rw [← elim_storage, ← elim_storage]
  cases hs : h.oneTree x y with
  | false => rfl
  | true =>
    have heq : x.elim Tree.empty h.storageOf = y.elim Tree.empty h.storageOf := by
      have hempty : ∀ z : Option AccountEntry, z.bind AccountEntry.storage = none →
        (z.elim [] h.slots).isEmpty = true →
          z.elim Tree.empty h.storageOf = Tree.empty := by
        intro z hz1 hz2
        cases z with
        | none => rfl
        | some e =>
          rw [Option.bind_some] at hz1
          rw [Option.elim_some, List.isEmpty_iff] at hz2
          rw [Option.elim_some]
          unfold storageOf
          rw [hz1]
          dsimp only
          rw [hz2]
          rfl
      unfold oneTree at hs
      cases hx : x.bind AccountEntry.storage with
      | none =>
        cases hy : y.bind AccountEntry.storage with
        | none =>
          rw [hx, hy, Bool.and_eq_true_iff] at hs
          rw [hempty x hx hs.1, hempty y hy hs.2]
        | some j => rw [hx, hy] at hs; cases hs
      | some i =>
        cases hy : y.bind AccountEntry.storage with
        | none => rw [hx, hy] at hs; cases hs
        | some j =>
          rw [hx, hy] at hs
          obtain ⟨ex, rfl, h1⟩ := Option.bind_eq_some_iff.1 hx
          obtain ⟨ey, rfl, h2⟩ := Option.bind_eq_some_iff.1 hy
          rw [Option.elim_some, Option.elim_some]
          unfold storageOf
          rw [h1, h2]
          exact tree_of_sameState (of_decide_eq_true hs)
    rw [if_pos rfl, heq, slotDiff_self]

theorem diffEntries_spec {ma mb : Nat} : ∀ (l : List Addr) (h : Heap) (out : List DiffEntry), Ok sha h →
    Fills sha h (h.diffEntries sha out (l.map fun a => (a, h.entry ma a, h.entry mb a))).1 ∧
      (h.diffEntries sha out (l.map fun a => (a, h.entry ma a, h.entry mb a))).2 =
        (l.map fun a => diffEntry sha a ((h.entry ma a).map h.account)
          ((h.entry mb a).map h.account)).reverse ++ out
  | [], h, out, hk => ⟨Fills.refl hk, rfl⟩
  | a :: l, h, out, hk => by
    obtain ⟨k1, k2⟩ := rootForDiffSide_spec hk ma a
    obtain ⟨k3, k4⟩ := rootForDiffSide_spec k2.ok mb a
    rw [k2.entry] at k3 k4
    have hf := k2.trans k4
    obtain ⟨k5, k6⟩ := diffEntries_spec l _ (diffEntry sha a ((h.entry ma a).map h.account)
      ((h.entry mb a).map h.account) :: out)
      hf.ok
    simp only [hf.entry, hf.map_account hk] at k5 k6
    have hstep : h.diffEntries sha out ((a :: l).map fun a => (a, h.entry ma a, h.entry mb a)) =
        ((h.rootForDiffSide sha (h.entry ma a)).1.rootForDiffSide sha (h.entry mb a)).1.diffEntries sha
          (diffEntry sha a ((h.entry ma a).map h.account) ((h.entry mb a).map h.account) :: out)
          (l.map fun a => (a, h.entry ma a, h.entry mb a)) := by
      rw [List.map_cons, diffEntries]
      dsimp only
      rw [k1, k3, k2.map_account hk, buildStorageDiffList_eq]
      have hside : ∀ x : Option AccountEntry, x.map side = (x.map h.account).map Account.side :=
        fun x => by cases x <;> rfl
      rw [hside, hside]
      rfl
    rw [hstep, List.map_cons, List.reverse_cons, List.append_assoc]
    exact ⟨hf.trans k5, k6⟩

/-- **The native difference is the difference of the views.** -/
theorem differenceFull_spec (hk : Ok sha h) {ma mb : Nat} {v w : View} (hv : h.view ma = some v)
    (hw : h.view mb = some w) :
    (h.differenceFull sha ma mb).2 = some (v.differenceFull sha w) ∧
      Fills sha h (h.differenceFull sha ma mb).1 := by
  obtain ⟨sa, hsa, -, hta, -⟩ := view_some hv
  obtain ⟨sb, hsb, -, htb, -⟩ := view_some hw
  have hnil : v.trie = w.trie → v.differenceFull sha w = [] := by
    intro e
    unfold View.differenceFull
    rw [e, diffKeys_self]
    rfl
  unfold differenceFull
  rw [hsa, hsb]
  dsimp only
  by_cases h1 : ma = mb
  · subst h1
    rw [hv, Option.some.injEq] at hw
    rw [if_pos rfl, hnil (by rw [hw])]
    exact ⟨rfl, Fills.refl hk⟩
  · rw [if_neg h1]
    by_cases h2 : h.res.stateOf sa.state_trie = h.res.stateOf sb.state_trie
    · rw [if_pos h2, hnil (by rw [hta, htb]; exact tree_of_sameState h2)]
      exact ⟨rfl, Fills.refl hk⟩
    · rw [if_neg h2]
      obtain ⟨k1, k2⟩ := @collectDiffs_spec sha ma mb
        (diffKeys (h.res.tree sa.state_trie) (h.res.tree sb.state_trie)) h hk
      dsimp only
      rw [k2]
      obtain ⟨k3, k4⟩ := @diffEntries_spec sha ma mb
        ((diffKeys (h.res.tree sa.state_trie) (h.res.tree sb.state_trie)).filter fun a =>
          !passes sha ((h.entry ma a).map h.account) ((h.entry mb a).map h.account)) _ [] k1.ok
      simp only [k1.entry] at k3 k4
      refine ⟨?_, k1.trans k3⟩
      simp only [k1.map_account hk] at k4
      rw [k4, List.append_nil]
      unfold View.differenceFull
      simp only [view_get hv, view_get hw, hta, htb]

end Heap
end Diode.L3
