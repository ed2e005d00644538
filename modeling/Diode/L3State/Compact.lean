import Diode.L3State.Query

/-!
# `account_map_compact`

The compact term of a map parses back to the accounts of the map, each with
the hashes that belong to it (`compact_spec`), so that uncompacting it rebuilds
the state of the map (`uncompact_compact`).
-/
namespace Diode.L3
open Diode.Core Diode.L1.Ext Diode.L2 Function

namespace Term

/-- The storage of a compact account: `nil` without items. -/
def compactStorage : Option (List Pair) → Term
  | none => atom .nil
  | some items => tuple [atom .elixirMapMerkleTree, nil, map (items.map fun p => (bin p.1, ofWord p.2))]

def ofHash : Option Word → Term
  | none => atom .nil
  | some w => ofWord w

/-- The map of a compact account.
mirrors c_src/nif.cpp:2348-2393 -/
def compactAccount (p : ParsedCompactAccount) : Term :=
  map [(atom .struct, atom .chainAccount), (atom .nonce, int p.nonce.toNat),
    (atom .balance, ofBalance p.balance),
    (atom .storage_root, compactStorage p.slots),
      (atom .code, if p.code.isEmpty then atom .nil else bin p.code),
    (atom .map_backed, atom .falseAtom), (atom .root_hash, ofHash p.compact_root_hash),
    (atom .code_hash, ofHash p.compact_code_hash)]

end Term

namespace Heap
variable (sha : Bytes → Word)

/-- The items of a storage term: the last value of a key counts. -/
def compactItems (slots : List Pair) : List Pair :=
    (slots.foldl (fun m s => m.put s.1 s.2) SMap.empty).entries

/-- mirrors c_src/nif.cpp:2286-2333 -/
def buildCompactStorageItems (h : Heap) (e : AccountEntry) : Option (List Pair) :=
  let slots := match e.storage with
    | some mt => (h.res.tree mt).pairs
    | none => h.slots e
  if slots.isEmpty then none else some (compactItems slots)

/-- mirrors c_src/nif.cpp:2335-2394 -/
def makeCompactAccountTerm (h : Heap) (e : AccountEntry) : Heap × Term :=
  let (h, root) := h.storageRootHashForEntry sha e
  (h, .compactAccount ⟨e.nonce, e.balance, h.buildCompactStorageItems e, e.code, some root,
    some (sha e.code)⟩)

/-- The loop of `account_map_compact`. -/
def compactAccounts (h : Heap) : List (Addr × AccountEntry) → Heap × List (Term × Term)
  | [] => (h, [])
  | p :: l =>
    let (h, t) := h.makeCompactAccountTerm sha p.2
    let (h, l) := h.compactAccounts l
    (h, (.ofAddr p.1, t) :: l)

/-- mirrors c_src/nif.cpp:2396-2426 -/
def accountMapCompact (h : Heap) (m : Nat) : Heap × Option Term :=
  match h.maps m with
  | none => (h, none)
  | some s =>
    let (h, l) := h.compactAccounts sha s.accounts.entries
    (h, some (.map l))

end Heap

/-! ## Parsing what was built -/

namespace Term

theorem getBalance_ofBalance (w : Word) : (ofBalance w).getBalance = some w := by
  unfold ofBalance
  split
  · exact getBalance_int w
  · rename_i hbig
    have hne : w.toNat ≠ 0 := by omega
    have hlt := L1.Rlp.lt_byteSize w.toNat
    have hle : L1.Rlp.byteSize w.toNat ≤ 32 := L1.Rlp.byteSize_le w.isLt
    have hpos : 0 < L1.Rlp.byteSize w.toNat := by
      unfold L1.Rlp.byteSize
      rw [if_neg hne]
      omega
    unfold getBalance L1.Rlp.unsigned
    dsimp only
    rw [be_length, if_pos ⟨by omega, by omega⟩, ofBe_be hlt, BitVec.ofNat_toNat, BitVec.setWidth_eq]

theorem getCode_compact (code : Bytes) : (if code.isEmpty then atom .nil else bin code).getCode =
    some code := by
  cases code <;> rfl

theorem optionalHash_ofHash (w : Option Word) : optionalHash (some (ofHash w)) = some w := by
  cases w with
  | none => rfl
  | some w =>
    show (ofWord w).word?.map some = _
    rw [word?_ofWord, Option.map_some]

theorem mapM_map_some {α β : Type} {f : β → Option α} {g : α → β} : ∀ {l : List α},
    (∀ x ∈ l, f (g x) = some x) →
    (l.map g).mapM f = some l
  | [], _ => rfl
  | x :: l, h => by
    rw [List.map_cons, List.mapM_cons, h x List.mem_cons_self, mapM_map_some fun y hy =>
      h y (List.mem_cons_of_mem _ hy)]
    rfl

theorem decodeStorageSlot_ofWord (p : Pair) : decodeStorageSlot (bin p.1) (ofWord p.2) = some p := by
  unfold decodeStorageSlot bin?
  rw [word?_ofWord]
  rfl

theorem parseCompactStorage_compactStorage (slots : Option (List Pair)) :
    (compactStorage slots).parseCompactStorage = some slots := by
  cases slots with
  | none => rfl
  | some items =>
    have h := mapM_map_some (f := fun p : Term × Term => decodeStorageSlot p.1 p.2)
      (g := fun p : Pair => (bin p.1, ofWord p.2)) (l := items) fun p _ => decodeStorageSlot_ofWord p
    simp only [compactStorage, parseCompactStorage, entries?, Option.bind_some, h, Option.map_some]

/-- The parser reads each field by its key. -/
theorem parseCompactAccount_of {p : ParsedCompactAccount} {t nonce balance storage code : Term}
    {root codeHash : Option Term}
    (h1 : t.mapGetAtom .nonce = some nonce) (h2 : t.mapGetAtom .balance = some balance)
    (h3 : t.mapGetAtom .storage_root = some storage) (h4 : t.mapGetAtom .code = some code)
    (h5 : t.mapGetAtom .root_hash = root) (h6 : t.mapGetAtom .code_hash = codeHash)
      (e1 : nonce.getUint64 = some p.nonce)
    (e2 : balance.getBalance = some p.balance) (e3 : storage.parseCompactStorage = some p.slots)
    (e4 : code.getCode = some p.code) (e5 : optionalHash root = some p.compact_root_hash)
    (e6 : optionalHash codeHash = some p.compact_code_hash) : t.parseCompactAccount = some p := by
  unfold parseCompactAccount
  rw [h1, h2, h3, h4, h5, h6, e5, e6]
  simp only [Option.bind_eq_bind, Option.bind_some, e1, e2, e3, e4]

/-- **A compact account parses back.** -/
theorem parseCompactAccount_compactAccount (p : ParsedCompactAccount) :
    (compactAccount p).parseCompactAccount = some p :=
  parseCompactAccount_of rfl rfl rfl rfl rfl rfl (getUint64_int _) (getBalance_ofBalance _)
    (parseCompactStorage_compactStorage _) (getCode_compact _) (optionalHash_ofHash _)
      (optionalHash_ofHash _)

end Term

namespace Tree

/-- Filling a tree and a table slot by slot keeps them in step. -/
theorem read_foldl_insertItem (k : Bytes) : ∀ (l : List Pair) (t : Tree) (c : SMap Bytes Word),
    t.read k = (c.get k).getD 0 →
    (l.foldl (fun t s => t.insertItem s.1 s.2) t).read k =
      ((l.foldl (fun m s => m.put s.1 s.2) c).get k).getD 0
  | [], _, _, h => h
  | p :: l, t, c, h => by
    rw [List.foldl_cons, List.foldl_cons]
    apply read_foldl_insertItem k l
    rw [read_insertItem, SMap.get_put, h]
    split <;> rfl

theorem ofSlots_compactItems (slots : List Pair) : ofSlots (Heap.compactItems slots) =
    ofSlots slots := by
  apply ext
  intro k
  unfold ofSlots
  rw [read_foldl_insertItem k _ _ SMap.empty rfl, read_foldl_insertItem k _ _ SMap.empty rfl,
    Heap.compactItems,
    SMap.foldl_entries]

theorem ofSlots_pairs (t : Tree) : ofSlots t.pairs = t := by
  apply ext
  intro k
  unfold ofSlots
  rw [read_foldl_insertItem k _ _ SMap.empty rfl]
  unfold pairs
  rw [SMap.foldl_entries]
  rfl

end Tree

namespace Heap
variable {sha : Bytes → Word} {h : Heap} {m : Nat} {a : Addr} {e : AccountEntry} {v : View}
    {s : SharedAccountMap}

theorem storageOf_compact : Tree.ofSlots ((h.buildCompactStorageItems e).getD []) = h.storageOf e := by
  have hmain : ∀ slots : List Pair, Tree.ofSlots
    ((if slots.isEmpty then none else some (compactItems slots)).getD []) =
      Tree.ofSlots slots := by
    intro slots
    cases slots with
    | nil => rfl
    | cons p l => exact Tree.ofSlots_compactItems (p :: l)
  unfold buildCompactStorageItems storageOf
  dsimp only
  rw [hmain]
  cases e.storage with
  | some mt => exact Tree.ofSlots_pairs _
  | none => rfl

/-- The term of an account parses back to it. -/
theorem makeCompactAccountTerm_moves (hk : Ok sha h) (hv : h.view m = some v)
    (he : h.entry m a = some e) :
    (h.makeCompactAccountTerm sha e).1.maps = h.maps ∧
      Moves sha m [] h (h.makeCompactAccountTerm sha e).1 v ∧
      ∃ p, (h.makeCompactAccountTerm sha e).2.parseCompactAccount = some p ∧ p.Honest sha ∧
        p.account = h.account e := by
  obtain ⟨hroot, hmaps, hm⟩ := storageRootHashForEntry_moves hk hv he
  have hacc := account_kept hm hv hmaps he
  have hst : (h.storageRootHashForEntry sha e).1.storageOf e = h.storageOf e :=
    congrArg Account.storage hacc
  refine ⟨hmaps, hm, ⟨e.nonce, e.balance,
    (h.storageRootHashForEntry sha e).1.buildCompactStorageItems e, e.code,
    some ((h.storageOf e).rootHash sha), some (sha e.code)⟩, ?_, ⟨fun w hw => ?_, fun w hw => ?_⟩, ?_⟩
  · unfold makeCompactAccountTerm
    dsimp only
    rw [hroot]
    exact Term.parseCompactAccount_compactAccount _
  · cases hw
    dsimp only
    rw [storageOf_compact, hst]
  · cases hw
    rfl
  · unfold ParsedCompactAccount.account
    dsimp only
    rw [storageOf_compact, hst]
    rfl

theorem compactAccounts_moves (hv : h.view m = some v) : ∀ (l : List (Addr × AccountEntry))
    (h' : Heap), Ok sha h →
    (∀ p ∈ l, h.entry m p.1 = some p.2) → h'.maps = h.maps → Moves sha m [] h h' v →
    Moves sha m [] h (h'.compactAccounts sha l).1 v ∧
      ∃ c, (h'.compactAccounts sha l).2.mapM Term.parseCompactEntry = some c ∧
      c.map Prod.fst = l.map Prod.fst ∧ (∀ p ∈ c, p.2.Honest sha) ∧
      c.map (fun p => (p.1, p.2.account)) = l.map fun p => (p.1, h.account p.2)
  | [], h', _, _, _, hm => ⟨hm, [], rfl, rfl, nofun, rfl⟩
  | p :: l, h', hk, hl, hmaps, hm => by
    have he : h.entry m p.1 = some p.2 := hl p List.mem_cons_self
    have he' : h'.entry m p.1 = some p.2 := by
      unfold entry
      rw [hmaps]
      exact he
    obtain ⟨h1, h2, x, h3, h4, h5⟩ := makeCompactAccountTerm_moves hm.ok hm.view he'
    obtain ⟨h6, c, h7, h8, h9, h10⟩ := compactAccounts_moves hv l _ hk
      (fun q hq => hl q (List.mem_cons_of_mem _ hq))
      (h1.trans hmaps) (hm.trans hk h2)
    refine ⟨h6, (p.1, x) :: c, ?_, ?_, ?_, ?_⟩
    · have h11 : Term.parseCompactEntry (.ofAddr p.1, (h'.makeCompactAccountTerm sha p.2).2) = some
        (p.1, x) := by
        unfold Term.parseCompactEntry
        rw [Term.getAddress_ofAddr, h3]
        rfl
      unfold compactAccounts
      dsimp only
      rw [List.mapM_cons, h11, h7]
      rfl
    · rw [List.map_cons, List.map_cons, h8]
    · intro q hq
      rcases List.mem_cons.1 hq with rfl | hq
      · exact h4
      · exact h9 q hq
    · rw [List.map_cons, List.map_cons, h10, h5, account_kept hm hv hmaps he]

/-- **`account_map_compact`.** -/
theorem compact_spec (hk : Ok sha h) (hv : h.view m = some v) :
    Moves sha m [] h (h.accountMapCompact sha m).1 v ∧ ∃ t l, (h.accountMapCompact sha m).2 = some t ∧
      parseCompactState t = some l ∧ (l.map Prod.fst).Nodup ∧ (∀ p ∈ l, p.2.Honest sha) ∧
      l.map (fun p => (p.1, p.2.account)) = v.accounts.entries := by
  obtain ⟨s, hs, -, -, ha⟩ := view_some hv
  obtain ⟨h1, c, h2, h3, h4, h5⟩ := compactAccounts_moves hv s.accounts.entries h hk
    (fun p hp => (entry_of_map hs p.1).trans ((s.accounts.mem_iff p.1 p.2).1 hp)) rfl (Moves.refl hk hv)
  unfold accountMapCompact
  rw [hs]
  refine ⟨h1, _, c, rfl, h2, ?_, h4, ?_⟩
  · rw [h3]
    exact s.accounts.keys_nodup
  · rw [h5, ha]
    rfl

end Heap
end Diode.L3
