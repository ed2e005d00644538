import Diode.L3State.Uncompact

/-!
# Reading an account map

The read-only calls of c_src/nif.cpp on a handle. They are not quite read-only:
some give an account a live storage, some fill a root cache. `ask_moves` says
that none of this shows, and that every answer is a function of the view
(`View.answer`).
-/
namespace Diode.L3
open Diode.Core Diode.L1.Ext Diode.L2 Function

/-- A read-only call, with the arguments it gets after the handle. -/
inductive Query where
  | get (addr : Term)
  | size
  | toList
  | rootHash
  | stateRoots
  | storage (addr spec : Term)
  | storageRoots (addr : Term)
  | proof (addr : Term)
  | storageProof (addr key : Term)

inductive Answer where
  | badarg
  | term (t : Term)
  | proof (p : Proof)

/-- The bytes of an answer that is a binary. -/
def Answer.bin : Answer → Option Bytes
  | .term (.bin b) => some b
  | _ => none

/-! ## Counting up a key -/

/-- The loop of `uint256_increment` at the bytes below `i`. -/
def increment (key : Bytes) : Nat → Bytes × Bool
  | 0 => (key, false)
  | i + 1 =>
    if key.getD i 0 ≠ 0xFF then (key.set i (key.getD i 0 + 1), true) else increment (key.set i 0) i

/-- mirrors c_src/nif.cpp:736-746 -/
def uint256_increment (key : Bytes) : Bytes × Bool := increment key 32

/-- The bytes behind `p` have been set to zero on the way. -/
theorem increment_eq (p : Bytes) : ∀ k, increment (p ++ List.replicate k 0) p.length =
    if ofBe p + 1 < 256 ^ p.length then (be p.length (ofBe p + 1) ++ List.replicate k 0, true)
    else (List.replicate (p.length + k) 0, false) := by
  induction p using List.reverseRecOn with
  | nil =>
    intro k
    rw [if_neg (by decide), List.length_nil, Nat.zero_add]
    rfl
  | append_singleton q x ih =>
    intro k
    have hx := x.toNat_lt
    have hq := ofBe_lt q
    have hget : (q ++ [x] ++ List.replicate k 0).getD q.length 0 = x := by simp
    have hset : ∀ y, (q ++ [x] ++ List.replicate k 0).set q.length y =
        q ++ [y] ++ List.replicate k 0 := by simp
    have hval : ofBe (q ++ [x]) + 1 = ofBe q * 256 + (x.toNat + 1) := by rw [ofBe_snoc, Nat.add_assoc]
    rw [List.length_append, List.length_singleton, increment, hget, hset, hset, hval, Nat.pow_succ]
    by_cases hff : x = 0xFF
    · -- the carry goes on to the left
      subst hff
      have hone : (0xFF : UInt8).toNat + 1 = 256 := rfl
      have hzero : [(0 : UInt8)] ++ List.replicate k 0 = List.replicate (k + 1) 0 := rfl
      rw [if_neg (by simp), List.append_assoc, hzero, ih, hone]
      by_cases hlt : ofBe q + 1 < 256 ^ q.length
      · rw [if_pos hlt, if_pos (by omega), be,
          show (ofBe q * 256 + 256) / 256 = ofBe q + 1 by omega,
          show (ofBe q * 256 + 256) % 256 = 0 by omega, List.append_assoc]
        rfl
      · rw [if_neg hlt, if_neg (by omega), Nat.add_assoc, Nat.add_comm 1 k]
    · have hne : x.toNat + 1 < 256 := by
        have : x.toNat ≠ 255 := fun h => hff (UInt8.toNat_inj.1 h)
        omega
      have hsucc : UInt8.ofNat (x.toNat + 1) = x + 1 := by
        apply UInt8.toNat_inj.1
        rw [UInt8.toNat_ofNat', UInt8.toNat_add]
        rfl
      rw [if_pos hff, if_pos (by omega), be,
        show (ofBe q * 256 + (x.toNat + 1)) / 256 = ofBe q by omega,
        show (ofBe q * 256 + (x.toNat + 1)) % 256 = x.toNat + 1 by omega, be_ofBe, hsucc]

/-- **The carry loop** adds one; from the last key it wraps and says so. -/
theorem uint256_increment_eq {key : Bytes} (h : key.length = 32) : uint256_increment key =
    if ofBe key + 1 < 256 ^ 32 then (be 32 (ofBe key + 1), true)
    else (List.replicate 32 0, false) := by
  have hinc := increment_eq key 0
  rw [List.replicate_zero, List.append_nil, List.append_nil, h] at hinc
  exact hinc

/-! ## Storage specs -/

namespace Tree

/-- The loop of `get_range_entries`, with the entries still wanted. -/
def rangeEntries (t : Tree) : Nat → Bytes → List (Bytes × Word)
  | 0, _ => []
  | left + 1, key =>
    (key, t.read key) ::
      if 0 < left then
        let (next, ok) := uint256_increment key
        if ok then t.rangeEntries left next else []
      else []

/-- mirrors c_src/nif.cpp:748-773 -/
def get_range_entries (t : Tree) (base_key : Bytes) (count : Nat) : List (Bytes × Word) :=
  if count = 0 ∨ base_key.length ≠ 32 then [] else t.rangeEntries count base_key

def rangeTerm (entry : Bytes × Word) : Term := .tuple [.bin entry.1, .ofWord entry.2]

/-- The list of a range reply, built from the last entry on.
mirrors c_src/nif.cpp:1892-1900 -/
def range_list (t : Tree) (key : Bytes) (count : Nat) : Term :=
  (t.get_range_entries key count).reverse.foldl (fun list entry => .cons (rangeTerm entry) list) .nil

/-- Zero-padded values of `count` keys from `key` on, with numbers for keys. -/
def range (t : Tree) : Nat → Bytes → List Term
  | 0, _ => []
  | count + 1, key =>
    Term.tuple [.bin key, .ofWord (t.read key)] ::
      if ofBe key + 1 < 256 ^ 32 then t.range count (be 32 (ofBe key + 1)) else []

theorem rangeEntries_eq (t : Tree) : ∀ (count : Nat) (key : Bytes), key.length = 32 →
    (t.rangeEntries count key).map rangeTerm = t.range count key
  | 0, _, _ => rfl
  | 1, key, _ => by
    unfold rangeEntries range
    rw [if_neg (by decide)]
    split <;> rfl
  | left + 2, key, h => by
    rw [rangeEntries, range, if_pos (by omega), uint256_increment_eq h, List.map_cons]
    by_cases hlt : ofBe key + 1 < 256 ^ 32
    · simp only [if_pos hlt, if_true, rangeEntries_eq t (left + 1) _ (be_length ..)]
      rfl
    · simp only [if_neg hlt, Bool.false_eq_true, if_false]
      rfl

theorem foldl_cons_reverse (l : List Term) : l.reverse.foldl (fun list t => .cons t list) .nil =
    Term.ofList l := by
  rw [List.foldl_reverse]
  induction l with
  | nil => rfl
  | cons t l ih => rw [List.foldr_cons, ih, Term.ofList]

/-- **The list** that the native loop builds. -/
theorem range_list_eq (t : Tree) {key : Bytes} {count : Nat} (h : key.length = 32) :
    t.range_list key count = Term.ofList (t.range count key) := by
  have hentries : (t.get_range_entries key count).map rangeTerm = t.range count key := by
    unfold get_range_entries
    cases count with
    | zero => rfl
    | succ n =>
      rw [if_neg (not_or.2 ⟨by omega, fun h' => h' h⟩)]
      exact t.rangeEntries_eq _ key h
  unfold range_list
  rw [← hentries, ← foldl_cons_reverse, ← List.map_reverse, List.foldl_map]

/-- The reply to a storage spec: `:list`, `:size`, `{:get, key}` or
`{:range, key, count}`.
mirrors c_src/nif.cpp:1855-1987 -/
def reply (t : Tree) : Term → Answer
  | .atom .list => .term (.ofList (t.pairs.map fun p => .tuple [.bin p.1, .ofWord p.2]).reverse)
  | .atom .size => .term (.int t.size)
  | .tuple [.atom .get, .bin key] =>
    if key.length = 32 then .term (if t.read key = 0 then .atom .nil else .ofWord (t.read key)) else .badarg
  | .tuple [.atom .range, .bin key, .int count] =>
    if key.length = 32 ∧ 1 ≤ count ∧ count ≤ 256 then .term
      (t.range_list key count.toNat) else .badarg
  | _ => .badarg

end Tree

/-- The reply to a storage spec where there is no account.
mirrors c_src/nif.cpp:1858-1862, 1877-1880, 1907-1910, 1932-1935 -/
def absentReply : Term → Answer
  | .atom .list => .term .nil
  | .atom .size => .term (.int 0)
  | .tuple [.atom .get, .bin key] => if key.length = 32 then .term (.atom .nil) else .badarg
  | .tuple [.atom .range, .bin key, .int count] =>
    if key.length = 32 ∧ 1 ≤ count ∧ count ≤ 256 then .term .nil else .badarg
  | _ => .badarg

/-- mirrors c_src/nif.cpp:821-834 -/
def rootsBlob (hashes : List Word) : Term := .bin (hashes.flatMap Word.bytes)

namespace Heap
variable (sha : Bytes → Word)

/-- mirrors c_src/nif.cpp:884-895 -/
def accountEntryToTerm (h : Heap) (e : AccountEntry) : Heap × Term :=
  let (h, root) := h.storageRootHashForEntry sha e
  (h, .tuple [.int e.nonce.toNat, .ofBalance e.balance, .ofWord root, .ofCode e.code])

/-- One entry of the list `account_map_to_list` builds. -/
def listEntry (acc : Heap × Term) (p : Addr × AccountEntry) : Heap × Term :=
  let (h, t) := acc.1.accountEntryToTerm sha p.2
  (h, .cons (.tuple [.ofAddr p.1, t]) acc.2)

/-- mirrors c_src/nif.cpp:1989-2037. A compact storage is read through a
temporary tree, which leaves its root in the cache. -/
def accountMapStorageRoots (h : Heap) (m : Nat) (a : Addr) : Heap × Answer :=
  match h.entry m a with
  | none => (h, .term (rootsBlob (Tree.empty.rootHashes sha)))
  | some e =>
    match e.storage, e.compact_storage with
    | some mt, _ => (h, .term (rootsBlob ((h.res.tree mt).rootHashes sha)))
    | none, some _ =>
      ((h.storageRootHashForEntry sha e).1, .term
        (rootsBlob ((Tree.ofSlots (h.slots e)).rootHashes sha)))
    | none, none =>
      let h := h.materializeAt m a
      (h, .term (rootsBlob (((h.entry m a).elim Tree.empty h.storageOf).rootHashes sha)))

/-- mirrors c_src/nif.cpp:1035-1065, 1166-1209, 1941-2060 -/
def ask (h : Heap) (m : Nat) (q : Query) : Heap × Answer :=
  match h.maps m with
  | none => (h, .badarg)
  | some s =>
    match q with
    | .get addr =>
      match addr.getAddress with
      | none => (h, .badarg)
      | some a =>
        match s.accounts.get a with
        | none => (h, .term (.atom .undefined))
        | some e =>
          let (h, t) := h.accountEntryToTerm sha e
          (h, .term t)
    | .size => (h, .term (.int s.accounts.entries.length))
    | .toList =>
      let (h, l) := s.accounts.entries.foldl (listEntry sha) (h, .nil)
      (h, .term l)
    | .rootHash => (h, .term (.ofWord ((h.res.tree s.state_trie).rootHash sha)))
    | .stateRoots => (h, .term (rootsBlob ((h.res.tree s.state_trie).rootHashes sha)))
    | .storage addr spec =>
      match addr.getAddress with
      | none => (h, .badarg)
      | some a =>
        match s.accounts.get a with
        | none => (h, absentReply spec)
        | some _ =>
          let h := h.materializeAt m a
          (h, ((h.entry m a).elim Tree.empty h.storageOf).reply spec)
    | .storageRoots addr =>
      match addr.getAddress with
      | none => (h, .badarg)
      | some a => h.accountMapStorageRoots sha m a
    | .proof addr =>
      match addr.getAddress with
      | none => (h, .badarg)
      | some a => (h, .proof ((h.res.tree s.state_trie).getProofs sha (Addr.bytes a)))
    | .storageProof addr key =>
      match addr.getAddress, key.bin? with
      | some a, some key =>
        let h := h.materializeAt m a
        (h, .proof (((h.entry m a).elim Tree.empty h.storageOf).getProofs sha key))
      | _, _ => (h, .badarg)

end Heap

/-! ## The answer of a view -/

section
variable (sha : Bytes → Word)

def Account.term (acc : Account) : Term :=
  .tuple [.int acc.nonce.toNat, .ofBalance acc.balance, .ofWord (acc.storage.rootHash sha),
    .ofCode acc.code]

def View.answer (v : View) : Query → Answer
  | .get addr => addr.getAddress.elim .badarg fun a =>
      .term ((v.accounts.get a).elim (.atom .undefined) (Account.term sha))
  | .size => .term (.int v.accounts.entries.length)
  | .toList => .term (v.accounts.entries.foldl
      (fun l p => .cons (.tuple [.ofAddr p.1, p.2.term sha]) l) .nil)
  | .rootHash => .term (.ofWord (v.trie.rootHash sha))
  | .stateRoots => .term (rootsBlob (v.trie.rootHashes sha))
  | .storage addr spec => addr.getAddress.elim .badarg fun a =>
      (v.accounts.get a).elim (absentReply spec) fun acc => acc.storage.reply spec
  | .storageRoots addr => addr.getAddress.elim .badarg fun a =>
      .term (rootsBlob ((v.storage a).rootHashes sha))
  | .proof addr => addr.getAddress.elim .badarg fun a => .proof (v.trie.getProofs sha (Addr.bytes a))
  | .storageProof addr key =>
      match addr.getAddress, key.bin? with
      | some a, some key => .proof ((v.storage a).getProofs sha key)
      | _, _ => .badarg

end

namespace Heap
variable {sha : Bytes → Word} {h : Heap} {m : Nat} {a : Addr} {e : AccountEntry} {v : View}
    {s : SharedAccountMap}

theorem accountEntryToTerm_moves (hk : Ok sha h) (hv : h.view m = some v) {m' : Nat}
    (he : h.entry m' a = some e) :
    (h.accountEntryToTerm sha e).2 = (h.account e).term sha ∧
      (h.accountEntryToTerm sha e).1.maps = h.maps ∧
      Moves sha m [] h (h.accountEntryToTerm sha e).1 v := by
  obtain ⟨hroot, hmaps, hm⟩ := storageRootHashForEntry_moves hk hv he
  refine ⟨?_, hmaps, hm⟩
  unfold accountEntryToTerm Account.term
  dsimp only
  rw [hroot]
  rfl

/-- A call that leaves the tables alone keeps what every entry says. -/
theorem account_kept {h' : Heap} (hm : Moves sha m [] h h' v) (hv : h.view m = some v)
    (hmaps : h'.maps = h.maps) (he : h.entry m a = some e) : h'.account e = h.account e := by
  have h1 := view_get hv a
  have h2 := view_get hm.view a
  have he' : h'.entry m a = some e := by
    unfold entry
    rw [hmaps]
    exact he
  rw [he, Option.map_some] at h1
  rw [he', Option.map_some, h1] at h2
  exact (Option.some.inj h2).symm

theorem toList_moves (hv : h.view m = some v) : ∀ (l : List (Addr × AccountEntry))
    (h' : Heap) (t : Term),
    Ok sha h → (∀ p ∈ l, h.entry m p.1 = some p.2) → h'.maps = h.maps → Moves sha m [] h h' v →
    (l.foldl (listEntry sha) (h', t)).2 =
        l.foldl (fun t p => .cons (.tuple [.ofAddr p.1, (h.account p.2).term sha]) t) t ∧
      Moves sha m [] h (l.foldl (listEntry sha) (h', t)).1 v
  | [], h', t, _, _, _, hm => ⟨rfl, hm⟩
  | p :: l, h', t, hk, hl, hmaps, hm => by
    have he : h.entry m p.1 = some p.2 := hl p List.mem_cons_self
    have he' : h'.entry m p.1 = some p.2 := by
      unfold entry
      rw [hmaps]
      exact he
    obtain ⟨h1, h2, h3⟩ := accountEntryToTerm_moves hm.ok hm.view he'
    rw [account_kept hm hv hmaps he] at h1
    rw [List.foldl_cons, List.foldl_cons, ← h1]
    exact toList_moves hv l _ _ hk (fun q hq => hl q (List.mem_cons_of_mem _ hq)) (h2.trans hmaps)
      (hm.trans hk h3)

theorem storage_eq (hv : h.view m = some v) : (h.entry m a).elim Tree.empty h.storageOf =
    v.storage a := by
  unfold View.storage
  rw [view_get hv]
  cases h.entry m a <;> rfl

theorem accountMapStorageRoots_moves (hk : Ok sha h) (hv : h.view m = some v) (a : Addr) :
    (h.accountMapStorageRoots sha m a).2 = .term (rootsBlob ((v.storage a).rootHashes sha)) ∧
      Moves sha m [] h (h.accountMapStorageRoots sha m a).1 v := by
  have hst := storage_eq (a := a) hv
  unfold accountMapStorageRoots
  cases he : h.entry m a with
  | none =>
    rw [he] at hst
    rw [← hst]
    exact ⟨rfl, Moves.refl hk hv⟩
  | some e =>
    rw [he, Option.elim_some] at hst
    dsimp only
    cases h1 : e.storage with
    | some mt =>
      have : h.storageOf e = h.res.tree mt := by
        unfold storageOf
        rw [h1]
      rw [← hst, this]
      exact ⟨rfl, Moves.refl hk hv⟩
    | none =>
      cases h2 : e.compact_storage with
      | some c =>
        have : h.storageOf e = Tree.ofSlots (h.slots e) := by
          unfold storageOf
          rw [h1]
        rw [← hst, this]
        exact ⟨rfl, (storageRootHashForEntry_moves hk hv he).2.2⟩
      | none =>
        have hm := materializeAt_moves' (a := a) hk hv
        dsimp only
        rw [storage_eq hm.view]
        exact ⟨rfl, hm⟩

/-- **Reading shows only the view, and changes none.** -/
theorem ask_moves (hk : Ok sha h) (hv : h.view m = some v) (q : Query) :
    (h.ask sha m q).2 = v.answer sha q ∧ Moves sha m [] h (h.ask sha m q).1 v := by
  obtain ⟨s, hs, -, ht, ha⟩ := view_some hv
  have hget : ∀ b, v.accounts.get b = (s.accounts.get b).map h.account := fun b => by
    rw [ha, SMap.get_map]
  unfold ask View.answer
  rw [hs]
  dsimp only
  cases q with
  | get addr =>
    dsimp only
    cases addr.getAddress with
    | none => exact ⟨rfl, Moves.refl hk hv⟩
    | some a =>
      dsimp only
      rw [Option.elim_some, hget]
      cases he : s.accounts.get a with
      | none => exact ⟨rfl, Moves.refl hk hv⟩
      | some e =>
        obtain ⟨h1, -, h3⟩ := accountEntryToTerm_moves hk hv ((entry_of_map hs a).trans he)
        dsimp only
        rw [h1]
        exact ⟨rfl, h3⟩
  | size =>
    refine ⟨?_, Moves.refl hk hv⟩
    dsimp only
    rw [ha]
    show Answer.term (.int s.accounts.entries.length) = .term (.int (s.accounts.entries.map _).length)
    rw [List.length_map]
  | toList =>
    obtain ⟨h1, h2⟩ := toList_moves hv s.accounts.entries h .nil hk
      (fun p hp => (entry_of_map hs p.1).trans ((s.accounts.mem_iff p.1 p.2).1 hp)) rfl
        (Moves.refl hk hv)
    refine ⟨?_, h2⟩
    dsimp only
    rw [h1, ha]
    show _ = Answer.term ((s.accounts.entries.map _).foldl _ _)
    rw [List.foldl_map]
  | rootHash => exact ⟨by dsimp only; rw [ht], Moves.refl hk hv⟩
  | stateRoots => exact ⟨by dsimp only; rw [ht], Moves.refl hk hv⟩
  | storage addr spec =>
    dsimp only
    cases addr.getAddress with
    | none => exact ⟨rfl, Moves.refl hk hv⟩
    | some a =>
      dsimp only
      have hm := materializeAt_moves' (a := a) hk hv
      have hst : v.storage a = (v.accounts.get a).elim Tree.empty Account.storage := rfl
      rw [Option.elim_some]
      cases he : s.accounts.get a with
      | none =>
        rw [hget, he]
        exact ⟨rfl, Moves.refl hk hv⟩
      | some e =>
        dsimp only
        rw [storage_eq hm.view, hst, hget, he]
        exact ⟨rfl, hm⟩
  | storageRoots addr =>
    dsimp only
    cases addr.getAddress with
    | none => exact ⟨rfl, Moves.refl hk hv⟩
    | some a => exact accountMapStorageRoots_moves hk hv a
  | proof addr =>
    dsimp only
    cases addr.getAddress with
    | none => exact ⟨rfl, Moves.refl hk hv⟩
    | some a => exact ⟨by dsimp only; rw [Option.elim_some, ht], Moves.refl hk hv⟩
  | storageProof addr key =>
    dsimp only
    cases addr.getAddress with
    | none => exact ⟨rfl, Moves.refl hk hv⟩
    | some a =>
      cases key.bin? with
      | none => exact ⟨rfl, Moves.refl hk hv⟩
      | some k =>
        have hm := materializeAt_moves' (a := a) hk hv
        dsimp only
        rw [storage_eq hm.view]
        exact ⟨rfl, hm⟩

end Heap
end Diode.L3
