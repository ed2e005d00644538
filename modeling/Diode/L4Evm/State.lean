import Diode.Core.Pairs
import Diode.L3State.Replay

/-!
# The chain state under a running contract

What the calls of `Chain.State` that a transaction and its frames make do to the
accounts. A `State` is the account table of a writable map whose storages have
32-byte keys; the state trie over it is left to `L3State`. `storage_put_map` is
connected to the native call it ends in by `run_storage_put_map`, and the reads
to the replies of that layer by `reply_range` and `reply_list`.
-/
namespace Diode.L4
open Diode.Core Pairs Diode.L1.Ext Diode.L3

/-- A slot of some account's storage. -/
abbrev Slot := Addr × Word

/-- Writes to slots in the order they are sent. -/
abbrev Updates := List (Slot × Word)

structure State where
  accounts : SMap Addr Account
  words : ∀ a acc, accounts.get a = some acc → ∀ p ∈ acc.storage.pairs, p.1.length = 32

namespace State

instance : DecidableEq State := fun s t =>
  decidable_of_iff (s.accounts = t.accounts) ⟨fun h =>
    by cases s; cases t; simpa using h, fun h => by rw [h]⟩

def empty : State := ⟨SMap.empty, fun _ _ h => by cases h⟩

def storage (s : State) (a : Addr) : Tree := (s.accounts.get a).elim Tree.empty Account.storage

/-- The value of a slot, zero where there is none. -/
def read (s : State) (slot : Slot) : Word := (s.storage slot.1).read (Word.bytes slot.2)

theorem storage_words (s : State) (a : Addr) : ∀ p ∈ (s.storage a).pairs, p.1.length = 32 := by
  unfold storage
  cases h : s.accounts.get a with
  | none => exact fun p hp => by cases hp
  | some acc => exact s.words a acc h

end State

/-! ## Writing -/

/-- Slots of one account written one after the other. -/
def Tree.putAll (t : Tree) (kvs : List (Word × Word)) : Tree :=
  kvs.foldl (fun t kv => t.insertItem (Word.bytes kv.1) kv.2) t

theorem Tree.length_insertItem {t : Tree} {k : Bytes} {v : Word}
    (h : ∀ p ∈ t.pairs, p.1.length = 32) (hk : k.length = 32) :
    ∀ p ∈ (t.insertItem k v).pairs, p.1.length = 32 := by
  intro p hp
  obtain ⟨hr, h0⟩ := Tree.mem_pairs.1 hp
  rw [Tree.read_insertItem] at hr
  split at hr
  · rename_i e
    rw [← e, hk]
  · exact h p (Tree.mem_pairs.2 ⟨hr, h0⟩)

theorem Tree.length_putAll : ∀ (kvs : List (Word × Word)) {t : Tree}, (∀ p ∈ t.pairs, p.1.length = 32) →
    ∀ p ∈ (Tree.putAll t kvs).pairs, p.1.length = 32
  | [], _, h => h
  | kv :: kvs, _, h => Tree.length_putAll kvs (Tree.length_insertItem h (Word.bytes_length kv.1))

theorem Tree.read_putAll (k : Word) : ∀ (kvs : List (Word × Word)) (t : Tree),
    (kvs.map Prod.fst).Nodup →
    (Tree.putAll t kvs).read (Word.bytes k) = (kvs.lookup k).getD (t.read (Word.bytes k))
  | [], _, _ => rfl
  | kv :: kvs, t, h => by
    rw [List.map_cons, List.nodup_cons] at h
    show (Tree.putAll (t.insertItem (Word.bytes kv.1) kv.2) kvs).read _ = _
    rw [Tree.read_putAll k kvs _ h.2, Tree.read_insertItem]
    rw [lookup_cons]
    by_cases e : kv.1 = k
    · subst e
      rw [if_pos rfl, if_pos rfl, lookup_eq_none.2 h.1]
      rfl
    · rw [if_neg fun he => e (Word.bytes_inj he), if_neg e]

namespace State

/-- One address of `storage_put_map`. -/
def putItem (s : State) (a : Addr) (kvs : List (Word × Word)) : State where
  accounts :=
    let acc := (s.accounts.get a).getD Account.default
    s.accounts.put a { acc with storage := Tree.putAll acc.storage kvs }
  words b acc h := by
    rw [SMap.get_put] at h
    split at h
    · cases h
      refine Tree.length_putAll kvs ?_
      cases hg : s.accounts.get a with
      | none => exact fun p hp => by cases hp
      | some acc => exact s.words a acc hg
    · exact s.words b acc h

/-- mirrors lib/chain/state.ex:50-52, lib/caccount_map.ex:78-89 -/
def storage_put_map (s : State) (updates : List (Addr × List (Word × Word))) : State :=
  updates.foldl (fun s u => s.putItem u.1 u.2) s

/-- mirrors lib/evm.ex:751-761 -/
def parse_map (l : Updates) : SMap Addr (SMap Word Word) :=
  l.foldl (fun m u => m.put u.1.1 (((m.get u.1.1).getD SMap.empty).put u.1.2 u.2)) SMap.empty

/-- mirrors lib/evm.ex:746-749. The order in which a map lists its keys does not
matter to the result. -/
def process_updates (s : State) (l : Updates) : State :=
  s.storage_put_map ((parse_map l).entries.map fun p => (p.1, p.2.entries))

theorem storage_putItem (s : State) (a b : Addr) (kvs : List (Word × Word)) :
    (s.putItem a kvs).storage b = if a = b then Tree.putAll (s.storage a) kvs else s.storage b := by
  unfold putItem storage
  dsimp only
  rw [SMap.get_put]
  by_cases h : a = b
  · subst h
    rw [if_pos rfl, if_pos rfl]
    cases s.accounts.get a <;> rfl
  · rw [if_neg h, if_neg h]

theorem read_storage_put_map (slot : Slot) : ∀ (l : List (Addr × List (Word × Word))) (s : State),
    (l.map Prod.fst).Nodup → (∀ u ∈ l, (u.2.map Prod.fst).Nodup) →
    (s.storage_put_map l).read slot = (((l.lookup slot.1).bind fun kvs => kvs.lookup slot.2).getD
      (s.read slot))
  | [], _, _, _ => rfl
  | u :: l, s, hn, hk => by
    rw [List.map_cons, List.nodup_cons] at hn
    show ((s.putItem u.1 u.2).storage_put_map l).read slot = _
    rw [read_storage_put_map slot l _ hn.2 fun u hu => hk u (List.mem_cons_of_mem _ hu)]
    obtain ⟨a, kvs⟩ := u
    obtain ⟨b, k⟩ := slot
    have hread : (s.putItem a kvs).read (b, k) = if a = b then (kvs.lookup k).getD
      (s.read (b, k)) else s.read (b, k) := by
      unfold read
      rw [storage_putItem]
      split
      · rename_i e
        rw [Tree.read_putAll k kvs _ (hk _ (List.mem_cons_self ..)), e]
      · rfl
    rw [hread, lookup_cons]
    by_cases e : a = b
    · subst e
      rw [if_pos rfl, if_pos rfl, lookup_eq_none.2 hn.1]
      rfl
    · rw [if_neg e, if_neg e]

end State

/-! ## Reading -/

/-- The values of `count` keys from `key` on; the last key is not followed by
another. -/
def Tree.rangeWords (t : Tree) : Nat → Word → List (Word × Word)
  | 0, _ => []
  | count + 1, key =>
    (key, t.read (Word.bytes key)) ::
      if key.toNat + 1 < 2 ^ 256 then Tree.rangeWords t count (key + 1) else []

theorem Tree.length_rangeWords (t : Tree) (count : Nat) (key : Word) :
    (Tree.rangeWords t count key).length ≤ count := by
  induction count generalizing key with
  | zero => exact Nat.zero_le _
  | succ count ih =>
    rw [Tree.rangeWords, List.length_cons]
    split
    · have := ih (key + 1)
      omega
    · exact Nat.succ_le_succ (Nat.zero_le _)

namespace State

/-- mirrors lib/chain/state.ex:57-58 -/
def storage_size (s : State) (a : Addr) : Nat := (s.storage a).size

/-- mirrors lib/chain/state.ex:54-55 -/
def storage_to_list (s : State) (a : Addr) : List (Word × Word) :=
  (s.storage a).pairs.reverse.map fun p => (BitVec.ofNat 256 (ofBe p.1), p.2)

/-- mirrors lib/chain/state.ex:60-61 -/
def storage_get_range (s : State) (a : Addr) (key : Word) (count : Nat) : List (Word × Word) :=
  match s.accounts.get a with
  | none => []
  | some acc => Tree.rangeWords acc.storage count key

theorem mem_rangeWords {t : Tree} {d : Word × Word} : ∀ {count : Nat} {key : Word},
    d ∈ Tree.rangeWords t count key → d.2 = t.read (Word.bytes d.1)
  | 0, _, h => by cases h
  | count + 1, key, h => by
    rw [Tree.rangeWords, List.mem_cons] at h
    rcases h with rfl | h
    · rfl
    · split at h
      · exact mem_rangeWords h
      · cases h

theorem mem_storage_get_range {s : State} {a : Addr} {key : Word} {count : Nat} {d : Word × Word}
    (h : d ∈ s.storage_get_range a key count) : d.2 = s.read (a, d.1) := by
  unfold storage_get_range at h
  unfold read storage
  cases hg : s.accounts.get a with
  | none =>
    rw [hg] at h
    cases h
  | some acc =>
    rw [hg] at h
    exact mem_rangeWords h

/-- What a range starts with is the slot asked for. -/
theorem head_storage_get_range (s : State) (a : Addr) (key : Word) (count : Nat) :
    (s.storage_get_range a key (count + 1) = [] ∧ s.read (a, key) = 0) ∨
      ∃ l, s.storage_get_range a key (count + 1) = (key, s.read (a, key)) :: l := by
  unfold storage_get_range read storage
  cases s.accounts.get a with
  | none => exact .inl ⟨rfl, rfl⟩
  | some acc => exact .inr ⟨_, rfl⟩

theorem bytes_ofNat {b : Bytes} (h : b.length = 32) : Word.bytes (BitVec.ofNat 256 (ofBe b)) = b := by
  have hm : (2 : Nat) ^ 256 = 256 ^ 32 := by decide
  rw [Word.bytes, BitVec.toNat_ofNat, hm, be_mod, ← h, be_ofBe]

theorem mem_storage_to_list {s : State} {a : Addr} {d : Word × Word} :
    d ∈ s.storage_to_list a ↔ s.read (a, d.1) = d.2 ∧ d.2 ≠ 0 := by
  unfold storage_to_list
  rw [List.mem_map]
  refine ⟨?_, ?_⟩
  · intro h
    obtain ⟨p, hp, rfl⟩ := h
    rw [List.mem_reverse] at hp
    have hl := s.storage_words a p hp
    obtain ⟨hr, h0⟩ := Tree.mem_pairs.1 hp
    refine ⟨?_, h0⟩
    unfold read
    rw [bytes_ofNat hl]
    exact hr
  · intro h
    obtain ⟨hr, h0⟩ := h
    refine ⟨(Word.bytes d.1, d.2), List.mem_reverse.2 (Tree.mem_pairs.2 ⟨hr, h0⟩), ?_⟩
    rw [Word.bytes, ofBe_be (by have := d.1.isLt; omega), BitVec.ofNat_toNat, BitVec.setWidth_eq]

end State

/-! ## The native calls -/

def pairTerm (d : Word × Word) : Term := .tuple [.ofWord d.1, .ofWord d.2]

/-- The argument of `account_map_storage_put_map`. -/
def updatesTerm (l : List (Addr × List (Word × Word))) : Term :=
  .ofList (l.map fun u => .tuple [.ofAddr u.1, .ofList (u.2.map pairTerm)])

theorem range_eq (t : Tree) (count : Nat) (key : Word) :
    t.range count (Word.bytes key) = (Tree.rangeWords t count key).map pairTerm := by
  induction count generalizing key with
  | zero => rfl
  | succ count ih =>
    have hlt := key.isLt
    have hof : ofBe (Word.bytes key) = key.toNat := ofBe_be (by omega)
    rw [Tree.range, Tree.rangeWords, List.map_cons, hof, show (256 : Nat) ^ 32 = 2 ^ 256 from by decide]
    refine congrArg (List.cons _) ?_
    by_cases h : key.toNat + 1 < 2 ^ 256
    · have hnext : be 32 (key.toNat + 1) = Word.bytes (key + 1) := by
        have h1 : (1 : Word).toNat = 1 := rfl
        rw [Word.bytes, BitVec.toNat_add, h1, Nat.mod_eq_of_lt h]
      rw [if_pos h, if_pos h, hnext]
      exact ih (key + 1)
    · rw [if_neg h, if_neg h]
      rfl

/-- **`storage_get_range`** is the reply to a range request. -/
theorem reply_range (t : Tree) (key : Word) {count : Nat} (h1 : 1 ≤ count) (h2 : count ≤ 256) :
    t.reply (.tuple [.atom .range, .bin (Word.bytes key), .int count]) =
      .term (.ofList ((Tree.rangeWords t count key).map pairTerm)) := by
  have hr : t.reply (.tuple [.atom .range, .bin (Word.bytes key), .int count]) =
      if (Word.bytes key).length = 32 ∧ (1 : Int) ≤ count ∧ (count : Int) ≤ 256 then
        .term (t.range_list (Word.bytes key) (count : Int).toNat) else .badarg := rfl
  rw [hr, if_pos ⟨Word.bytes_length key, by omega, by omega⟩, Tree.range_list_eq t (Word.bytes_length key), ← range_eq]
  rfl

section
variable {sha : Bytes → Word} {v : View} {a : Addr}

theorem slot32?_pairTerm (d : Word × Word) : (pairTerm d).slot32? = some (Word.bytes d.1, d.2) := by
  unfold pairTerm Term.slot32? Term.pair? Term.ofWord
  have hw := Term.word?_ofWord d.2
  unfold Term.ofWord at hw
  simp only [Option.bind_eq_bind, Option.bind_some, Term.bin?, Word.bytes_length, hw, if_true]

theorem run_putSlots : ∀ (kvs : List (Word × Word)) (acc : Account),
    (v.withAccount a acc).run sha ((kvs.map pairTerm).flatMap (putSlotEdits a)) =
      (v.withAccount a { acc with storage := Tree.putAll acc.storage kvs }, none)
  | [], _ => rfl
  | d :: kvs, acc => by
    rw [List.map_cons, List.flatMap_cons, View.run_append]
    have hs : (v.withAccount a acc).run sha (putSlotEdits a (pairTerm d)) =
        (v.withAccount a { acc with storage := acc.storage.insertItem (Word.bytes d.1) d.2 }, none) := by
      unfold putSlotEdits
      rw [slot32?_pairTerm]
      dsimp only
      rw [View.run, View.edit, Option.all_none, if_pos rfl, View.update_withAccount]
      rfl
    rw [hs]
    exact run_putSlots kvs _

theorem run_putItem {s : State} (h : v.accounts = s.accounts) (kvs : List (Word × Word)) :
    ∃ w, v.run sha (putItemEdits (.tuple [.ofAddr a, .ofList (kvs.map pairTerm)])) = (w, none) ∧
      w.accounts = (s.putItem a kvs).accounts := by
  have hlist : (Term.ofList (kvs.map pairTerm)).isList = true := by cases kvs <;> rfl
  have hrun : v.run sha ([.ensure a] ++ (kvs.map pairTerm).flatMap (putSlotEdits a) ++ [.seal a]) =
      ((v.withAccount a { (v.accounts.get a).getD Account.default with
        storage := Tree.putAll ((v.accounts.get a).getD Account.default).storage kvs }).run sha
          [.seal a]) := by
    rw [View.run_append, View.run_append, run_ensure rfl]
    dsimp only
    rw [run_putSlots]
  unfold putItemEdits
  simp only [Term.pair?, Term.getAddress_ofAddr, hlist, if_true, Term.cells_ofList]
  rw [hrun, View.run, View.edit, View.get_withAccount]
  refine ⟨_, rfl, ?_⟩
  unfold View.withAccount State.putItem
  dsimp only
  rw [h]

/-- **`storage_put_map`** on a writable map never fails and does to its accounts
what it does to the state. -/
theorem run_storage_put_map : ∀ (l : List (Addr × List (Word × Word))) {v : View} {s : State},
    v.accounts = s.accounts →
    ∃ w, v.run sha (putMapEdits (updatesTerm l)) = (w, none) ∧
      w.accounts = (s.storage_put_map l).accounts := by
  have hedits : ∀ l, putMapEdits (updatesTerm l) =
      l.flatMap fun u => putItemEdits (.tuple [.ofAddr u.1, .ofList (u.2.map pairTerm)]) := by
    intro l
    unfold putMapEdits updatesTerm
    have hlist : ∀ ts, (Term.ofList ts).isList = true := fun ts => by cases ts <;> rfl
    rw [hlist, if_pos rfl, Term.cells_ofList, List.flatMap_map]
  intro l
  induction l with
  | nil => exact fun h => ⟨_, rfl, h⟩
  | cons u l ih =>
    intro v s h
    obtain ⟨w, hw, ha⟩ := @run_putItem sha v u.1 s h u.2
    obtain ⟨w', hw', ha'⟩ := ih ha
    refine ⟨w', ?_, ha'⟩
    rw [hedits] at hw' ⊢
    rw [List.flatMap_cons, View.run_append, hw]
    exact hw'

end
end Diode.L4
