import Diode.L3State.Query

/-!
# Storage range queries

A range reply is built by the byte loops of `Query`. Here they are followed up to
`CAccountMap`, which also replaces null words, and compared with single lookups.

* `storage_get_of_view`: a lookup is a function of the view.
* `storage_range_gets`: on a count from 1 to 256 a range query returns what
  single lookups return, from the start key to the last key there is.
-/
namespace Diode.L3
open Diode.Core Diode.L1.Ext

/-! ## `CAccountMap` -/

/-- The term of a reply; `badarg` is a raise. -/
def Answer.term? : Answer → Option Term
  | .term t => some t
  | _ => none

/-- A null word reads as `nil`. -/
def Term.nonNull : Term → Term
  | .bin v => if v = Word.bytes 0 then .atom .nil else .bin v
  | t => t

/-- `Hash.to_bytes32`.
mirrors lib/hash.ex:10-23 -/
def Term.to_bytes32 : Term → Option Bytes
  | .atom .nil => some (be 32 0)
  | .int n => some (be 32 (n % 2 ^ 256).toNat)
  | .bin b => if b.length ≤ 32 then some (List.replicate (32 - b.length) 0 ++ b) else none
  | _ => none

namespace Heap
variable (sha : Bytes → Word)

/-- mirrors lib/caccount_map.ex:91-97 -/
def storage_get (h : Heap) (m : Nat) (addr : Addr) (key : Term) : Heap × Option Term :=
  match key.to_bytes32 with
  | none => (h, none)
  | some key =>
    let (h, reply) := h.ask sha m (.storage (.ofAddr addr) (.tuple [.atom .get, .bin key]))
    (h, reply.term?.map Term.nonNull)

/-- mirrors lib/caccount_map.ex:99-103 -/
def storage_get_range (h : Heap) (m : Nat) (addr : Addr) (key : Term) (count : Int) :
    Heap × Option (List (Term × Term)) :=
  if 1 ≤ count ∧ count ≤ 256 then
    match key.to_bytes32 with
    | none => (h, none)
    | some key =>
      let (h, reply) := h.ask sha m
        (.storage (.ofAddr addr) (.tuple [.atom .range, .bin key, .int count]))
      (h, reply.term?.bind fun l => l.cells.mapM fun t => t.pair?.map fun p => (p.1, p.2.nonNull))
  else (h, none)

end Heap

/-- The keys `key`, `key + 1`, ..., at most `count` of them and none above the
last key. -/
def keysFrom (key : Word) (count : Nat) : List Word :=
  (List.range (min count (2 ^ 256 - key.toNat))).map fun i => key + BitVec.ofNat 256 i

theorem keysFrom_succ (key : Word) (count : Nat) : keysFrom key (count + 1) =
    key :: if key.toNat + 1 < 2 ^ 256 then keysFrom (key + 1) count else [] := by
  have hlt := key.isLt
  have hmin : min (count + 1) (2 ^ 256 - key.toNat) = min count (2 ^ 256 - (key.toNat + 1)) + 1 := by
    omega
  unfold keysFrom
  rw [hmin, List.range_succ_eq_map, List.map_cons, List.map_map, BitVec.add_zero]
  congr 1
  split
  · rename_i h
    have hsucc : (key + 1).toNat = key.toNat + 1 := by
      rw [BitVec.toNat_add]
      exact Nat.mod_eq_of_lt h
    rw [hsucc]
    apply List.map_congr_left
    intro i _
    show key + BitVec.ofNat 256 (i + 1) = key + 1 + BitVec.ofNat 256 i
    rw [BitVec.ofNat_add, BitVec.add_comm (BitVec.ofNat 256 i), BitVec.add_assoc]
    rfl
  · rw [show 2 ^ 256 - (key.toNat + 1) = 0 by omega, Nat.min_zero]
    rfl

namespace Tree

/-- What a single lookup returns. -/
def value (t : Tree) (key : Word) : Term := (Term.ofWord (t.read (Word.bytes key))).nonNull

theorem range_eq (t : Tree) : ∀ (count : Nat) (key : Word), t.range count (Word.bytes key) =
    (keysFrom key count).map fun k => .tuple [.ofWord k, .ofWord (t.read (Word.bytes k))]
  | 0, key => by
    unfold keysFrom
    rw [Nat.zero_min]
    rfl
  | count + 1, key => by
    have hlt := key.isLt
    have hval : ofBe (Word.bytes key) = key.toNat := ofBe_be (by omega)
    rw [keysFrom_succ, range, hval]
    by_cases h : key.toNat + 1 < 2 ^ 256
    · have hnext : be 32 (key.toNat + 1) = Word.bytes (key + 1) := by
        rw [Word.bytes, BitVec.toNat_add]
        exact congrArg (be 32) (Nat.mod_eq_of_lt h).symm
      rw [if_pos (by omega), if_pos h, hnext, range_eq t count (key + 1)]
      rfl
    · rw [if_neg (by omega), if_neg h]
      rfl

theorem reply_get_bytes (t : Tree) {key : Bytes} (h : key.length = 32) :
    t.reply (.tuple [.atom .get, .bin key]) =
      .term (if t.read key = 0 then .atom .nil else .ofWord (t.read key)) := by
  unfold reply
  dsimp only
  rw [if_pos h]

theorem reply_range_bytes (t : Tree) {key : Bytes} (h : key.length = 32) {count : Int}
    (hc : 1 ≤ count ∧ count ≤ 256) : t.reply (.tuple [.atom .range, .bin key, .int count]) =
      .term (.ofList (t.range count.toNat key)) := by
  unfold reply
  dsimp only
  rw [if_pos ⟨h, hc⟩, range_list_eq t h]

theorem nonNull_ofWord (w : Word) :
    (Term.ofWord w).nonNull = if w = 0 then .atom .nil else .ofWord w := by
  unfold Term.ofWord Term.nonNull
  dsimp only
  by_cases h : w = 0
  · rw [if_pos (congrArg Word.bytes h), if_pos h]
  · rw [if_neg fun e => h (Word.bytes_inj e), if_neg h]

theorem reply_get (t : Tree) (key : Word) :
    (t.reply (.tuple [.atom .get, .bin (Word.bytes key)])).term?.map Term.nonNull =
      some (t.value key) := by
  rw [reply_get_bytes t (Word.bytes_length key), Answer.term?, Option.map_some, value,
    nonNull_ofWord]
  split
  · rfl
  · rename_i h
    rw [nonNull_ofWord, if_neg h]

theorem reply_range (t : Tree) (key : Word) {count : Int} (h : 1 ≤ count ∧ count ≤ 256) :
    ((t.reply (.tuple [.atom .range, .bin (Word.bytes key), .int count])).term?.bind fun l =>
      l.cells.mapM fun t => t.pair?.map fun p => (p.1, p.2.nonNull)) =
      some ((keysFrom key count.toNat).map fun k => (.ofWord k, t.value k)) := by
  rw [reply_range_bytes t (Word.bytes_length key) h, Answer.term?, Option.bind_some,
    Term.cells_ofList, range_eq]
  generalize keysFrom key count.toNat = keys
  induction keys with
  | nil => rfl
  | cons k keys ih =>
    rw [List.map_cons, List.mapM_cons, ih]
    rfl

end Tree

namespace Heap
variable {sha : Bytes → Word} {h g : Heap} {m n : Nat} {a : Addr} {v : View}

theorem to_bytes32_bin {b : Bytes} (hb : b.length = 32) : (Term.bin b).to_bytes32 = some b := by
  unfold Term.to_bytes32
  dsimp only
  rw [hb, if_pos (by decide), Nat.sub_self, List.replicate_zero, List.nil_append]

theorem to_bytes32_ofWord (key : Word) : (Term.ofWord key).to_bytes32 = some (Word.bytes key) :=
  to_bytes32_bin (Word.bytes_length key)

/-- Both queries read the storage that `materialize_storage` leaves, live
before or compact. -/
theorem ask_storage (he : h.entry m a ≠ none) : ∃ t : Tree, ∀ spec,
    (h.ask sha m (.storage (.ofAddr a) spec)).2 = t.reply spec := by
  unfold entry at he
  unfold ask
  cases hm : h.maps m with
  | none =>
    rw [hm] at he
    exact absurd rfl he
  | some s =>
    rw [hm, Option.bind_some] at he
    simp only [Term.getAddress_ofAddr]
    cases hs : s.accounts.get a with
    | none => exact absurd hs he
    | some e => exact ⟨_, fun spec => rfl⟩

theorem storage_get_range_moves (hk : Ok sha h) (hv : h.view m = some v) (key : Term) (count : Int) :
    Moves sha m [] h (h.storage_get_range sha m a key count).1 v := by
  unfold storage_get_range
  split
  · cases key.to_bytes32 with
    | none => exact Moves.refl hk hv
    | some k => exact (ask_moves hk hv _).2
  · exact Moves.refl hk hv

/-- A lookup is a function of the view, so a storage may have become live, or
may be compact in another fork. -/
theorem storage_get_of_view (hk : Ok sha h) (hv : h.view m = some v) (gk : Ok sha g)
    (gv : g.view n = some v) (a : Addr) (key : Term) :
    (h.storage_get sha m a key).2 = (g.storage_get sha n a key).2 := by
  unfold storage_get
  cases key.to_bytes32 with
  | none => rfl
  | some k =>
    dsimp only
    rw [(ask_moves hk hv _).1, (ask_moves gk gv _).1]

/-- **A range query is its lookups.** Over any account map and any account in
it, a range query returns what the lookups of the keys from `key` on return,
and stops at the last key; no more than 256 keys may be asked for. A lookup
that follows a range query returns the same. -/
theorem storage_range_gets (sha : Bytes → Word) {h : Heap} {m : Nat} {a : Addr}
    (he : h.entry m a ≠ none) : ∃ value : Word → Term,
    (∀ key, (h.storage_get sha m a (.ofWord key)).2 = some (value key)) ∧
    (∀ key count, (h.storage_get_range sha m a (.ofWord key) count).2 =
      if 1 ≤ count ∧ count ≤ 256 then
        some ((keysFrom key count.toNat).map fun k => (.ofWord k, value k))
      else none) ∧
    ∀ v, Ok sha h → h.view m = some v → ∀ start count key,
      ((h.storage_get_range sha m a start count).1.storage_get sha m a (.ofWord key)).2 =
        some (value key) := by
  obtain ⟨t, ht⟩ := @ask_storage sha h m a he
  have hget : ∀ key, (h.storage_get sha m a (.ofWord key)).2 = some (t.value key) := fun key => by
    unfold storage_get
    simp only [to_bytes32_ofWord, ht]
    exact t.reply_get key
  refine ⟨t.value, hget, fun key count => ?_, fun v hk hv start count key => ?_⟩
  · unfold storage_get_range
    split
    · rename_i hc
      simp only [to_bytes32_ofWord, ht]
      exact t.reply_range key hc
    · rfl
  · have hm := storage_get_range_moves (a := a) hk hv start count
    rw [storage_get_of_view hm.ok hm.view hk hv, hget]

/-- A map with one account, whose storage is a list with the last two slots. -/
def single : Heap :=
  { Heap.init.setMap 0 ⟨false, 0, SMap.empty.put 1 ⟨0, 0, none, some 0, []⟩⟩ with
    compacts := Function.update (fun _ => none) 0 (some ⟨[(Word.bytes (-2), 8), (Word.bytes (-1), 9)], none⟩) }

theorem single_entry : single.entry 0 1 ≠ none := by
  have hget := SMap.get_put_self (SMap.empty : SMap Addr AccountEntry) 1 ⟨0, 0, none, some 0, []⟩
  show SMap.get _ _ ≠ none
  rw [hget]
  exact Option.some_ne_none _

/-- The range ends at the last key. -/
theorem storage_range_last :
    (single.storage_get_range (fun _ => 0) 0 1 (.ofWord (-2)) 3).2 =
      some [(.ofWord (-2), .ofWord 8), (.ofWord (-1), .ofWord 9)] := by
  obtain ⟨value, hget, hrange, -⟩ := storage_range_gets (fun _ => 0) single_entry
  have h8 : value (-2) = .ofWord 8 := Option.some.inj ((hget (-2)).symm.trans rfl)
  have h9 : value (-1) = .ofWord 9 := Option.some.inj ((hget (-1)).symm.trans rfl)
  have hkeys : keysFrom (-2) 3 = [-2, -1] := by decide
  rw [hrange, if_pos (by decide)]
  show some ((keysFrom (-2) 3).map _) = _
  rw [hkeys, List.map_cons, List.map_cons, List.map_nil, h8, h9]

/-- More than 256 keys are refused. -/
theorem storage_range_257 : single.entry 0 1 ≠ none ∧
    (single.storage_get_range (fun _ => 0) 0 1 (.ofWord 0) 257).2 = none :=
  ⟨single_entry, rfl⟩

end Heap
end Diode.L3
