import Diode.L4Evm.HostRoom
import Diode.L4Evm.State

/-!
# Storage inside a call frame

The host of a running frame answers reads of storage from a cache, asks the
Elixir side for what it does not know, and sends its writes back when the frame
calls or ends. The reply to a read holds the slots after the one asked for as
well, and a successful nested call replaces the whole cache.

`History` is what the frame has done: the value last set for each slot, and the
slots set since the last flush. `frame_coherent` says that a run of events that
are `Safe` is answered as the history says; the events that are not safe are the
ways in which the cache goes wrong.
-/
namespace Diode.L4
open Diode.Core Pairs Diode.L3

/-! ## Hashes -/

/-- mirrors evm/evmc/evmc.hpp:66-75 -/
def fnv1a_by64 (h x : Nat) : Nat := ((h ^^^ x) * 0x100000001b3) % 2 ^ 64

/-- mirrors evm/evmc/evmc.hpp:658-670 -/
def addressHash (a : Addr) : Nat :=
  let b := Addr.bytes a
  fnv1a_by64 (fnv1a_by64 (fnv1a_by64 0xcbf29ce484222325 (ofBe (b.take 8)))
    (ofBe ((b.drop 8).take 8))) (ofBe (b.drop 16))

/-- The hash of thirteen little-endian 32-bit words.
mirrors evm/host.hpp:70-90 -/
def slotHash (slot : Slot) : Nat :=
  let b := Addr.bytes slot.1 ++ Word.bytes slot.2
  (List.range 13).foldl (fun hash i =>
    ((hash ^^^ ofBe ((b.drop (4 * i)).take 4).reverse) * 33) % 2 ^ 64) 5381

/-! ## The host -/

structure Host where
  complete_accounts : Map Addr Bool
  storage_cache : Map Slot Word
  storage_write_cache : Map Slot Word

namespace Host

/-- mirrors evm/host.cpp:6-11 -/
def reset : Host := ⟨Map.clear, Map.clear, Map.clear⟩

/-- mirrors evm/host.cpp:13-17 -/
def complete_account (h : Host) (a : Addr) : Option (Bool × Host) := do
  let (p, m) ← h.complete_accounts.get addressHash a
  some (p.getD false, { h with complete_accounts := m })

/-- mirrors evm/host.cpp:29-41 -/
def get_cache (h : Host) (slot : Slot) : Option (Option Word × Host) := do
  let (value, m) ← h.storage_cache.get slotHash slot
  let h := { h with storage_cache := m }
  match value with
  | some v => some (some v, h)
  | none => do
    let (c, h) ← h.complete_account slot.1
    some (if c then some 0 else none, h)

/-- mirrors evm/host.cpp:108-123 -/
def send_updates (h : Host) : Updates := h.storage_write_cache.data

/-- The pairs of one account, as the cache keeps them. -/
def keyed (a : Addr) (l : List (Word × Word)) : Updates := l.map fun d => ((a, d.1), d.2)

/-- mirrors evm/host.cpp:125-148; `none` is the count 0xffffffff. -/
def read_updates (a : Addr) : Option (List (Word × Word)) → Option Host
  | none => some reset
  | some l => do
    let m ← Map.clear.resize slotHash l.length
    let m ← m.setAll slotHash (keyed a l)
    let c ← Map.clear.set addressHash a true
    some ⟨c, m, Map.clear⟩

end Host

/-- mirrors lib/evm.ex:499-515 -/
def cache_account (s : State) (a : Addr) : Option (List (Word × Word)) :=
  if s.storage_size a < 100 then some (s.storage_to_list a) else none

/-- The number of entries asked of the state.
mirrors lib/evm.ex:556 -/
def readCount (read_ahead : Int) : Nat := (min (max read_ahead 0) 254).toNat + 1

/-! ## The frame -/

inductive StorageStatus where
  | unchanged
  | modified
  deriving DecidableEq

/-- A running frame: its host, the state of the task, and the address whose code
runs. -/
structure Frame where
  host : Host
  state : State
  self : Addr

/-- What the code of a frame does to storage. The nested frames of a call start
from the flushed state and leave `nested` of it behind. -/
inductive Event where
  | get (slot : Slot)
  | set (slot : Slot) (value : Word)
  | call (success : Bool) (nested : State → State)

inductive Out where
  | value (w : Word)
  | status (st : StorageStatus)
  | flushed (l : Updates)

namespace Frame

/-- mirrors lib/evm.ex:468-471 -/
def start (s : State) (a : Addr) : Option Frame := (Host.read_updates a (cache_account s a)).map
    fun h => ⟨h, s, a⟩

variable (read_ahead : Int)

/-- mirrors evm/host.cpp:60-93, lib/evm.ex:552-566 -/
def get_storage (f : Frame) (slot : Slot) : Option (Word × Frame) := do
  let (value, h) ← f.host.get_cache slot
  match value with
  | some v => some (v, { f with host := h })
  | none => do
    let entries := f.state.storage_get_range slot.1 slot.2 (readCount read_ahead)
    let m ← h.storage_cache.setAll slotHash (Host.keyed slot.1 entries)
    some ((entries.head?.map Prod.snd).getD 0, { f with host := { h with storage_cache := m } })

/-- mirrors evm/host.cpp:95-106 -/
def set_storage (f : Frame) (slot : Slot) (value : Word) : Option (StorageStatus × Frame) := do
  let (prev_value, f) ← f.get_storage read_ahead slot
  let m ← f.host.storage_cache.set slotHash slot value
  let w ← f.host.storage_write_cache.set slotHash slot value
  some (if prev_value = value then .unchanged else .modified,
    { f with host := { f.host with storage_cache := m, storage_write_cache := w } })

/-- mirrors evm/host.cpp:231-273, lib/evm.ex:666-728 -/
def call (f : Frame) (success : Bool) (nested : State → State) : Option (Updates × Frame) := do
  let l := f.host.send_updates
  let state := nested (f.state.process_updates l)
  let host ← if success then Host.read_updates f.self (cache_account state f.self) else some f.host
  some (l, ⟨host, state, f.self⟩)

def step (f : Frame) : Event → Option (Out × Frame)
  | .get slot => (f.get_storage read_ahead slot).map fun r => (.value r.1, r.2)
  | .set slot value => (f.set_storage read_ahead slot value).map fun r => (.status r.1, r.2)
  | .call success nested => (f.call success nested).map fun r => (.flushed r.1, r.2)

/-- The host answers a read of the slot without asking. -/
def Knows (f : Frame) (slot : Slot) : Prop :=
  f.host.storage_cache.data.lookup slot ≠ none ∨ f.host.complete_accounts.data.lookup slot.1 = some true

instance (f : Frame) (slot : Slot) : Decidable (f.Knows slot) := inferInstanceAs (Decidable (_ ∨ _))

/-- The entries a read of the slot brings in. -/
def fetched (f : Frame) (slot : Slot) : List (Word × Word) :=
  if f.Knows slot then [] else f.state.storage_get_range slot.1 slot.2 (readCount read_ahead)

end Frame

/-! ## What the frame has done -/

/-- The value last set for a slot since the start of the frame or its last
successful call, and since its last flush. -/
structure History where
  written : Slot → Option Word
  pending : Slot → Option Word

namespace History

def start : History := ⟨fun _ => none, fun _ => none⟩

/-- What a read of the slot should give. -/
def value (t : History) (s : State) (slot : Slot) : Word := (t.written slot).getD (s.read slot)

def next (t : History) : Event → History
  | .get _ => t
  | .set slot v => ⟨Function.update t.written slot (some v), Function.update t.pending slot (some v)⟩
  | .call success _ => ⟨if success then fun _ => none else t.written, fun _ => none⟩

/-- A flush holds the slots set since the last one, each once with its value. -/
def Flushes (t : History) (l : Updates) : Prop :=
  (∀ slot v, (slot, v) ∈ l ↔ t.pending slot = some v) ∧ (l.map Prod.fst).Nodup

/-- The answer an event should have. -/
def Answers (t : History) (s : State) : Event → Out → Prop
  | .get slot, .value w => w = t.value s slot
  | .set slot v, .status st => st = if t.value s slot = v then .unchanged else .modified
  | .call _ _, .flushed l => t.Flushes l
  | _, _ => False

/-- Every slot the frame has written was written since the last flush. -/
def Fresh (t : History) : Prop := ∀ slot, t.written slot ≠ none → t.pending slot ≠ none

end History

namespace Frame
variable (read_ahead : Int)

/-- Every event of a run has its answer, and the flush at the end is right. -/
def Serves (f : Frame) (t : History) : List Event → Prop
  | [] => t.Flushes f.host.send_updates
  | e :: es => ∃ out f', f.step read_ahead e = some (out, f') ∧ t.Answers f.state e out ∧
      Serves f' (t.next e) es

/-- The entries brought in agree with what the frame has written. -/
def Agrees (f : Frame) (t : History) (slot : Slot) : Prop :=
  ∀ d ∈ f.fetched read_ahead slot, ∀ w, t.written (slot.1, d.1) = some w → w = d.2

/-- An event that does not reach a defect of the cache. -/
def Safe (f : Frame) (t : History) : Event → Prop
  | .get slot =>
    f.Agrees read_ahead t slot ∧ f.host.storage_cache.Whole (max 1 (f.fetched read_ahead slot).length)
  | .set slot _ =>
    f.Agrees read_ahead t slot ∧ f.host.storage_cache.Whole ((f.fetched read_ahead slot).length + 1) ∧
      f.host.storage_write_cache.Whole 1
  | .call success nested =>
    t.Fresh ∧ (success = false → ∀ slot, f.Knows slot → t.written slot = none →
      (nested (f.state.process_updates f.host.send_updates)).read slot = f.state.read slot)

/-- A run of safe events, with a flush at the end that repeats nothing. -/
def Fair (f : Frame) (t : History) : List Event → Prop
  | [] => t.Fresh
  | e :: es => f.Safe read_ahead t e ∧ ∀ out f', f.step read_ahead e = some (out, f') →
      Fair f' (t.next e) es

end Frame
/-! ## The invariant -/

/-- The table of complete accounts never holds more than one. -/
structure Small (m : Map Addr Bool) : Prop where
  wf : m.WF addressHash
  size : m.size ≤ 1
  capacity : m.capacity = 0 ∨ m.capacity = 600

namespace Small

theorem clear : Small Map.clear := ⟨Map.WF.clear, Nat.zero_le _, .inl rfl⟩

theorem whole {m : Map Addr Bool} (h : Small m) : m.Whole 1 := by
  have := h.size
  rcases h.capacity with h0 | h6
  · exact .of_clear h0 (by omega)
  · refine .of_room (by omega) ?_
    rw [h6]
    decide

theorem reaches {m : Map Addr Bool} (h : Small m) {c : Nat}
    (hc : Map.Reaches (m.size + 1) m.capacity c) :
    c = 0 ∨ c = 600 := by
  have := h.size
  rcases h.capacity with h0 | h6
  · rw [h0] at hc
    exact hc.of_clear (by omega)
  · rw [hc.eq_of_room (by omega)]
    exact .inr h6

end Small

/-- What the tables of the host say about the history and the state. -/
structure Coherent (f : Frame) (t : History) : Prop where
  cache : f.host.storage_cache.WF slotHash
  write : f.host.storage_write_cache.WF slotHash
  complete : Small f.host.complete_accounts
  known : ∀ slot w, f.host.storage_cache.data.lookup slot = some w → w = t.value f.state slot
  zero : ∀ slot, f.host.complete_accounts.data.lookup slot.1 = some true →
    f.host.storage_cache.data.lookup slot = none → f.state.read slot = 0
  own : ∀ slot w, t.written slot = some w → f.host.storage_cache.data.lookup slot = some w
  writes : ∀ slot, f.host.storage_write_cache.data.lookup slot = t.written slot
  pending : ∀ slot w, t.pending slot = some w → t.written slot = some w

variable {read_ahead : Int} {f : Frame} {t : History} {slot : Slot}

namespace Coherent

/-- A slot the host knows reads as the history says, known or zero. -/
theorem unwritten (hc : Coherent f t) (h : f.host.storage_cache.data.lookup slot = none) :
    t.written slot = none := by
  cases hw : t.written slot with
  | none => rfl
  | some w => rw [hc.own slot w hw] at h; cases h

theorem value_of_none (hc : Coherent f t) (h : f.host.storage_cache.data.lookup slot = none) :
    t.value f.state slot = f.state.read slot := by
  unfold History.value
  rw [hc.unwritten h]
  rfl

end Coherent

theorem complete_account_spec {h : Host} (hs : Small h.complete_accounts) (a : Addr) :
    ∃ m, h.complete_account a = some ((h.complete_accounts.data.lookup a).getD false,
      { h with complete_accounts := m }) ∧
      Small m ∧ m.data = h.complete_accounts.data := by
  obtain ⟨g, hg, hwg, hdata, hreach⟩ := Map.get_spec hs.wf hs.whole a
  refine ⟨g, ?_, ⟨hwg, ?_, hs.reaches hreach⟩, hdata⟩
  · unfold Host.complete_account
    rw [hg]
    rfl
  · unfold Map.size
    rw [hdata]
    exact hs.size

/-- What `get_cache` answers, and that it changes no pair. -/
theorem get_cache_spec (hc : Coherent f t) {n : Nat} (hw : f.host.storage_cache.Whole (max 1 n))
    (slot : Slot) :
    ∃ h, f.host.get_cache slot = some (if f.Knows slot then some (t.value f.state slot) else none, h) ∧
      h.storage_cache.WF slotHash ∧ Small h.complete_accounts ∧
      h.complete_accounts.data = f.host.complete_accounts.data ∧ h.storage_cache.Whole n ∧
      h.storage_cache.data = f.host.storage_cache.data ∧
        h.storage_write_cache = f.host.storage_write_cache := by
  obtain ⟨g, hg, hwg, hdata, hreach⟩ := Map.get_spec hc.cache (hw.le (Nat.le_max_left ..)) slot
  have hwhole : g.Whole n := by
    intro c h
    refine hw c ((hreach.mono (by omega)).trans (h.mono ?_))
    unfold Map.size
    rw [hdata]
    omega
  unfold Host.get_cache
  rw [hg, Option.bind_eq_bind, Option.bind_some]
  rcases Option.eq_none_or_eq_some (f.host.storage_cache.data.lookup slot) with hl | ⟨v, hl⟩
  rotate_left
  · refine ⟨{ f.host with storage_cache := g }, ?_, hwg, hc.complete, rfl, hwhole, hdata, rfl⟩
    have hk : f.Knows slot := .inl (by rw [hl]; exact Option.some_ne_none v)
    rw [hl, if_pos hk, hc.known slot v hl]
  · have hk : f.Knows slot ↔ f.host.complete_accounts.data.lookup slot.1 = some true := by
      unfold Frame.Knows
      rw [hl]
      simp
    rw [hl]
    dsimp only
    obtain ⟨m, hm, hsm, hmd⟩ := complete_account_spec (h := { f.host with storage_cache := g })
      hc.complete slot.1
    refine ⟨{ f.host with storage_cache := g, complete_accounts := m }, ?_, hwg, hsm, hmd,
      hwhole, hdata, rfl⟩
    rw [hm, Option.bind_eq_bind, Option.bind_some]
    dsimp only
    by_cases hcl : f.host.complete_accounts.data.lookup slot.1 = some true
    · rw [if_pos (hk.2 hcl), hcl, (hc.value_of_none hl).trans (hc.zero slot hcl hl)]
      rfl
    · have hfalse : (f.host.complete_accounts.data.lookup slot.1).getD false = false := by
        cases h : f.host.complete_accounts.data.lookup slot.1 with
        | none => rfl
        | some b =>
          rw [h] at hcl
          simpa using hcl
      rw [if_neg fun h => hcl (hk.1 h), hfalse]
      rfl

theorem keys_keyed (a : Addr) (l : List (Word × Word)) (slot : Slot) :
    slot ∈ (Host.keyed a l).map Prod.fst ↔ a = slot.1 ∧ ∃ d ∈ l, d.1 = slot.2 := by
  unfold Host.keyed
  rw [List.map_map, List.mem_map]
  refine ⟨?_, ?_⟩
  · intro hx
    obtain ⟨d, hd, rfl⟩ := hx
    exact ⟨rfl, d, hd, rfl⟩
  · intro hx
    obtain ⟨h, d, hd, h'⟩ := hx
    exact ⟨d, hd, by rw [Prod.ext_iff]; exact ⟨h, h'⟩⟩

/-- **`get_storage`** answers as it should, and takes over the entries brought in
whether the frame has written their slots or not. -/
theorem get_storage_reads (hc : Coherent f t) {n : Nat}
    (hw : f.host.storage_cache.Whole (max 1 (n + (f.fetched read_ahead slot).length))) :
    ∃ h, f.get_storage read_ahead slot = some (t.value f.state slot, { f with host := h }) ∧
      h.storage_cache.WF slotHash ∧ h.storage_cache.Whole n ∧ Small h.complete_accounts ∧
      h.complete_accounts.data = f.host.complete_accounts.data ∧
        h.storage_write_cache = f.host.storage_write_cache ∧
      ∀ s, h.storage_cache.data.lookup s =
        if s ∈ (Host.keyed slot.1 (f.fetched read_ahead slot)).map Prod.fst then some (f.state.read s)
        else f.host.storage_cache.data.lookup s := by
  obtain ⟨h, hg, hwf, hsm, hcd, hwh, hdata, hwr⟩ := get_cache_spec hc hw slot
  unfold Frame.get_storage
  rw [hg, Option.bind_eq_bind, Option.bind_some]
  by_cases hk : f.Knows slot
  · have hf : f.fetched read_ahead slot = [] := if_pos hk
    rw [if_pos hk]
    refine ⟨h, rfl, hwf, hwh.le (by omega), hsm, hcd, hwr, fun s => ?_⟩
    rw [hf, hdata]
    exact (if_neg nofun).symm
  · rw [if_neg hk]
    dsimp only
    have hf : f.fetched read_ahead slot = f.state.storage_get_range slot.1 slot.2
      (readCount read_ahead) := if_neg hk
    have hlen : (Host.keyed slot.1 (f.fetched read_ahead slot)).length =
      (f.fetched read_ahead slot).length :=
      List.length_map _
    rw [← hlen] at hwh
    obtain ⟨m, hm, hwm, hmd, hmw⟩ := Map.setAll_spec _ hwf hwh
    have hval : ∀ d ∈ Host.keyed slot.1 (f.fetched read_ahead slot), d.2 = f.state.read d.1 := by
      intro d hd
      obtain ⟨e, he, rfl⟩ := List.mem_map.1 hd
      rw [hf] at he
      exact State.mem_storage_get_range he
    have hkn : f.host.storage_cache.data.lookup slot = none := by
      unfold Frame.Knows at hk
      rw [not_or, not_not] at hk
      exact hk.1
    refine ⟨{ h with storage_cache := m }, ?_, hwm, hmw, hsm, hcd, hwr, fun s => ?_⟩
    · rw [← hf, hm, Option.bind_eq_bind, Option.bind_some, hc.value_of_none hkn, hf]
      rcases State.head_storage_get_range f.state slot.1 slot.2
        (min (max read_ahead 0) 254).toNat with ⟨hn, h0⟩ | ⟨l, hl⟩
      · rw [show readCount read_ahead = _ + 1 from rfl, hn]
        exact congrArg some (Prod.ext h0.symm rfl)
      · rw [show readCount read_ahead = _ + 1 from rfl, hl]
        rfl
    · rw [hmd, lookup_upserts (f := f.state.read) _ _ hval, ← hdata]

/-- `get_storage` with entries that agree with the writes. -/
theorem get_storage_spec (hc : Coherent f t) {n : Nat} (ha : f.Agrees read_ahead t slot)
    (hw : f.host.storage_cache.Whole (max 1 (n + (f.fetched read_ahead slot).length))) :
    ∃ h, f.get_storage read_ahead slot = some (t.value f.state slot, { f with host := h }) ∧
      Coherent { f with host := h } t ∧ h.storage_cache.Whole n ∧
      h.storage_write_cache = f.host.storage_write_cache := by
  obtain ⟨h, hg, hwf, hwh, hsm, hcd, hwr, hlook⟩ := get_storage_reads hc hw
  refine ⟨h, hg, ?_, hwh, hwr⟩
  -- an entry for a slot the frame has written repeats the written value
  have hval : ∀ s ∈ (Host.keyed slot.1 (f.fetched read_ahead slot)).map Prod.fst, ∀ w,
    t.written s = some w →
      f.state.read s = w := by
    rintro ⟨b, k⟩ hs w hwt
    obtain ⟨rfl, d, hd, rfl⟩ := (keys_keyed ..).1 hs
    have hd' := hd
    unfold Frame.fetched at hd'
    split at hd'
    · cases hd'
    · rw [← State.mem_storage_get_range hd', ha d hd w hwt]
  refine ⟨?_, ?_, ?_, ?_, ?_, ?_, ?_, ?_⟩
  · exact hwf
  · rw [hwr]
    exact hc.write
  · exact hsm
  · intro s w hs
    change h.storage_cache.data.lookup s = some w at hs
    rw [hlook] at hs
    split at hs
    · rename_i hmem
      cases hs
      show _ = (t.written s).getD (f.state.read s)
      cases hwt : t.written s with
      | none => rfl
      | some w => exact hval s hmem w hwt
    · exact hc.known s w hs
  · intro s hs hn
    change h.complete_accounts.data.lookup s.1 = some true at hs
    change h.storage_cache.data.lookup s = none at hn
    rw [hcd] at hs
    rw [hlook] at hn
    split at hn
    · cases hn
    · exact hc.zero s hs hn
  · intro s w hs
    change h.storage_cache.data.lookup s = some w
    rw [hlook]
    split
    · rename_i hmem
      rw [hval s hmem w hs]
    · exact hc.own s w hs
  · rw [hwr]
    exact hc.writes
  · exact hc.pending

/-- The history after a write. -/
theorem History.next_set (t : History) (slot : Slot) (v : Word) (j : Slot) :
    ((t.next (.set slot v)).written j = if slot = j then some v else t.written j) ∧
      (t.next (.set slot v)).pending j = if slot = j then some v else t.pending j := by
  unfold History.next
  dsimp only
  rw [Function.update_apply, Function.update_apply]
  simp only [eq_comm (a := j), and_self]

/-- A write into both caches. -/
theorem Coherent.set {h : Host} {v : Word} {m w : Map Slot Word} (hc : Coherent { f with host := h } t)
    (hm : m.WF slotHash) (hmd : m.data = upsert h.storage_cache.data slot v) (hw : w.WF slotHash)
    (hwd : w.data = upsert h.storage_write_cache.data slot v) :
    Coherent { f with host := { h with storage_cache := m, storage_write_cache := w } }
      (t.next (.set slot v)) := by
  have hval : ∀ j, (t.next (.set slot v)).value f.state j = if slot =
    j then v else t.value f.state j := by
    intro j
    unfold History.value
    rw [(t.next_set slot v j).1]
    split <;> rfl
  have hlook : ∀ j, m.data.lookup j = if slot = j then some v else h.storage_cache.data.lookup j := by
    intro j
    rw [hmd, lookup_upsert]
  refine ⟨?_, ?_, ?_, ?_, ?_, ?_, ?_, ?_⟩
  · exact hm
  · exact hw
  · exact hc.complete
  · intro j x hj
    change m.data.lookup j = some x at hj
    change x = (t.next (.set slot v)).value f.state j
    rw [hlook] at hj
    rw [hval]
    split at hj
    · rename_i e
      rw [if_pos e]
      exact (Option.some.inj hj).symm
    · rename_i e
      rw [if_neg e]
      exact hc.known j x hj
  · intro j hj hn
    change m.data.lookup j = none at hn
    rw [hlook] at hn
    split at hn
    · cases hn
    · exact hc.zero j hj hn
  · intro j x hj
    change m.data.lookup j = some x
    rw [(t.next_set slot v j).1] at hj
    rw [hlook]
    split at hj
    · rename_i e
      rw [if_pos e]
      exact hj
    · rename_i e
      rw [if_neg e]
      exact hc.own j x hj
  · intro j
    change w.data.lookup j = _
    rw [(t.next_set slot v j).1, hwd, lookup_upsert, hc.writes j]
  · intro j x hj
    rw [(t.next_set slot v j).2] at hj
    rw [(t.next_set slot v j).1]
    split at hj
    · rename_i e
      rw [if_pos e]
      exact hj
    · rename_i e
      rw [if_neg e]
      exact hc.pending j x hj

/-- **`set_storage`** with entries that agree with the writes. -/
theorem set_storage_spec (hc : Coherent f t) {n : Nat} (ha : f.Agrees read_ahead t slot)
    (hw : f.host.storage_cache.Whole (n + 1 + (f.fetched read_ahead slot).length))
    (hww : f.host.storage_write_cache.Whole 1) (v : Word) :
    ∃ h, f.set_storage read_ahead slot v =
        some (if t.value f.state slot = v then .unchanged else .modified, { f with host := h }) ∧
      Coherent { f with host := h } (t.next (.set slot v)) ∧ h.storage_cache.Whole n ∧
      h.complete_accounts.data = f.host.complete_accounts.data ∧
      ∀ s, h.storage_cache.data.lookup s = if slot = s then some v
        else if s ∈ (Host.keyed slot.1 (f.fetched read_ahead slot)).map Prod.fst then some
          (f.state.read s)
        else f.host.storage_cache.data.lookup s := by
  have hw' : f.host.storage_cache.Whole (max 1 (n + 1 + (f.fetched read_ahead slot).length)) :=
    hw.le (by omega)
  obtain ⟨h', hg', hch, -⟩ := get_storage_spec hc ha hw'
  obtain ⟨h, hg, hwf, hwh, _, hcd, hwr, hlook⟩ := get_storage_reads hc hw'
  have hhh : h' = h := by
    rw [hg] at hg'
    exact congrArg (fun r : Word × Frame => r.2.host) (Option.some.inj hg').symm
  subst hhh
  obtain ⟨m, hm, hwm, hmd, hreach⟩ := Map.set_spec hwf (hwh.le (by omega)) slot v
  obtain ⟨w, hs, hwt, hwd, _⟩ := Map.set_spec hc.write hww slot v
  refine ⟨{ h' with storage_cache := m, storage_write_cache := w }, ?_, hch.set hwm hmd hwt ?_, ?_,
    hcd, fun s => ?_⟩
  · unfold Frame.set_storage
    rw [hg, Option.bind_eq_bind, Option.bind_some]
    dsimp only at hm ⊢
    rw [hm, Option.bind_eq_bind, Option.bind_some, hwr, hs]
    rfl
  · rw [hwd, hwr]
  · refine Map.Whole.step hwh ?_ hreach
    unfold Map.size
    rw [hmd]
    exact Map.length_upsert_le ..
  · rw [hmd, lookup_upsert, hlook]

/-- **A flush** when every slot written was written since the last one. -/
theorem send_updates_spec (hc : Coherent f t) (hf : t.Fresh) : t.Flushes f.host.send_updates := by
  refine ⟨fun slot v => ?_, hc.write.nodup⟩
  unfold Host.send_updates
  rw [mem_iff_lookup hc.write.nodup, hc.writes]
  refine ⟨?_, ?_⟩
  · intro h
    cases hp : t.pending slot with
    | none => exact absurd hp (hf slot (by rw [h]; exact Option.some_ne_none v))
    | some w => rw [← h, hc.pending slot w hp]
  · exact hc.pending slot v

/-! ## The cache sent by the Elixir side -/

theorem length_storage_to_list (s : State) (a : Addr) :
    (s.storage_to_list a).length = s.storage_size a := by
  unfold State.storage_to_list State.storage_size Tree.size
  rw [List.length_map, List.length_reverse]

/-- A host that knows what it has been sent and nothing else. -/
theorem read_updates_spec (s : State) (a : Addr) :
    ∃ h, Host.read_updates a (cache_account s a) = some h ∧ Coherent ⟨h, s, a⟩ .start := by
  unfold cache_account
  split
  · rename_i hlt
    rw [← length_storage_to_list] at hlt
    have hlen : (Host.keyed a (s.storage_to_list a)).length = (s.storage_to_list a).length :=
      List.length_map _
    have hcap : (Map.blank ((s.storage_to_list a).length * 6) : Map Slot Word).capacity =
        (s.storage_to_list a).length * 6 := Map.capacity_blank _
    have hsize : (Map.blank ((s.storage_to_list a).length * 6) : Map Slot Word).size = 0 := rfl
    obtain ⟨m, hm, hwm, hmd⟩ := Map.setAll_room (Host.keyed a (s.storage_to_list a))
      (show Map.WF slotHash _ from Map.WF.blank ((s.storage_to_list a).length * 6))
        (by rw [hcap, hsize]; omega)
      (fun hpos hd => by
        rw [hcap] at hd
        have := Nat.le_of_dvd (by omega) hd
        unfold Map.stride at this
        omega)
    obtain ⟨c, hs, hwc, hcd, hreach⟩ := Map.set_spec Small.clear.wf Small.clear.whole a true
    have hval : ∀ d ∈ Host.keyed a (s.storage_to_list a), d.2 = s.read d.1 := by
      intro d hd
      obtain ⟨e, he, rfl⟩ := List.mem_map.1 hd
      exact (State.mem_storage_to_list.1 he).1.symm
    have hlook : ∀ j, m.data.lookup j =
        if j ∈ (Host.keyed a (s.storage_to_list a)).map Prod.fst then some (s.read j) else none := by
      intro j
      rw [hmd, lookup_upserts (f := s.read) _ _ hval]
      rfl
    refine ⟨⟨c, m, Map.clear⟩, ?_, ?_⟩
    · unfold Host.read_updates
      dsimp only
      rw [Map.resize_clear, Option.bind_eq_bind, Option.bind_some, hm, Option.bind_some, hs]
      rfl
    · refine ⟨?_, ?_, ?_, ?_, ?_, ?_, ?_, ?_⟩
      · exact hwm
      · exact Map.WF.clear
      · refine ⟨hwc, ?_, Small.clear.reaches hreach⟩
        unfold Map.size
        rw [hcd]
        exact le_rfl
      · intro j w hj
        change m.data.lookup j = some w at hj
        rw [hlook] at hj
        split at hj
        · exact (Option.some.inj hj).symm
        · cases hj
      · intro j hj hn
        change c.data.lookup j.1 = some true at hj
        change m.data.lookup j = none at hn
        rw [hlook] at hn
        split at hn
        · cases hn
        · rename_i hni
          rw [hcd, lookup_upsert] at hj
          have haj : a = j.1 := by
            by_contra hne
            rw [if_neg hne] at hj
            cases hj
          by_contra h0
          refine hni ((keys_keyed ..).2 ⟨haj, (j.2, s.read j), State.mem_storage_to_list.2 ⟨?_, h0⟩, rfl⟩)
          rw [haj]
      · intro j w hj
        cases hj
      · intro j
        rfl
      · intro j w hj
        cases hj
  · refine ⟨Host.reset, rfl, ?_⟩
    refine ⟨?_, ?_, ?_, ?_, ?_, ?_, ?_, ?_⟩
    · exact Map.WF.clear
    · exact Map.WF.clear
    · exact Small.clear
    · intro j w hj
      cases hj
    · intro j hj
      cases hj
    · intro j w hj
      cases hj
    · intro j
      rfl
    · intro j w hj
      cases hj

theorem start_spec (s : State) (a : Addr) : ∃ f, Frame.start s a = some f ∧ Coherent f .start := by
  obtain ⟨h, hh, hc⟩ := read_updates_spec s a
  refine ⟨⟨h, s, a⟩, ?_, hc⟩
  unfold Frame.start
  rw [hh]
  rfl

/-! ## Runs -/

/-- **One event.** -/
theorem step_spec (hc : Coherent f t) {e : Event} (h : f.Safe read_ahead t e) :
    ∃ out f', f.step read_ahead e = some (out, f') ∧ t.Answers f.state e out ∧
      Coherent f' (t.next e) := by
  cases e with
  | get slot =>
    obtain ⟨ha, hw⟩ := h
    obtain ⟨h, hg, hch, _⟩ := get_storage_spec (n := 0) hc ha (by rw [Nat.zero_add]; exact hw)
    refine ⟨.value (t.value f.state slot), { f with host := h }, ?_, rfl, hch⟩
    show (f.get_storage read_ahead slot).map _ = _
    rw [hg]
    rfl
  | set slot v =>
    obtain ⟨ha, hw, hww⟩ := h
    obtain ⟨h, hs, hch, _⟩ := set_storage_spec (n := 0) hc ha (hw.le (by omega)) hww v
    refine ⟨.status _, { f with host := h }, ?_, rfl, hch⟩
    show (f.set_storage read_ahead slot v).map _ = _
    rw [hs]
    rfl
  | call success nested =>
    obtain ⟨hf, hfail⟩ := h
    have hfl := send_updates_spec hc hf
    unfold Frame.step Frame.call
    cases success with
    | true =>
      obtain ⟨h, hh, hch⟩ := read_updates_spec
        (nested (f.state.process_updates f.host.send_updates)) f.self
      refine ⟨.flushed f.host.send_updates,
        ⟨h, nested (f.state.process_updates f.host.send_updates), f.self⟩, ?_, hfl,
        hch⟩
      dsimp only
      rw [if_pos rfl, hh]
      rfl
    | false =>
      refine ⟨.flushed f.host.send_updates,
        ⟨f.host, nested (f.state.process_updates f.host.send_updates), f.self⟩, rfl, hfl, ?_⟩
      have hsame := hfail rfl
      refine ⟨?_, ?_, ?_, ?_, ?_, ?_, ?_, ?_⟩
      · exact hc.cache
      · exact hc.write
      · exact hc.complete
      · intro j w hj
        have hk := hc.known j w hj
        rw [hk]
        unfold History.value History.next
        dsimp only
        rw [if_neg Bool.false_ne_true]
        cases hw : t.written j with
        | none => exact (hsame j (.inl (by rw [hj]; exact Option.some_ne_none w)) hw).symm
        | some x => rfl
      · intro j hj hn
        exact (hsame j (.inr hj) (hc.unwritten hn)).trans (hc.zero j hj hn)
      · exact hc.own
      · exact hc.writes
      · intro j w hj
        cases hj

theorem serves_of_fair : ∀ (es : List Event) {f : Frame} {t : History}, Coherent f t →
    f.Fair read_ahead t es →
    f.Serves read_ahead t es
  | [], _, _, hc, h => send_updates_spec hc h
  | e :: es, f, t, hc, h => by
    obtain ⟨out, f', hs, ha, hc'⟩ := step_spec hc h.1
    exact ⟨out, f', hs, ha, serves_of_fair es hc' (h.2 out f' hs)⟩

/-- **Storage inside a frame.** From any state, with any read-ahead, a run of
safe events is answered with the value last set or the state's, and every flush
holds the slots written since the one before. -/
theorem frame_coherent (read_ahead : Int) (s : State) (a : Addr) (es : List Event)
    (h : ∀ f, Frame.start s a = some f → f.Fair read_ahead .start es) :
    ∃ f, Frame.start s a = some f ∧ f.Serves read_ahead .start es := by
  obtain ⟨f, hf, hc⟩ := start_spec s a
  exact ⟨f, hf, serves_of_fair es hc (h f hf)⟩

/-! ## Read-ahead over a write -/

/-- A contract with a hundred slots, all of them one. -/
def hundredSlots : State :=
  State.empty.storage_put_map [(7, (List.range 100).map fun i => (BitVec.ofNat 256 i, 1))]

theorem nodup_hundred : (((List.range 100).map fun i => (BitVec.ofNat 256 i, (1 : Word))).map Prod.fst).Nodup := by
  rw [List.map_map]
  refine (List.nodup_map_iff_inj_on List.nodup_range).2 fun i hi j hj he => ?_
  have := congrArg BitVec.toNat (show BitVec.ofNat 256 i = BitVec.ofNat 256 j from he)
  rw [List.mem_range] at hi hj
  rwa [BitVec.toNat_ofNat, BitVec.toNat_ofNat, Nat.mod_eq_of_lt (by omega), Nat.mod_eq_of_lt
    (by omega)] at this

theorem read_hundred {i : Nat} (h : i < 100) : hundredSlots.read (7, BitVec.ofNat 256 i) = 1 := by
  have hl : ((List.range 100).map fun i => (BitVec.ofNat 256 i, (1 : Word))).lookup
    (BitVec.ofNat 256 i) = some 1 :=
    lookup_of_mem nodup_hundred (List.mem_map.2 ⟨i, List.mem_range.2 h, rfl⟩)
  unfold hundredSlots State.read State.storage_put_map
  rw [List.foldl_cons, List.foldl_nil, State.storage_putItem, if_pos rfl,
    Tree.read_putAll _ _ _ nodup_hundred, hl]
  rfl

theorem hundred_le_size : 100 ≤ hundredSlots.storage_size 7 := by
  rw [← length_storage_to_list]
  have hsub : ((List.range 100).map fun i => (BitVec.ofNat 256 i, (1 : Word))) ⊆
    hundredSlots.storage_to_list 7 := by
    intro d hd
    obtain ⟨i, hi, rfl⟩ := List.mem_map.1 hd
    exact State.mem_storage_to_list.2 ⟨read_hundred (List.mem_range.1 hi), (by decide : (1 : Word) ≠ 0)⟩
  have := (List.subperm_of_subset (List.Nodup.of_map _ nodup_hundred) hsub).length_le
  rwa [List.length_map, List.length_range] at this

theorem start_hundred : Frame.start hundredSlots 7 = some ⟨Host.reset, hundredSlots, 7⟩ := by
  unfold Frame.start cache_account
  rw [if_neg (not_lt.2 hundred_le_size)]
  rfl

theorem range_hundred {i : Nat} (h : i + 1 < 100) :
    hundredSlots.storage_get_range 7 (BitVec.ofNat 256 i) 2 =
      [(BitVec.ofNat 256 i, 1), (BitVec.ofNat 256 (i + 1), 1)] := by
  have h0 := read_hundred (show i < 100 by omega)
  have h1 := read_hundred h
  obtain ⟨acc, hacc⟩ : ∃ acc, hundredSlots.accounts.get 7 = some acc := ⟨_, SMap.get_put_self ..⟩
  unfold State.read State.storage at h0 h1
  rw [hacc] at h0 h1
  unfold State.storage_get_range
  rw [hacc]
  have hlt : (BitVec.ofNat 256 i).toNat + 1 < 2 ^ 256 := by
    rw [BitVec.toNat_ofNat, Nat.mod_eq_of_lt (by omega)]
    omega
  have hnext : BitVec.ofNat 256 i + 1 = BitVec.ofNat 256 (i + 1) := (BitVec.ofNat_add ..).symm
  show Tree.rangeWords acc.storage 2 _ = _
  rw [Tree.rangeWords, Tree.rangeWords, if_pos hlt, hnext]
  simp only [Option.elim_some] at h0 h1
  rw [h0, h1, Tree.rangeWords]
  split <;> rfl

/-- A frame that sets slot 1, reads slot 0, and then reads slot 1 as it was
before: the entry for slot 1 came with slot 0. -/
theorem not_serves {s : State} (hstart : Frame.start s 7 = some ⟨Host.reset, s, 7⟩)
    (hone : s.read (7, 1) = 1)
    (hr1 : s.storage_get_range 7 1 2 = [(1, 1), (2, 1)])
      (hr0 : s.storage_get_range 7 0 2 = [(0, 1), (1, 1)]) :
    ¬ Frame.Serves 1 ⟨Host.reset, s, 7⟩ .start [.set (7, 1) 5, .get (7, 0), .get (7, 1)] := by
  intro hx
  obtain ⟨o1, f1, h1, -, o2, f2, h2, -, o3, f3, h3, ha, -⟩ := hx
  have hc : Coherent ⟨Host.reset, s, 7⟩ .start := by
    obtain ⟨f, hf, hc⟩ := start_spec s 7
    rw [hstart] at hf
    cases hf
    exact hc
  have hfetch : Frame.fetched 1 ⟨Host.reset, s, 7⟩ (7, 1) = [(1, 1), (2, 1)] := hr1
  obtain ⟨g, hg, hcg, hwg, hcd, hlook⟩ := @set_storage_spec 1 _ _ (7, 1) hc 3
    (fun _ _ _ hw => nomatch hw)
    (by rw [hfetch]; exact .of_clear rfl (show 0 + 6 ≤ 150 by decide))
      (.of_clear rfl (show 0 + 1 ≤ 150 by decide)) 5
  have e1 : f1 = ⟨g, s, 7⟩ := by
    change (Frame.set_storage 1 ⟨Host.reset, s, 7⟩ (7, 1) 5).map _ = _ at h1
    rw [hg] at h1
    exact congrArg Prod.snd (Option.some.inj h1).symm
  subst e1
  have hn0 : g.storage_cache.data.lookup (7, 0) = none := by
    rw [hlook, hfetch, if_neg (by decide), if_neg (by decide)]
    rfl
  have hunk : ¬ Frame.Knows ⟨g, s, 7⟩ (7, 0) := by
    unfold Frame.Knows
    dsimp only
    rw [hn0, hcd]
    exact fun h => h.elim (fun h => h rfl) nofun
  have hfetch' : Frame.fetched 1 ⟨g, s, 7⟩ (7, 0) = [(0, 1), (1, 1)] := (if_neg hunk).trans hr0
  obtain ⟨g', hg', hwf', hwg', _, _, _, hlook'⟩ := @get_storage_reads 1 _ _ (7, 0) hcg 1
    (by rw [hfetch']; exact hwg)
  have e2 : f2 = ⟨g', s, 7⟩ := by
    change (Frame.get_storage 1 ⟨g, s, 7⟩ (7, 0)).map _ = _ at h2
    rw [hg'] at h2
    exact congrArg Prod.snd (Option.some.inj h2).symm
  subst e2
  have hold : g'.storage_cache.data.lookup (7, 1) = some 1 := by
    rw [hlook', hfetch', if_pos (by decide)]
    exact congrArg some hone
  obtain ⟨m, hm, _⟩ := Map.get_spec hwf' hwg' ((7, 1) : Slot)
  have e3 : o3 = .value 1 := by
    change (Frame.get_storage 1 ⟨g', s, 7⟩ (7, 1)).map _ = _ at h3
    unfold Frame.get_storage Host.get_cache at h3
    dsimp only at h3
    rw [hm, hold] at h3
    exact congrArg Prod.fst (Option.some.inj h3).symm
  subst e3
  exact absurd (show (1 : Word) = 5 from ha) (by decide)

/-- With a read-ahead of one slot, a hundred slots, and a write to slot 1. -/
theorem read_ahead_replaces_write :
    ¬ ∀ (read_ahead : Int) (s : State) (a : Addr) (es : List Event),
      ∃ f, Frame.start s a = some f ∧ f.Serves read_ahead .start es := by
  intro h
  obtain ⟨f, hf, hs⟩ := h 1 hundredSlots 7 [.set (7, 1) 5, .get (7, 0), .get (7, 1)]
  rw [start_hundred] at hf
  cases hf
  exact not_serves start_hundred (read_hundred (show 1 < 100 by decide))
    (range_hundred (show 1 + 1 < 100 by decide))
    (range_hundred (show 0 + 1 < 100 by decide)) hs

theorem length_fetched (f : Frame) (slot : Slot) : (f.fetched 1 slot).length ≤ 2 := by
  unfold Frame.fetched
  split
  · exact Nat.zero_le _
  · unfold State.storage_get_range
    split
    · exact Nat.zero_le _
    · exact Tree.length_rangeWords ..

theorem fair_of_reset {s : State} (hstart : Frame.start s 7 = some ⟨Host.reset, s, 7⟩) (f : Frame)
    (hf : Frame.start s 7 = some f) :
      f.Fair 1 .start [.get (7, 0), .set (7, 5) 9, .call true fun s => s] := by
  obtain ⟨f', hf', hc⟩ := start_spec s 7
  rw [hf] at hf'
  cases hf'
  rw [hstart] at hf
  cases hf
  have hwhole : ∀ n, n ≤ 150 → (Map.clear : Map Slot Word).Whole n := fun n hn =>
    .of_clear rfl (show 0 + n ≤ 150 by omega)
  have hle := length_fetched ⟨Host.reset, s, 7⟩ (7, 0)
  refine ⟨⟨fun _ _ _ hw => (nomatch hw), hwhole _ (by omega)⟩, fun out f' hs => ?_⟩
  obtain ⟨g, hg, -, hwg, -, -, hwr, -⟩ := @get_storage_reads 1 _ _ (7, 0) hc 4 (hwhole _ (by omega))
  have hf' : f' = ⟨g, s, 7⟩ := by
    change (Frame.get_storage 1 ⟨Host.reset, s, 7⟩ (7, 0)).map _ = _ at hs
    rw [hg] at hs
    exact congrArg Prod.snd (Option.some.inj hs).symm
  subst hf'
  have hle' := length_fetched ⟨g, s, 7⟩ (7, 5)
  refine ⟨⟨fun _ _ _ hw => (nomatch hw), hwg.le (by omega), by rw [hwr]; exact hwhole 1 (by omega)⟩,
    fun out f' _ => ?_⟩
  refine ⟨⟨fun slot hw => ?_, nofun⟩, fun out f' _ => ?_⟩
  · have hn := History.next_set .start (7, 5) 9 slot
    change (History.start.next (.set (7, 5) 9)).written slot ≠ none at hw
    show (History.start.next (.set (7, 5) 9)).pending slot ≠ none
    rw [hn.2]
    rw [hn.1] at hw
    exact hw
  · exact fun slot hw => absurd rfl hw

/-- A frame of the contract reads slot 0, sets slot 5 and calls. -/
theorem frame_coherent_hundred :
    ∃ f, Frame.start hundredSlots 7 = some f ∧
      f.Serves 1 .start [.get (7, 0), .set (7, 5) 9, .call true fun s => s] :=
  frame_coherent 1 hundredSlots 7 _ (fair_of_reset start_hundred)

end Diode.L4
