import Diode.L4Evm.Serve
import Diode.L4Evm.Wire

/-!
# The host and its handler in lock-step

An exchange is one message of the host, what `process_data` sends for it, and
what the host then reads: the two streams are at a boundary again when the
message was taken off whole, exactly one packet was sent if the host waits and
none if it does not, and the host's reads end where the packet ends. `InStep`
says this of every message of a frame, and of the frames its calls start.

`Meets` are the conditions under which the code keeps it, each on a message and
the state it meets: a log has a topic, code is copied from an offset it has, the
hash of a block in range is known, a call can be paid and its precompile run,
and no message is longer than a header can say.

**Results.**
* `exchange_iff`: the same for one callback.
* `lock_step_iff`: a run stays in lock-step exactly when it meets them.
-/
namespace Diode.L4
open Diode.Core Diode.L1.Packet Diode.L3

/-! ## What the host reads -/

/-- Whether the host waits for an answer. -/
def Callback.waits : Callback → Bool
  | .selfdestruct _ _ => false
  | .emit_log _ _ _ => false
  | _ => true

/-- What is left of the stream when the host has its answer; `none` waits on.
mirrors evm/host.cpp:43-316 -/
def Callback.read : Callback → Bytes → Option Bytes
  | .account_exists _, b => (skip 4 b).bind (skip 8)
  | .get_storage _ _, b => do
    let b ← skip 4 b
    let (count, b) ← cut 1 b
    skip (64 * ofBe count) b
  | .get_balance _, b => (skip 4 b).bind (skip 32)
  | .get_code_size _, b => (skip 4 b).bind (skip 8)
  | .get_code_hash _, b => (skip 4 b).bind (skip 32)
  | .copy_code _ _ _, b => do
    let b ← skip 4 b
    let (ret, b) ← u64 b
    skip ret.toNat b
  | .selfdestruct _ _, b => some b
  | .get_block_hash _, b => (skip 4 b).bind (skip 32)
  | .emit_log _ _ _, b => some b

/-- mirrors evm/host.cpp:125-148 -/
def readUpdates (b : Bytes) : Option Bytes := do
  let (count, b) ← u32 b
  let b ← skip 20 b
  if count = 0xFFFFFFFF then some b else skip (64 * count.toNat) b

/-- mirrors evm/host.cpp:251-272 -/
def readResult (b : Bytes) : Option Bytes := do
  let b ← skip 4 b
  let (_, b) ← u64 b
  let (status_code, b) ← u64 b
  let (output_size, b) ← u64 b
  let b ← skip output_size.toNat b
  let b ← skip 20 b
  if status_code = 0 then do
    let b ← skip 4 b
    let (cmd, b) ← cut 1 b
    if cmd = [0x70] then readUpdates b else some b
  else some b

/-! ## One callback -/

section
variable (e : Env)

def Exchange (evm : Evm) (s : State) (m : Callback) : Prop :=
  ∃ data m' replies evm', unpack m.write = some (data, []) ∧ receive data = .callback m' ∧
    evm.process_data e s m' = some (replies, evm') ∧ replies.length = (if m.waits then 1 else 0) ∧
    m.read (replies.flatMap packet) = some []

variable {e} {evm : Evm} {s : State} {m : Callback}

theorem skip_header (b : Bytes) : skip 4 ([b].flatMap packet) = some b := by
  show skip 4 (packet b ++ []) = some b
  rw [skip_packet, List.append_nil]

theorem length_entries (l : List (Word × Word)) :
    (l.flatMap fun d => Word.bytes d.1 ++ Word.bytes d.2).length = 64 * l.length := by
  induction l with
  | nil => rfl
  | cons d l ih =>
    rw [List.flatMap_cons, List.length_append, ih, List.length_append, Word.bytes_length,
      Word.bytes_length, List.length_cons]
    omega

theorem length_storage_get_range (s : State) (a : Addr) (key : Word) (r : Int) :
    (s.storage_get_range a key (readCount r)).length < 256 := by
  have h : (s.storage_get_range a key (readCount r)).length ≤ readCount r := by
    unfold State.storage_get_range
    split
    · exact Nat.zero_le _
    · exact Tree.length_rangeWords ..
  have hr : readCount r ≤ 255 := by
    unfold readCount
    omega
  omega

/-- A reply is read to its end. -/
theorem process_data_read (h : m.Served e evm s) : ∃ replies evm', evm.process_data e s m = some
    (replies, evm') ∧
    replies.length = (if m.waits then 1 else 0) ∧ m.read (replies.flatMap packet) = some [] := by
  cases m with
  | account_exists addr =>
    refine ⟨_, _, rfl, rfl, ?_⟩
    rw [Callback.read, skip_header, Option.bind_some]
    exact skip_all (le_length ..)
  | get_storage addr key =>
    refine ⟨_, _, rfl, rfl, ?_⟩
    have hn := length_storage_get_range s addr key e.read_ahead
    rw [Callback.read, skip_header, Option.bind_eq_bind, Option.bind_some, cut_append
      (be_length ..), Option.bind_eq_bind,
      Option.bind_some]
    dsimp only
    rw [ofBe_be (by omega)]
    exact skip_all (length_entries _)
  | get_balance addr =>
    refine ⟨_, _, rfl, rfl, ?_⟩
    rw [Callback.read, skip_header, Option.bind_some]
    exact skip_all (be_length ..)
  | get_code_size addr =>
    refine ⟨_, _, rfl, rfl, ?_⟩
    rw [Callback.read, skip_header, Option.bind_some]
    exact skip_all (le_length ..)
  | get_code_hash addr =>
    refine ⟨_, _, rfl, rfl, ?_⟩
    rw [Callback.read, skip_header, Option.bind_some]
    exact skip_all (Word.bytes_length _)
  | copy_code addr offset size =>
    have hle : offset.toNat ≤ (s.ensure_account addr).code.length := h
    have hs := size.isLt
    unfold Evm.process_data
    dsimp only
    rw [if_pos (by omega)]
    refine ⟨_, _, rfl, rfl, ?_⟩
    rw [Callback.read, skip_header, Option.bind_eq_bind, Option.bind_some, u64_le,
      Option.bind_eq_bind, Option.bind_some]
    dsimp only
    rw [toNat_of_lt (by omega)]
    refine skip_all ?_
    rw [List.length_take, List.length_drop]
    omega
  | selfdestruct addr ben => exact ⟨_, _, rfl, rfl, rfl⟩
  | get_block_hash number =>
    unfold Evm.process_data
    dsimp only
    split
    · refine ⟨_, _, rfl, rfl, ?_⟩
      rw [Callback.read, skip_header, Option.bind_some]
      exact skip_all (be_length ..)
    · rename_i hr
      obtain ⟨hash, hh⟩ := Option.isSome_iff_exists.1 (h (by omega) (by omega))
      rw [hh]
      refine ⟨_, _, rfl, rfl, ?_⟩
      rw [Callback.read, skip_header, Option.bind_some]
      exact skip_all (Word.bytes_length _)
  | emit_log addr data topics =>
    have ht : topics ≠ [] := h
    unfold Evm.process_data
    dsimp only
    rw [if_neg ht]
    exact ⟨_, _, rfl, rfl, rfl⟩

/-- **A callback is exchanged** exactly when its length fits the header and the
handler has an answer. -/
theorem exchange_iff : Exchange e evm s m ↔ m.size < 2 ^ 32 ∧ m.Served e evm s := by
  unfold Exchange
  rw [Callback.write_eq, ← Callback.length_body]
  refine ⟨?_, ?_⟩
  · intro h
    obtain ⟨data, m', replies, evm', hu, hr, hp, -, -⟩ := h
    obtain ⟨rfl, hlt⟩ := unpack_exact hu
    rw [receive_callback m (by omega)] at hr
    cases hr
    exact ⟨hlt, process_data_served hp⟩
  · intro h
    obtain ⟨hlt, hs⟩ := h
    obtain ⟨replies, evm', hp, hl, hr⟩ := process_data_read hs
    have hu := unpack_packet hlt []
    rw [List.append_nil] at hu
    exact ⟨_, m, replies, evm', hu, receive_callback m (by omega), hp, hl, hr⟩

end

section
variable {e : Env} {s : State}

/-! ## What the host reads of a result -/

theorem length_cache {a : Addr} {values : List (Word × Word)}
    (h : cache_account s a = some values) : values.length < 100 := by
  unfold cache_account at h
  split at h
  · rename_i hlt
    cases h
    rw [length_storage_to_list]
    exact hlt
  · cases h

theorem status_atom_zero (st : Status) : BitVec.ofNat 64 (status_atom st % 2 ^ 64).toNat = 0 ↔
    st = .evmc_success := by
  cases st <;> decide

/-- The packets of a result are read to their end. -/
theorem call_reply_read (evm2 : Evm) {out : Bytes} (h : out.length < 2 ^ 32) (task : Task) (s : State) :
    readResult ((Evm.call_reply e task evm2 out s).flatMap packet) = some [] := by
  have hhead : ∀ rest, readResult (packet (le 8 (evm2.gas % 2 ^ 64).toNat ++ le 8 (status_atom evm2.msg % 2 ^ 64).toNat ++ le 8 out.length ++
      out ++ Addr.bytes evm2.create_address) ++ rest) =
      if evm2.msg = .evmc_success then (skip 4 rest).bind fun b => (cut 1 b).bind fun (cmd, b) =>
        if cmd = [0x70] then readUpdates b else some b
      else some rest := by
    intro rest
    unfold readResult
    rw [skip_packet]
    simp only [List.append_assoc, u64_le, Option.bind_eq_bind, Option.bind_some, toNat_of_lt
      (show out.length < 2 ^ 64 by omega),
      skip_append rfl, skip_append (Addr.bytes_length evm2.create_address), status_atom_zero]
  unfold Evm.call_reply
  dsimp only
  split
  · rename_i hok
    rw [List.flatMap_cons, hhead, if_pos hok, skip_header, Option.bind_some]
    cases hc : cache_account s (task.address e) with
    | none =>
      dsimp only
      rw [List.cons_append, cut_cons, Option.bind_some]
      dsimp only
      rw [if_pos rfl, readUpdates, u32_le, Option.bind_eq_bind, Option.bind_some]
      dsimp only
      rw [skip_all (Addr.bytes_length _), Option.bind_eq_bind, Option.bind_some]
      exact if_pos rfl
    | some values =>
      have hlen := length_cache hc
      have hne : BitVec.ofNat 32 values.length ≠ 0xFFFFFFFF := by
        intro he
        have := congrArg BitVec.toNat he
        rw [BitVec.toNat_ofNat, Nat.mod_eq_of_lt (by omega)] at this
        have h32 : (0xFFFFFFFF : BitVec 32).toNat = 4294967295 := rfl
        omega
      dsimp only
      rw [List.cons_append, List.cons_append, cut_cons, Option.bind_some]
      dsimp only
      rw [if_pos rfl, readUpdates, List.append_assoc, u32_le, Option.bind_eq_bind, Option.bind_some]
      dsimp only
      rw [skip_append (Addr.bytes_length _), Option.bind_eq_bind, Option.bind_some, if_neg hne,
        BitVec.toNat_ofNat,
        Nat.mod_eq_of_lt (by omega)]
      exact skip_all (length_entries values)
  · rename_i hno
    rw [List.flatMap_cons, List.flatMap_nil, hhead, if_neg hno]

end

/-! ## Runs -/

section
variable (e : Env)

/-- A flush of storage is taken off the stream whole, and reads as `l`. -/
def Arrives (updates l : Updates) : Prop :=
  ∃ data rest, unpack (updatesWrite updates) = some (data, []) ∧ receive data = .updates rest ∧
    parseUpdates rest = some l

/-- Both sides of a frame and of those its calls start are at a boundary after
every message. -/
def InStep : Script → Evm → State → Prop
  | .done updates gas_left ret_code output, _, _ =>
    (∃ l, Arrives updates l) ∧
      ∃ data gas code out, unpack (finishedWrite gas_left ret_code output) = some (data, []) ∧
        receive data = .finished gas code out ∧
        (status_code code.toInt).isSome = true
  | .callback m next, evm, s => Exchange e evm s m ∧ ∀ replies evm', evm.process_data e s m = some
      (replies, evm') → InStep next evm' s
  | .call msg updates child next, evm, s =>
    ∃ data msg' l, unpack msg.write = some (data, []) ∧ receive data = .call msg' ∧ Arrives updates l ∧
      (∀ evm1 s1, Task.Started e (s.process_updates l) evm.task msg' evm1 s1 → InStep child evm1 s1) ∧
      ∃ tag evm2 s2 out, evm.task.call_contract e (Evm.loop e child) (s.process_updates l) msg' =
        some (tag, evm2, s2) ∧
        evm2.out = some out ∧ readResult ((Evm.call_reply e evm.task evm2 out s2).flatMap packet) = some [] ∧
        InStep next (evm.after_call evm2) s2

/-- Every message meets its condition, in the state it is handled in. -/
def Meets : Script → Evm → State → Prop
  | .done updates _ ret_code output, _, _ =>
    2 + updates.length * 84 < 2 ^ 32 ∧ 26 + output.length < 2 ^ 32 ∧
      (status_code ret_code.toInt).isSome = true
  | .callback m next, evm, s =>
    m.size < 2 ^ 32 ∧ m.Served e evm s ∧ ∀ replies evm', evm.process_data e s m = some
      (replies, evm') → Meets next evm' s
  | .call msg updates child next, evm, s =>
    msg.size < 2 ^ 32 ∧ 2 + updates.length * 84 < 2 ^ 32 ∧
      Task.Callable e (s.process_updates updates) evm.task msg ∧
      (∀ evm1 s1, Task.Started e (s.process_updates updates) evm.task msg evm1 s1 →
        Meets child evm1 s1) ∧
      ∀ tag evm2 s2, evm.task.call_contract e (Evm.loop e child) (s.process_updates updates) msg =
        some (tag, evm2, s2) →
        Meets next (evm.after_call evm2) s2

variable {e}

theorem arrives_iff {updates l : Updates} : Arrives updates l ↔ 2 + updates.length * 84 < 2 ^ 32 ∧
    l = updates := by
  have hlen : (updatesBody updates).length = 2 + updates.length * 84 := by
    rw [updatesBody, List.length_cons, List.length_cons, length_updates]
    omega
  unfold Arrives
  rw [updatesWrite_eq, ← hlen]
  refine ⟨?_, ?_⟩
  · intro h
    obtain ⟨data, rest, hu, hr, hp⟩ := h
    obtain ⟨rfl, hlt⟩ := unpack_exact hu
    rw [receive_updates] at hr
    cases hr
    rw [parseUpdates_flatMap] at hp
    exact ⟨hlt, (Option.some.inj hp).symm⟩
  · intro h
    obtain ⟨hlt, rfl⟩ := h
    have hu := unpack_packet hlt []
    rw [List.append_nil] at hu
    exact ⟨_, _, hu, receive_updates l, parseUpdates_flatMap l⟩

theorem finished_iff {gas_left ret_code : BitVec 64} {output : Bytes} :
    (∃ data gas code out, unpack (finishedWrite gas_left ret_code output) = some (data, []) ∧
      receive data = .finished gas code out ∧
      (status_code code.toInt).isSome = true) ↔ 26 + output.length < 2 ^ 32 ∧
        (status_code ret_code.toInt).isSome = true := by
  have hlen : (finishedBody gas_left ret_code output).length = 26 + output.length := by
    simp only [finishedBody, List.length_cons, List.length_append, le_length]
    omega
  rw [finishedWrite_eq, ← hlen]
  refine ⟨?_, ?_⟩
  · intro h
    obtain ⟨data, gas, code, out, hu, hr, hs⟩ := h
    obtain ⟨rfl, hlt⟩ := unpack_exact hu
    rw [receive_finished _ _ _ (by omega)] at hr
    cases hr
    exact ⟨hlt, hs⟩
  · intro h
    obtain ⟨hlt, hs⟩ := h
    have hu := unpack_packet hlt []
    rw [List.append_nil] at hu
    exact ⟨_, _, _, _, hu, receive_finished _ _ _ (by omega), hs⟩

theorem call_arrives {msg msg' : Message} {data : Bytes} (hu : unpack msg.write = some (data, []))
    (hr : receive data = .call msg') :
    msg.size < 2 ^ 32 ∧ msg' = { msg with static := false } := by
  rw [Message.write_eq] at hu
  obtain ⟨rfl, hlt⟩ := unpack_exact hu
  rw [receive_call msg (by omega)] at hr
  cases hr
  exact ⟨by rw [← Message.length_body]; exact hlt, rfl⟩

theorem arrives_call {msg : Message} (h : msg.size < 2 ^ 32) :
    ∃ data, unpack msg.write = some (data, []) ∧ receive data = .call { msg with static := false } := by
  rw [← Message.length_body] at h
  have hu := unpack_packet h []
  rw [List.append_nil, ← Message.write_eq] at hu
  exact ⟨_, hu, receive_call msg (by omega)⟩

/-- Nothing that serves a call looks at its flags. -/
theorem Task.Entered.unflagged {s : State} {task : Task} {msg : Message} {evm1 : Evm} {s1 : State} :
    Task.Entered e s task { msg with static := false } evm1 s1 ↔ Task.Entered e s task msg evm1 s1 := by
  obtain ⟨kind, static, sender, destination, value, input, gas, salt⟩ := msg
  refine ⟨?_, ?_⟩
  · intro h
    cases h with
    | call _ hk ht => exact .call _ hk ht
    | create account _ _ hk ho ha h1 h2 => exact .create account _ _ hk ho ha h1 h2
  · intro h
    cases h with
    | call _ hk ht => exact .call _ hk ht
    | create account _ _ hk ho ha h1 h2 => exact .create account _ _ hk ho ha h1 h2

/-- A run that meets its conditions is in lock-step, and hands over. -/
theorem inStep_of_meets : ∀ (script : Script) {evm : Evm} {s : State}, Meets e script evm s →
    InStep e script evm s ∧ Handed (fun out => out.length < 2 ^ 32) (Evm.loop e script evm s)
  | .done updates gas_left ret_code output, evm, s, h => by
    obtain ⟨h1, h2, h3⟩ := h
    refine ⟨⟨⟨updates, arrives_iff.2 ⟨h1, rfl⟩⟩, finished_iff.2 ⟨h2, h3⟩⟩, ?_⟩
    obtain ⟨status, hs⟩ := Option.isSome_iff_exists.1 h3
    unfold Evm.loop
    dsimp only
    rw [hs]
    exact ⟨_, _, _, output, rfl, rfl, Nat.lt_of_le_of_lt (Nat.le_add_left ..) h2⟩
  | .callback m next, evm, s, h => by
    obtain ⟨h1, h2, h3⟩ := h
    obtain ⟨replies, evm', hp, -, -⟩ := process_data_read h2
    refine ⟨⟨exchange_iff.2 ⟨h1, h2⟩, fun replies evm' hp => (inStep_of_meets next (h3 replies evm' hp)).1⟩, ?_⟩
    unfold Evm.loop
    rw [hp]
    exact (inStep_of_meets next (h3 replies evm' hp)).2
  | .call msg updates child next, evm, s, h => by
    obtain ⟨h1, h2, h3, h4, h5⟩ := h
    obtain ⟨tag, evm2, s2, out, hcall, hout, hlt⟩ :=
      Task.call_contract_handed (fun _ h => Nat.lt_of_le_of_lt h (by decide)) h3 fun evm1 s1 hst =>
        (inStep_of_meets child (h4 evm1 s1 hst)).2
    obtain ⟨hnext, hhand⟩ := inStep_of_meets next (h5 tag evm2 s2 hcall)
    obtain ⟨data, hu, hr⟩ := arrives_call h1
    refine ⟨?_, ?_⟩
    · refine ⟨data, _, updates, hu, hr, arrives_iff.2 ⟨h2, rfl⟩, ?_, tag, evm2, s2, out, hcall, hout,
        call_reply_read evm2 hlt evm.task s2, hnext⟩
      intro evm1 s1 hst
      exact (inStep_of_meets child (h4 evm1 s1 ⟨Task.Entered.unflagged.1 hst.1, hst.2⟩)).1
    · unfold Evm.loop
      dsimp only
      rw [hcall, Option.bind_eq_bind, Option.bind_some, hout]
      exact hhand

/-- A run in lock-step meets its conditions. -/
theorem meets_of_inStep : ∀ (script : Script) {evm : Evm} {s : State}, InStep e script evm s →
    Meets e script evm s
  | .done updates gas_left ret_code output, evm, s, h => by
    obtain ⟨⟨l, hl⟩, h2⟩ := h
    obtain ⟨h2, h3⟩ := finished_iff.1 h2
    exact ⟨(arrives_iff.1 hl).1, h2, h3⟩
  | .callback m next, evm, s, h => by
    obtain ⟨h1, h2⟩ := h
    obtain ⟨hsize, hserved⟩ := exchange_iff.1 h1
    exact ⟨hsize, hserved, fun replies evm' hp => meets_of_inStep next (h2 replies evm' hp)⟩
  | .call msg updates child next, evm, s, h => by
    obtain ⟨data, msg', l, hu, hr, hl, hchild, tag, evm2, s2, out, hcall, hout, -, hnext⟩ := h
    obtain ⟨hsize, rfl⟩ := call_arrives hu hr
    obtain ⟨hflush, rfl⟩ := arrives_iff.1 hl
    -- the flags are not looked at
    have hcall' : evm.task.call_contract e (Evm.loop e child) (s.process_updates l) msg = some
      (tag, evm2, s2) := hcall
    refine ⟨hsize, hflush, Task.callable_of_call hcall' (by rw [hout]; rfl), ?_, ?_⟩
    · intro evm1 s1 hst
      exact meets_of_inStep child (hchild evm1 s1 ⟨Task.Entered.unflagged.2 hst.1, hst.2⟩)
    · intro tag' evm2' s2' h'
      rw [hcall'] at h'
      cases h'
      exact meets_of_inStep next hnext

/-- **Lock-step.** A run stays in lock-step exactly when every message of it
meets its condition. -/
theorem lock_step_iff (e : Env) (script : Script) (evm : Evm) (s : State) : InStep e script evm s ↔
    Meets e script evm s :=
  ⟨meets_of_inStep script, fun h => (inStep_of_meets script h).1⟩

end

/-- Account 5 runs code that makes a callback in block 1. -/
def callbackTask : Task := ⟨false, 7, ⟨0, 0, 9, some 5, 0, none, [], none, none⟩, [0x00], 1, false, []⟩

/-- A log without topics, code copied from behind its end, and the hash of the
current block, which has none yet: the handler raises at each of them. -/
theorem out_of_step :
    ¬InStep Env.plain (.callback (.emit_log 5 [] []) (.done [] 0 0 [])) callbackTask.evm State.empty ∧
      ¬InStep Env.plain (.callback (.copy_code 5 1 1) (.done [] 0 0 [])) callbackTask.evm State.empty ∧
      ¬InStep Env.plain (.callback (.get_block_hash 1) (.done [] 0 0 [])) callbackTask.evm
        State.empty := by
  refine ⟨?_, ?_, ?_⟩
  · intro h
    exact (exchange_iff.1 h.1).2 rfl
  · intro h
    have hle : (1 : BitVec 64).toNat ≤ (State.empty.ensure_account 5).code.length :=
      (exchange_iff.1 h.1).2
    exact absurd hle (by decide)
  · intro h
    have hknown := (exchange_iff.1 h.1).2 (by decide) (by decide)
    nomatch hknown

end Diode.L4
