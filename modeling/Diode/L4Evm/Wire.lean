import Diode.L4Evm.Evm

/-!
# Messages between the host and its handler

evm/host.cpp writes a message field by field behind a length it has computed
beforehand, and reads the answer field by field; lib/evm.ex takes a message
apart with one binary pattern for each kind. The two sides share no
description of the messages, so each is written down here as it stands, and
`receive_callback`, `receive_call`, `receive_updates`, `receive_finished` say
that the patterns fit what is written.

The flags of a nested call are not among its fields: what the handler sees has
none (`receive_call`).
-/
namespace Diode.L4
open Diode.Core Diode.L1.Packet Diode.L3

/-! ## What the host writes -/

namespace Callback

/-- The argument of `nwrite`.
mirrors evm/host.cpp:43-316 -/
def size : Callback → Nat
  | .account_exists _ => 2 + 20
  | .get_storage _ _ => 2 + 20 + 32
  | .get_balance _ => 2 + 20
  | .get_code_size _ => 2 + 20
  | .get_code_hash _ => 2 + 20
  | .copy_code _ _ _ => 2 + 20 + 8 + 8
  | .selfdestruct _ _ => 2 + 20 + 20
  | .get_block_hash _ => 2 + 8
  | .emit_log _ data topics => 2 + 20 + 8 + data.length + 8 + topics.length * 32

/-- mirrors evm/host.cpp:43-316 -/
def body : Callback → Bytes
  | .account_exists addr => 0x61 :: 0x65 :: Addr.bytes addr
  | .get_storage addr key => 0x67 :: 0x73 :: (Addr.bytes addr ++ Word.bytes key)
  | .get_balance addr => 0x67 :: 0x62 :: Addr.bytes addr
  | .get_code_size addr => 0x67 :: 0x63 :: Addr.bytes addr
  | .get_code_hash addr => 0x67 :: 0x64 :: Addr.bytes addr
  | .copy_code addr offset size =>
      0x63 :: 0x63 :: (Addr.bytes addr ++ (le 8 offset.toNat ++ le 8 size.toNat))
  | .selfdestruct addr beneficiary => 0x73 :: 0x64 :: (Addr.bytes addr ++ Addr.bytes beneficiary)
  | .get_block_hash number => 0x67 :: 0x68 :: le 8 number.toNat
  | .emit_log addr data topics =>
    0x6C :: 0x6F :: (Addr.bytes addr ++
      (le 8 data.length ++ (data ++ (le 8 topics.length ++ topics.flatMap Word.bytes))))

def write (m : Callback) : Bytes := packetOf m.size m.body

end Callback

namespace Message

def size (msg : Message) : Nat := 2 + 8 + 20 + 20 + 32 + 8 + msg.input.length + 8 + 32

/-- evm/evmc/evmc.h `evmc_call_kind` -/
def kindCode : CallKind → Nat
  | .call => 0
  | .delegatecall => 1
  | .callcode => 2
  | .create => 3
  | .create2 => 4

/-- mirrors evm/host.cpp:231-249 -/
def body (msg : Message) : Bytes :=
  0x63 :: 0x61 :: (le 8 (kindCode msg.kind) ++
    (Addr.bytes msg.sender ++ (Addr.bytes msg.destination ++ (Word.bytes msg.value ++
    (le 8 msg.input.length ++ (msg.input ++ (le 8 msg.gas.toNat ++ Word.bytes msg.create2_salt)))))))

def write (msg : Message) : Bytes := packetOf msg.size msg.body

end Message

/-- One entry of the write cache. -/
def updateBytes (u : Slot × Word) : Bytes := Addr.bytes u.1.1 ++ (Word.bytes u.1.2 ++ Word.bytes u.2)

/-- mirrors evm/host.cpp:108-123 -/
def updatesBody (l : Updates) : Bytes := 0x73 :: 0x75 :: l.flatMap updateBytes

def updatesWrite (l : Updates) : Bytes := packetOf (2 + l.length * (20 + 32 + 32)) (updatesBody l)

/-- mirrors evm/main.cpp:64-76 -/
def finishedBody (gas_left ret_code : BitVec 64) (output : Bytes) : Bytes :=
  0x6F :: 0x6B :: (le 8 gas_left.toNat ++ (le 8 ret_code.toNat ++ (le 8 output.length ++ output)))

def finishedWrite (gas_left ret_code : BitVec 64) (output : Bytes) : Bytes :=
  packetOf (2 + 8 + 8 + 8 + output.length) (finishedBody gas_left ret_code output)

/-! ## The patterns of the handler -/

/-- What a binary is to `process_data`. -/
inductive Input where
  | callback (m : Callback)
  | updates (rest : Bytes)
  | call (msg : Message)
  | finished (gas_left ret_code : BitVec 64) (output : Bytes)
  | raises
  /-- printed, and not answered -/
  | other

/-- `for n <- 1..count, do: binary_part(topics, (n - 1) * 32, 32)` -/
def words : Nat → Bytes → List Word
  | 0, _ => []
  | n + 1, b => BitVec.ofNat 256 (ofBe (b.take 32)) :: words n (b.drop 32)

/-- mirrors lib/evm.ex:675-682 -/
def callKind (kind : Int) : Option CallKind :=
  match kind with
  | 0 => some .call
  | 1 => some .delegatecall
  | 2 => some .callcode
  | 3 => some .create
  | 4 => some .create2
  | _ => none

/-- The message of a nested call; its fields name no flags. -/
def receiveCall (b : Bytes) : Option Input := do
  let (kind, b) ← u64 b
  let (sender, b) ← address b
  let (destination, b) ← address b
  let (value, b) ← word b
  let (len, b) ← u64 b
  let (input, b) ← cut len.toNat b
  let (gas, b) ← u64 b
  let salt ← last (word b)
  match callKind kind.toInt with
  | none => some .raises
  | some kind => some (.call ⟨kind, false, sender, destination, value, input, gas, salt⟩)

def receiveLog (b : Bytes) : Option Input := do
  let (addr, b) ← address b
  let (size, b) ← u64 b
  let (data, b) ← cut size.toNat b
  let (count, topics) ← u64 b
  if topics.length < 32 * count.toNat then some .raises else some (.callback (.emit_log addr data (words count.toNat topics)))

def receiveFinished (b : Bytes) : Option Input := do
  let (gas_left, b) ← u64 b
  let (ret_code, b) ← u64 b
  let (len, b) ← u64 b
  let output ← last (cut len.toNat b)
  some (.finished gas_left ret_code output)

def receiveCopy (b : Bytes) : Option Input := do
  let (addr, b) ← address b
  let (offset, b) ← u64 b
  let size ← last (u64 b)
  some (.callback (.copy_code addr offset size))

/-- The clauses of `process_data` by the two bytes they start with.
mirrors lib/evm.ex:536-744 -/
def receive : Bytes → Input
  | 0x6F :: 0x6B :: b => (receiveFinished b).getD .other
  | 0x67 :: 0x73 :: b => ((address b).bind fun (addr, b) => (last (word b)).map fun key =>
      Input.callback (.get_storage addr key)).getD .other
  | 0x73 :: 0x75 :: rest => .updates rest
  | 0x61 :: 0x65 :: b => ((last (address b)).map fun addr => Input.callback
      (.account_exists addr)).getD .other
  | 0x67 :: 0x62 :: b => ((last (address b)).map fun addr => Input.callback
      (.get_balance addr)).getD .other
  | 0x67 :: 0x63 :: b => ((last (address b)).map fun addr => Input.callback
      (.get_code_size addr)).getD .other
  | 0x67 :: 0x64 :: b => ((last (address b)).map fun addr => Input.callback
      (.get_code_hash addr)).getD .other
  | 0x63 :: 0x63 :: b => (receiveCopy b).getD .other
  | 0x73 :: 0x64 :: b =>
    ((address b).bind fun (addr, b) => (last (address b)).map fun ben => Input.callback
      (.selfdestruct addr ben)).getD .other
  | 0x67 :: 0x68 :: b => ((last (u64 b)).map fun number => Input.callback
      (.get_block_hash number)).getD .other
  | 0x63 :: 0x61 :: b => (receiveCall b).getD .other
  | 0x6C :: 0x6F :: b => (receiveLog b).getD .other
  | _ => .other

/-- The patterns of `parse_map`; `none` where no clause fits.
mirrors lib/evm.ex:751-763 -/
def parse_updates : Nat → Bytes → Option Updates
  | 0, b => if b = [] then some [] else none
  | n + 1, b => do
    let (addr, b) ← address b
    let (key, b) ← word b
    let (value, b) ← word b
    let l ← parse_updates n b
    some (((addr, key), value) :: l)

/-- An update has 84 bytes. -/
def parseUpdates (rest : Bytes) : Option Updates := parse_updates (rest.length / 84) rest

/-! ## The patterns fit -/

theorem last_address (a : Addr) : last (address (Addr.bytes a)) = some a := by
  rw [← List.append_nil (Addr.bytes a), address_bytes, last]

theorem last_word (w : Word) : last (word (Word.bytes w)) = some w := by
  rw [← List.append_nil (Word.bytes w), word_bytes, last]

theorem last_u64 (n : Nat) : last (u64 (le 8 n)) = some (BitVec.ofNat 64 n) := by
  rw [← List.append_nil (le 8 n), u64_le, last]

theorem last_cut (b : Bytes) : last (cut b.length b) = some b := by
  have h : cut b.length (b ++ []) = some (b, []) := cut_append rfl []
  rw [List.append_nil] at h
  rw [h, last]

theorem toNat_of_lt {n : Nat} (h : n < 2 ^ 64) : (BitVec.ofNat 64 n).toNat = n := by
  rw [BitVec.toNat_ofNat, Nat.mod_eq_of_lt h]

theorem length_topics (topics : List Word) : (topics.flatMap Word.bytes).length =
    32 * topics.length := by
  induction topics with
  | nil => rfl
  | cons w topics ih =>
    rw [List.flatMap_cons, List.length_append, ih, Word.bytes_length, List.length_cons]
    omega

theorem words_topics (topics : List Word) :
    words topics.length (topics.flatMap Word.bytes) = topics := by
  induction topics with
  | nil => rfl
  | cons w topics ih =>
    have h := Word.bytes_length w
    rw [List.flatMap_cons, List.length_cons, words, List.take_append_of_le_length (by omega),
      List.take_of_length_le (by omega),
      List.drop_append_of_le_length (by omega), List.drop_of_length_le (by omega), List.nil_append,
        ih, Word.ofBe_bytes]

theorem Callback.length_body (m : Callback) : m.body.length = m.size := by
  cases m with
  | emit_log addr data topics =>
    simp only [body, size, List.length_cons, List.length_append, Addr.bytes_length, le_length,
      length_topics]
    omega
  | _ => simp [body, size]

theorem Callback.write_eq (m : Callback) : m.write = packet m.body := by rw [write, packet, length_body]

/-- **A callback arrives as it was made.** -/
theorem receive_callback (m : Callback) (h : m.body.length < 2 ^ 64) : receive m.body = .callback m := by
  cases m with
  | emit_log addr data topics =>
    have hlen := length_topics topics
    simp only [Callback.body, List.length_cons, List.length_append, Addr.bytes_length, le_length] at h
    have hd : data.length < 2 ^ 64 := by omega
    have ht : topics.length < 2 ^ 64 := by omega
    simp only [Callback.body, receive, receiveLog, address_bytes, u64_le, Option.bind_eq_bind,
      Option.bind_some, toNat_of_lt hd,
      cut_append rfl, toNat_of_lt ht, hlen, Nat.lt_irrefl, if_false, words_topics, Option.getD_some]
  | copy_code addr offset size =>
    simp only [Callback.body, receive, receiveCopy, address_bytes, u64_le, Option.bind_eq_bind,
      Option.bind_some, last_u64,
      BitVec.ofNat_toNat, BitVec.setWidth_eq, Option.getD_some]
  | get_block_hash number =>
    simp only [Callback.body, receive, last_u64, Option.map_some, BitVec.ofNat_toNat,
      BitVec.setWidth_eq, Option.getD_some]
  | _ =>
    simp only [Callback.body, receive, address_bytes, last_address, last_word, Option.bind_some,
      Option.map_some,
      Option.getD_some]

theorem Message.length_body (msg : Message) : msg.body.length = msg.size := by
  simp only [body, size, List.length_cons, List.length_append, Addr.bytes_length,
    Word.bytes_length, le_length]
  omega

theorem Message.write_eq (msg : Message) : msg.write = packet msg.body := by
  rw [write, packet, length_body]

/-- **A nested call arrives without its flags.** -/
theorem receive_call (msg : Message) (h : msg.body.length < 2 ^ 64) : receive msg.body = .call
    { msg with static := false } := by
  simp only [Message.body, List.length_cons, List.length_append, Addr.bytes_length,
    Word.bytes_length, le_length] at h
  have hl : msg.input.length < 2 ^ 64 := by omega
  have hk : callKind (BitVec.ofNat 64 (Message.kindCode msg.kind)).toInt = some msg.kind := by
    cases msg.kind <;> rfl
  simp only [Message.body, receive, receiveCall, u64_le, address_bytes, word_bytes,
    Option.bind_eq_bind, Option.bind_some,
    toNat_of_lt hl, cut_append rfl, last_word, hk, BitVec.ofNat_toNat, BitVec.setWidth_eq,
      Option.getD_some]

theorem length_updates (l : Updates) : (l.flatMap updateBytes).length = 84 * l.length := by
  induction l with
  | nil => rfl
  | cons u l ih =>
    rw [List.flatMap_cons, List.length_append, ih, updateBytes, List.length_append,
      List.length_append, Addr.bytes_length,
      Word.bytes_length, Word.bytes_length, List.length_cons]
    omega

theorem updatesWrite_eq (l : Updates) : updatesWrite l = packet (updatesBody l) := by
  rw [updatesWrite, packet, updatesBody, List.length_cons, List.length_cons, length_updates]
  congr 1
  omega

theorem receive_updates (l : Updates) : receive (updatesBody l) = .updates
    (l.flatMap updateBytes) := rfl

theorem parse_updates_flatMap (l : Updates) : parse_updates l.length
    (l.flatMap updateBytes) = some l := by
  induction l with
  | nil => rfl
  | cons u l ih =>
    simp only [List.flatMap_cons, List.length_cons, parse_updates, updateBytes, List.append_assoc,
      address_bytes, word_bytes,
      Option.bind_eq_bind, Option.bind_some, ih]

theorem parseUpdates_flatMap (l : Updates) : parseUpdates (l.flatMap updateBytes) = some l := by
  rw [parseUpdates, length_updates, Nat.mul_div_cancel_left _ (by decide)]
  exact parse_updates_flatMap l

theorem finishedWrite_eq (gas_left ret_code : BitVec 64) (output : Bytes) :
    finishedWrite gas_left ret_code output = packet (finishedBody gas_left ret_code output) := by
  rw [finishedWrite, packet, finishedBody]
  congr 1
  simp only [List.length_cons, List.length_append, le_length]
  omega

theorem receive_finished (gas_left ret_code : BitVec 64) (output : Bytes) (h : output.length < 2 ^ 64) :
    receive (finishedBody gas_left ret_code output) = .finished gas_left ret_code output := by
  simp only [finishedBody, receive, receiveFinished, u64_le, Option.bind_eq_bind, Option.bind_some,
    toNat_of_lt h, last_cut,
    BitVec.ofNat_toNat, BitVec.setWidth_eq, Option.getD_some]

end Diode.L4
