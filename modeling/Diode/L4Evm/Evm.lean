import Diode.L1Encoding.Packet
import Diode.L1Encoding.Rlp
import Diode.L4Evm.Accounts
import Diode.L4Evm.HostCache
import Diode.L4Evm.Transaction

/-!
# `Evm` and `Evm.Task`: frames on the Elixir side

A frame is an interpreter process and the Elixir loop that serves it. What the
interpreter does is a `Script`: the callbacks it makes, its nested calls with
the script of the frame each of them starts, and how it ends. A claim about
every run is a statement about every script.

`process_data` answers a callback, `call_contract` serves a nested call, `loop`
is the life of a frame, `eval` adds the settlement of the accounts destroyed in
it. `none` is a raise. Every `chain_state` of a run is the same native map, so
the functions take the current `State` and leave the next; what the source
calls the old state is that map as well.

Not modelled: time-outs and crashes of the interpreter, traces, statistics,
the fields of the block that only go into the context message.
-/
namespace Diode.L4
open Diode.Core Diode.L1.Packet Diode.L3

/-! ## Status codes -/

/-- mirrors lib/evm.ex:763-782 -/
inductive Status where
  | evmc_success | evmc_failure | evmc_revert | evmc_out_of_gas | evmc_invalid_instruction | evmc_undefined_instruction
  | evmc_stack_overflow | evmc_stack_underflow | evmc_bad_jump_destination | evmc_invalid_memory_access
  | evmc_call_depth_exceeded | evmc_static_mode_violation | evmc_precompile_failure | evmc_validation_failure
  | evmc_argument_out_of_range | evmc_wasm_unreachable_instruction | evmc_wasm_trap
  | evmc_internal_error | evmc_rejected | evmc_out_of_memory
  deriving DecidableEq, Repr

/-- mirrors lib/evm.ex:763-782 -/
def status_code (ret_code : Int) : Option Status :=
  match ret_code with
  | 0 => some .evmc_success
  | 1 => some .evmc_failure
  | 2 => some .evmc_revert
  | 3 => some .evmc_out_of_gas
  | 4 => some .evmc_invalid_instruction
  | 5 => some .evmc_undefined_instruction
  | 6 => some .evmc_stack_overflow
  | 7 => some .evmc_stack_underflow
  | 8 => some .evmc_bad_jump_destination
  | 9 => some .evmc_invalid_memory_access
  | 10 => some .evmc_call_depth_exceeded
  | 11 => some .evmc_static_mode_violation
  | 12 => some .evmc_precompile_failure
  | 13 => some .evmc_validation_failure
  | 14 => some .evmc_argument_out_of_range
  | 15 => some .evmc_wasm_unreachable_instruction
  | 16 => some .evmc_wasm_trap
  | -1 => some .evmc_internal_error
  | -2 => some .evmc_rejected
  | -3 => some .evmc_out_of_memory
  | _ => none

/-- mirrors lib/evm.ex:783-802 -/
def status_atom : Status → Int
  | .evmc_success => 0
  | .evmc_failure => 1
  | .evmc_revert => 2
  | .evmc_out_of_gas => 3
  | .evmc_invalid_instruction => 4
  | .evmc_undefined_instruction => 5
  | .evmc_stack_overflow => 6
  | .evmc_stack_underflow => 7
  | .evmc_bad_jump_destination => 8
  | .evmc_invalid_memory_access => 9
  | .evmc_call_depth_exceeded => 10
  | .evmc_static_mode_violation => 11
  | .evmc_precompile_failure => 12
  | .evmc_validation_failure => 13
  | .evmc_argument_out_of_range => 14
  | .evmc_wasm_unreachable_instruction => 15
  | .evmc_wasm_trap => 16
  | .evmc_internal_error => -1
  | .evmc_rejected => -2
  | .evmc_out_of_memory => -3

/-! ## What the host sends -/

/-- evm/evmc/evmc.h `evmc_call_kind`; `STATICCALL` is `call` with the static flag. -/
inductive CallKind where
  | call | delegatecall | callcode | create | create2
  deriving DecidableEq, Repr

/-- The fields of `evmc_message` that `Host::call` is given. -/
structure Message where
  kind : CallKind
  static : Bool
  sender : Addr
  destination : Addr
  value : Word
  input : Bytes
  gas : BitVec 64
  create2_salt : Word

def Message.creates (msg : Message) : Bool := msg.kind = .create ∨ msg.kind = .create2

/-- The callbacks of evm/host.cpp that neither flush nor call. -/
inductive Callback where
  | account_exists (addr : Addr)
  | get_storage (addr : Addr) (key : Word)
  | get_balance (addr : Addr)
  | get_code_size (addr : Addr)
  | get_code_hash (addr : Addr)
  | copy_code (addr : Addr) (offset size : BitVec 64)
  | selfdestruct (addr beneficiary : Addr)
  | get_block_hash (number : BitVec 64)
  | emit_log (addr : Addr) (data : Bytes) (topics : List Word)

/-- What an interpreter does between its start and its end. A frame flushes its
storage with every call and once more before it ends. -/
inductive Script where
  | done (updates : Updates) (gas_left : BitVec 64) (ret_code : BitVec 64) (output : Bytes)
  | callback (m : Callback) (next : Script)
  | call (msg : Message) (updates : Updates) (child next : Script)

/-! ## Precompiled contracts -/

/-- What a frame takes from outside: the chain definition of a block height,
the hash of a block, hash functions and signature recovery (`ecrecover` gives
zero where the recovery fails). -/
structure Env where
  get_block_hash_limit : Nat → Nat
  allow_contract_override : Nat → Bool
  double_spend_delegatecall : Nat → Bool
  blockhash : Int → Option Word
  origin : Transaction → Addr
  keccak_256 : Bytes → Word
  hash : Bytes → Word
  sha2_256 : Bytes → Word
  ripemd160 : Bytes → Addr
  ecrecover : Bytes → Bytes → Addr
  read_ahead : Int

/-- No block is known and every hash is zero: enough for runs that ask for
neither. -/
def Env.plain : Env where
  get_block_hash_limit _ := 256
  allow_contract_override _ := false
  double_spend_delegatecall _ := false
  blockhash _ := none
  origin _ := 0
  keccak_256 _ := 0
  hash _ := 0
  sha2_256 _ := 0
  ripemd160 _ := 0
  ecrecover _ _ := 0
  read_ahead := 10

inductive PreCompile where
  | ecrecover | sha256 | ripemd160 | copy
  deriving DecidableEq, Repr

namespace PreCompile

/-- mirrors lib/precompiles.ex:5-12 -/
def get : Nat → Option PreCompile
  | 1 => some .ecrecover
  | 2 => some .sha256
  | 3 => some .ripemd160
  | 4 => some .copy
  | _ => none

/-- mirrors lib/precompiles.ex:14-53 -/
def gas (input : Bytes) : PreCompile → Nat
  | .ecrecover => 3000
  | .sha256 => (input.length + 31) / 32 * 12 + 60
  | .ripemd160 => (input.length + 31) / 32 * 120 + 600
  | .copy => (input.length + 31) / 32 * 3 + 15

/-- The only clause of `ecrecover(:run, _)` wants 128 bytes, the second word
below 256.
mirrors lib/precompiles.ex:18-55 -/
def run (e : Env) (input : Bytes) : PreCompile → Option Bytes
  | .ecrecover =>
    if 128 ≤ input.length ∧ (input.drop 32).take 31 = List.replicate 31 0 then
      some (Addr.bytes (e.ecrecover (input.take 32) ((input.drop 63).take 65)))
    else none
  | .sha256 => some (Word.bytes (e.sha2_256 input))
  | .ripemd160 => some (Addr.bytes (e.ripemd160 input))
  | .copy => some input

end PreCompile

/-! ## Tasks -/

namespace Transaction

/-- `Rlp.encode!([address, nonce]) |> Hash.keccak_256() |> Hash.to_address()`. -/
def contractAddress (e : Env) (address : Addr) (nonce : Nat) : Addr :=
  (e.keccak_256 (L1.Rlp.lengthPrefix 0xC0 (L1.Rlp.encodeBytes (Addr.bytes address) ++
    L1.Rlp.encodeBytes (L1.Rlp.unsigned nonce)))).setWidth 160

/-- `to/1`, lib/chain/transaction.ex:33-34,116-127 -/
def to_address (e : Env) (tx : Transaction) : Addr :=
    tx.to_addr.getD (contractAddress e (e.origin tx) tx.nonce)

end Transaction

/-- mirrors lib/evm.ex:25-41 -/
structure Task where
  static : Bool
  source : Addr
  tx : Transaction
  code : Bytes
  number : Nat
  internal : Bool
  selfdestructs : List (Addr × Term)

/-- `gas` is an integer of any size; `out` is `nil` until a frame has one.
`refund` is never set.
mirrors lib/evm.ex:10-22 -/
structure Evm where
  task : Task
  gas : Int
  refund : Option Int
  selfdestruct : Option Term
  out : Option Bytes
  logs : List (Addr × List Word × Bytes)
  msg : Status
  create_address : Addr

def GTXCREATE : Nat := 32000
def GTXDATAZERO : Nat := 4
def GTXDATANONZERO : Nat := 68
def GTRANSACTION : Nat := 21000
def GCODEDEPOSIT : Nat := 200

/-- What a transaction costs before its code runs. -/
def Transaction.intrinsic (tx : Transaction) : Nat :=
  tx.payload.count 0 * GTXDATAZERO + (tx.payload.length - tx.payload.count 0) * GTXDATANONZERO +
    (if tx.contract_creation then GTXCREATE else 0) + GTRANSACTION

namespace Task

def address (e : Env) (task : Task) : Addr := task.tx.to_address e

/-- mirrors lib/evm.ex:231-252 -/
def gas (task : Task) : Int :=
  if task.internal then task.tx.gasLimit else (task.tx.gasLimit : Int) - task.tx.intrinsic

/-- mirrors lib/evm.ex:254-256 -/
def evm (task : Task) : Evm := ⟨task, task.gas, none, none, none, [], .evmc_success, 0⟩

end Task

/-- A tagged result; `:ok` is `evmc_success`. -/
abbrev Ret := Status × Evm × State

/-! ## Callbacks -/

namespace Evm

/-- The packets sent in answer to a callback, and the frame after it.
mirrors lib/evm.ex:552-664,730-740 -/
def process_data (e : Env) (evm : Evm) (s : State) : Callback → Option (List Bytes × Evm)
  | .get_storage addr key =>
    let entries := s.storage_get_range addr key (readCount e.read_ahead)
    some ([be 1 entries.length ++ entries.flatMap fun d => Word.bytes d.1 ++ Word.bytes d.2], evm)
  | .account_exists addr => some ([le 8 (if (s.account addr).isSome then 1 else 0)], evm)
  | .get_balance addr => some ([be 32 (s.balance addr)], evm)
  | .get_code_size addr => some ([le 8 (s.ensure_account addr).code.length], evm)
  | .get_code_hash addr => some ([Word.bytes (e.hash (s.ensure_account addr).code)], evm)
  | .copy_code addr offset size =>
    let code := (s.ensure_account addr).code
    -- `length` is negative behind the end of the code
    let length := min (size.toNat : Int) (code.length - offset.toNat)
    if 0 ≤ length then some ([le 8 length.toNat ++ (code.drop offset.toNat).take length.toNat],
      evm) else none
  | .selfdestruct _ ben => some ([], { evm with selfdestruct := some (.ofAddr ben) })
  | .get_block_hash number =>
    let blockheight : Int := evm.task.number
    let minimum := max 0 (blockheight - e.get_block_hash_limit evm.task.number)
    if number.toInt < minimum ∨ blockheight < number.toInt then some ([be 32 0], evm)
    else (e.blockhash number.toInt).map fun hash => ([Word.bytes hash], evm)
  | .emit_log addr data topics =>
    -- `1..0` counts downwards, and there is no first topic to cut out
    if topics = [] then none else some ([], { evm with logs := evm.logs ++ [(addr, topics, data)] })

end Evm

/-! ## Frames -/

/-- `min` with `nil`, which is above every number. -/
def minTerm (n : Int) : Option Int → Int
  | none => n
  | some r => min n r

section
variable (e : Env)

namespace Evm

/-- mirrors lib/evm.ex:367-377 -/
def eval_internal_precompile (evm : Evm) (s : State) (fn : PreCompile) : Option Ret :=
  let input := evm.task.tx.payload
  if evm.gas < fn.gas input then some
    (.evmc_out_of_gas, { evm with gas := 0, msg := .evmc_out_of_gas }, s)
  else (fn.run e input).map fun result =>
    (.evmc_success, { evm with
      out := some (((List.replicate 32 0 ++ result).drop result.length).take 32), gas :=
        evm.gas - fn.gas input }, s)

/-- What becomes of the result of the interpreter.
mirrors lib/evm.ex:379-417 -/
def settle_frame (ret : Ret) : Ret :=
  match ret with
  | (.evmc_success, evm2, s) =>
    let task := evm2.task
    let maxRefund := (task.gas - evm2.gas).tdiv 2
    let evm2 := { evm2 with gas := evm2.gas + minTerm maxRefund evm2.refund }
    let evm2 := match evm2.selfdestruct with
      | none => evm2
      | some ben => { evm2 with task :=
          { task with selfdestructs := (task.address e, ben) :: task.selfdestructs } }
    match evm2.out with
    | none => (.evmc_success, evm2, s)
    | some bin =>
      let deposit : Int := bin.length * GCODEDEPOSIT
      if deposit < evm2.gas then (.evmc_success, { evm2 with gas := evm2.gas - deposit }, s)
      else (.evmc_out_of_gas, { evm2 with gas := 0, msg := .evmc_out_of_gas }, s)
  | ret => ret

/-- mirrors lib/evm.ex:352-377; `do_eval` runs the interpreter. -/
def eval_internal (do_eval : Evm → State → Option Ret) (evm : Evm) (s : State) : Option Ret :=
  if evm.task.code = [] then
    match PreCompile.get (evm.task.address e).toNat with
    | none => some (.evmc_success, { evm with out := some [] }, s)
    | some fn => evm.eval_internal_precompile e s fn
  else (do_eval evm s).map (settle_frame e)

end Evm

namespace Task

/-- The value of a nested call changes hands. -/
def transfer (s : State) (source target : Addr) (value : Nat) : Option State := do
  let from_acc ← s.account source
  let to_acc := s.ensure_account target
  let s ← s.set_account source { from_acc with balance := from_acc.balance - value }
  s.set_account target { to_acc with balance := to_acc.balance + value }

/-- mirrors lib/evm.ex:109-161 -/
def do_call_contract (do_eval : Evm → State → Option Ret) (s : State) (target code : Addr)
    (gas value : Nat) (call_data : Bytes)
    (source : Addr) (task : Task) (kind : CallKind) : Option Ret := do
  let code := (s.ensure_account code).code
  let tx := { task.tx with gasLimit := gas, value := value, data := some call_data, to_addr := some target }
  let s ← if value = 0 ∨ source = target ∨ (kind = .delegatecall ∧ ¬e.double_spend_delegatecall task.number) then some s
    else transfer s source target value
  Evm.eval_internal e do_eval ({ task with tx, code, internal := true, source } : Task).evm s

/-- mirrors lib/evm.ex:163-226 -/
def do_create (do_eval : Evm → State → Option Ret) (s : State) (to_address : Addr) (value : Nat)
    (code : Bytes) (gas : Nat)
    (task : Task) : Option Ret := do
  let address := task.address e
  if (s.account to_address).isSome ∧ e.allow_contract_override task.number = false then
    some (.evmc_invalid_instruction, { task.evm with gas := 0, out := some [], msg :=
      .evmc_invalid_instruction }, s)
  else do
    let account ← s.account address
    let s ← s.set_account to_address (Record.new 1 value)
    let s ← s.set_account address { account with nonce := account.nonce + 1, balance :=
      account.balance - value }
    let tx := { task.tx with value := value, data := none, to_addr := some to_address, gasLimit := gas }
    let (tag, evm2, s) ← Evm.eval_internal e do_eval
      ({ task with tx, code, source := address } : Task).evm s
    if tag = .evmc_success then do
      let s ← match s.account to_address with
        | none => some s
        | some to_account => s.set_account to_address { to_account with code := evm2.out.getD [] }
      some (.evmc_success, { evm2 with create_address := to_address, out := some [] }, s)
    else some (tag, evm2, s)

/-- mirrors lib/evm.ex:62-107 -/
def call_contract (do_eval : Evm → State → Option Ret) (s : State) (task : Task) (msg : Message) : Option Ret :=
  let address := task.address e
  match msg.kind with
  | .create =>
    let to_address := Transaction.contractAddress e address (s.ensure_account address).nonce
    do_create e do_eval s to_address msg.value.toNat msg.input msg.gas.toNat task
  | .create2 =>
    let to_address := (e.keccak_256 (0xFF :: Addr.bytes address ++ Word.bytes msg.create2_salt ++
      Word.bytes (e.keccak_256 msg.input))).setWidth 160
    do_create e do_eval s to_address msg.value.toNat msg.input msg.gas.toNat task
  | .callcode => do_call_contract e do_eval s address msg.destination msg.gas.toNat msg.value.toNat msg.input address task .callcode
  | .delegatecall =>
    do_call_contract e do_eval s address msg.destination msg.gas.toNat msg.value.toNat msg.input task.source task .delegatecall
  | .call =>
    do_call_contract e do_eval s msg.destination msg.destination msg.gas.toNat msg.value.toNat msg.input address task .call

/-- The value of a call changes hands.
mirrors lib/evm.ex:133-147 -/
def Transfers (task : Task) (kind : CallKind) (source target : Addr) (value : Nat) : Prop :=
  value ≠ 0 ∧ source ≠ target ∧ (kind = .delegatecall → e.double_spend_delegatecall task.number = true)

instance (task : Task) (kind : CallKind) (source target : Addr) (value : Nat) :
    Decidable (Transfers e task kind source target value) :=
  inferInstanceAs (Decidable (_ ∧ _))

/-- Who pays and who is paid in a call. -/
def parties (task : Task) (msg : Message) : Addr × Addr :=
  match msg.kind with
  | .delegatecall => (task.source, task.address e)
  | .call => (task.address e, msg.destination)
  | _ => (task.address e, task.address e)

/-- The address a creation is for. -/
def created (s : State) (task : Task) (msg : Message) : Addr :=
  let address := task.address e
  match msg.kind with
  | .create2 => (e.keccak_256 (0xFF :: Addr.bytes address ++ Word.bytes msg.create2_salt ++
      Word.bytes (e.keccak_256 msg.input))).setWidth 160
  | _ => Transaction.contractAddress e address (s.ensure_account address).nonce

/-- The task of the frame a call starts. -/
def callee (s : State) (task : Task) (msg : Message) : Task :=
  { task with
    tx := { task.tx with
      gasLimit := msg.gas.toNat, value := msg.value.toNat, data := some msg.input, to_addr :=
        some (parties e task msg).2 }
    code := (s.ensure_account msg.destination).code, internal := true, source :=
      (parties e task msg).1 }

/-- The task of the frame a creation starts. -/
def creation (s : State) (task : Task) (msg : Message) : Task :=
  { task with
    tx := { task.tx with value := msg.value.toNat, data := none, to_addr := some (created e s task msg), gasLimit := msg.gas.toNat }
    code := msg.input, source := task.address e }

/-- **What `call_contract` can do.** -/
inductive Nested (do_eval : Evm → State → Option Ret) (s : State) (task : Task) (msg : Message) :
    Ret → Prop where
  | call (s1 : State) (ret : Ret) : msg.creates = false →
      (if Transfers e task msg.kind (parties e task msg).1 (parties e task msg).2 msg.value.toNat then
        transfer s (parties e task msg).1 (parties e task msg).2 msg.value.toNat =
          some s1 else s1 = s) →
      Evm.eval_internal e do_eval (callee e s task msg).evm s1 = some ret →
        Nested do_eval s task msg ret
  | refused : msg.creates = true → (s.account (created e s task msg)).isSome = true →
      e.allow_contract_override task.number = false →
      Nested do_eval s task msg
        (.evmc_invalid_instruction, { task.evm with gas := 0, out := some [], msg :=
          .evmc_invalid_instruction }, s)
  | failed (account : Record) (s1 s2 : State) (ret : Ret) : msg.creates = true →
      ((s.account (created e s task msg)).isSome = true →
        e.allow_contract_override task.number = true) →
      s.account (task.address e) = some account →
      s.set_account (created e s task msg) (Record.new 1 msg.value.toNat) = some s1 →
      s1.set_account (task.address e) { account with nonce := account.nonce + 1, balance :=
        account.balance - msg.value.toNat } = some s2 →
      Evm.eval_internal e do_eval (creation e s task msg).evm s2 = some ret → ret.1 ≠ .evmc_success →
      Nested do_eval s task msg ret
  | deployed (account : Record) (s1 s2 s3 s4 : State) (evm2 : Evm) : msg.creates = true →
      ((s.account (created e s task msg)).isSome = true →
        e.allow_contract_override task.number = true) →
      s.account (task.address e) = some account →
      s.set_account (created e s task msg) (Record.new 1 msg.value.toNat) = some s1 →
      s1.set_account (task.address e) { account with nonce := account.nonce + 1, balance :=
        account.balance - msg.value.toNat } = some s2 →
      Evm.eval_internal e do_eval (creation e s task msg).evm s2 = some (.evmc_success, evm2, s3) →
      (match s3.account (created e s task msg) with
        | none => s4 = s3
        | some to_account => s3.set_account (created e s task msg) { to_account with code := evm2.out.getD [] } = some s4) →
      Nested do_eval s task msg (.evmc_success, { evm2 with create_address := created e s task msg, out := some [] }, s4)

variable {e} {do_eval : Evm → State → Option Ret} {s : State} {task : Task} {msg : Message} {ret : Ret}

theorem do_create_nested (hk : msg.creates = true)
    (h : do_create e do_eval s (created e s task msg) msg.value.toNat msg.input msg.gas.toNat task = some ret) :
    Nested e do_eval s task msg ret := by
  unfold do_create at h
  dsimp only at h
  split at h
  · rename_i hc
    cases h
    exact .refused hk hc.1 hc.2
  · rename_i hc
    have hover : (s.account (created e s task msg)).isSome = true →
      e.allow_contract_override task.number = true := by
      intro hs
      by_contra hf
      exact hc ⟨hs, by simpa using hf⟩
    obtain ⟨account, ha, h⟩ := Option.bind_eq_some_iff.1 h
    obtain ⟨s1, h1, h⟩ := Option.bind_eq_some_iff.1 h
    obtain ⟨s2, h2, h⟩ := Option.bind_eq_some_iff.1 h
    obtain ⟨⟨tag, evm2, s3⟩, h3, h⟩ := Option.bind_eq_some_iff.1 h
    dsimp only at h
    split at h
    · rename_i ht
      subst ht
      cases hacc : s3.account (created e s task msg) with
      | none =>
        rw [hacc] at h
        cases h
        exact .deployed account s1 s2 s3 s3 evm2 hk hover ha h1 h2 h3 (by rw [hacc])
      | some to_account =>
        rw [hacc] at h
        obtain ⟨s4, h4, h⟩ := Option.bind_eq_some_iff.1 h
        cases h
        exact .deployed account s1 s2 s3 s4 evm2 hk hover ha h1 h2 h3 (by rw [hacc]; exact h4)
    · rename_i ht
      cases h
      exact .failed account s1 s2 _ hk hover ha h1 h2 h3 ht

theorem do_call_contract_nested {source target : Addr} {kind : CallKind} (hk : msg.creates = false)
    (hkind : kind = msg.kind)
    (hp : parties e task msg = (source, target))
    (h : do_call_contract e do_eval s target msg.destination msg.gas.toNat msg.value.toNat msg.input source task kind = some ret) :
    Nested e do_eval s task msg ret := by
  subst hkind
  have hneg : Transfers e task msg.kind source target msg.value.toNat ↔
      ¬(msg.value.toNat = 0 ∨ source = target ∨
        (msg.kind = .delegatecall ∧ ¬e.double_spend_delegatecall task.number)) := by
    unfold Transfers
    cases e.double_spend_delegatecall task.number <;> simp
  have hcallee : callee e s task msg = { task with
      tx := { task.tx with
        gasLimit := msg.gas.toNat, value := msg.value.toNat, data := some msg.input, to_addr := some target }
      code := (s.ensure_account msg.destination).code, internal := true, source := source } := by
    unfold callee
    rw [hp]
  unfold do_call_contract at h
  dsimp only at h
  split at h
  · rename_i hc
    refine .call s ret hk ?_ (by rw [hcallee]; exact h)
    rw [hp, if_neg (by rw [hneg]; exact not_not.2 hc)]
  · rename_i hc
    obtain ⟨s1, h1, h⟩ := Option.bind_eq_some_iff.1 h
    refine .call s1 ret hk ?_ (by rw [hcallee]; exact h)
    rw [hp, if_pos (hneg.2 hc)]
    exact h1

theorem call_contract_nested (h : call_contract e do_eval s task msg = some ret) :
    Nested e do_eval s task msg ret := by
  obtain ⟨kind, static, sender, destination, value, input, gas, salt⟩ := msg
  unfold call_contract at h
  cases kind with
  | call => exact do_call_contract_nested rfl rfl rfl h
  | delegatecall => exact do_call_contract_nested rfl rfl rfl h
  | callcode => exact do_call_contract_nested rfl rfl rfl h
  | create => exact do_create_nested rfl h
  | create2 => exact do_create_nested rfl h

theorem do_call_contract_of {source target : Addr} {kind : CallKind} (hkind : kind = msg.kind)
    (hp : parties e task msg = (source, target))
    {s1 : State} (ht : if Transfers e task msg.kind (parties e task msg).1 (parties e task msg).2 msg.value.toNat then
      transfer s (parties e task msg).1 (parties e task msg).2 msg.value.toNat = some s1 else s1 = s) :
    do_call_contract e do_eval s target msg.destination msg.gas.toNat msg.value.toNat msg.input
      source task kind =
      Evm.eval_internal e do_eval (callee e s task msg).evm s1 := by
  subst hkind
  have hneg : Transfers e task msg.kind source target msg.value.toNat ↔
      ¬(msg.value.toNat = 0 ∨ source = target ∨
        (msg.kind = .delegatecall ∧ ¬e.double_spend_delegatecall task.number)) := by
    unfold Transfers
    cases e.double_spend_delegatecall task.number <;> simp
  rw [hp] at ht
  unfold do_call_contract callee
  rw [hp]
  dsimp only
  split
  · rename_i hc
    rw [if_neg (by rw [hneg]; exact not_not.2 hc)] at ht
    subst ht
    rfl
  · rename_i hc
    rw [if_pos (hneg.2 hc)] at ht
    rw [ht, Option.bind_eq_bind, Option.bind_some]

/-- A call goes on in the frame it starts. -/
theorem call_contract_call {s1 : State} (hk : msg.creates = false)
    (ht : if Transfers e task msg.kind (parties e task msg).1 (parties e task msg).2 msg.value.toNat then
      transfer s (parties e task msg).1 (parties e task msg).2 msg.value.toNat = some s1 else s1 = s) :
    call_contract e do_eval s task msg = Evm.eval_internal e do_eval (callee e s task msg).evm s1 := by
  obtain ⟨kind, static, sender, destination, value, input, gas, salt⟩ := msg
  unfold call_contract
  cases kind with
  | call => exact do_call_contract_of rfl rfl ht
  | delegatecall => exact do_call_contract_of rfl rfl ht
  | callcode => exact do_call_contract_of rfl rfl ht
  | create => cases hk
  | create2 => cases hk

theorem call_contract_create (hk : msg.creates = true) : call_contract e do_eval s task msg =
    do_create e do_eval s (created e s task msg) msg.value.toNat msg.input msg.gas.toNat task := by
  obtain ⟨kind, static, sender, destination, value, input, gas, salt⟩ := msg
  cases kind with
  | create => rfl
  | create2 => rfl
  | call => cases hk
  | delegatecall => cases hk
  | callcode => cases hk

end Task

namespace Evm

/-- The packets that answer a call: the result, and for a success the storage
of the caller.
mirrors lib/evm.ex:710-726,499-515 -/
def call_reply (task : Task) (evm2 : Evm) (out : Bytes) (s : State) : List Bytes :=
  let message := le 8 (evm2.gas % 2 ^ 64).toNat ++ le 8 (status_atom evm2.msg % 2 ^ 64).toNat ++
    le 8 out.length ++ out ++
    Addr.bytes evm2.create_address
  let cache := match cache_account s (task.address e) with
    | some values => 0x70 :: le 4 values.length ++ Addr.bytes (task.address e) ++
      values.flatMap fun d => Word.bytes d.1 ++ Word.bytes d.2
    | none => 0x70 :: le 4 0xFFFFFFFF ++ Addr.bytes (task.address e)
  if evm2.msg = .evmc_success then [message, cache] else [message]

/-- The frame after a call: a failed one leaves no trace in its task.
mirrors lib/evm.ex:696-727 -/
def after_call (evm evm2 : Evm) : Evm :=
  if evm2.msg = .evmc_success then { evm with task :=
    { evm.task with selfdestructs := evm2.task.selfdestructs } } else evm

/-- The life of a frame.
mirrors lib/evm.ex:517-577,666-728 -/
def loop : Script → Evm → State → Option Ret
  | .done updates gas_left ret_code output, evm, s => do
    let s := if evm.task.static then s else s.process_updates updates
    let status ← status_code ret_code.toInt
    some (status, { evm with out := some output, gas := gas_left.toInt, msg := status }, s)
  | .callback m next, evm, s => do
    let (_, evm) ← evm.process_data e s m
    loop next evm s
  | .call msg updates child next, evm, s => do
    let s := s.process_updates updates
    let (_, evm2, s) ← evm.task.call_contract e (loop child) s msg
    -- `byte_size(nil)` raises
    let _ ← evm2.out
    loop next (evm.after_call evm2) s

/-- `<<x::160>>`: a segment without a type takes an integer. -/
def segment160 : Term → Option Bytes
  | .int n => some (be 20 (n % 2 ^ 160).toNat)
  | _ => none

/-- `x == 0` -/
def isZero : Term → Bool
  | .int n => n = 0
  | _ => false

/-- The settlement of one destroyed account.
mirrors lib/evm.ex:327-345 -/
def settle_one (s : State) (record : Addr × Term) : Option State := do
  let (source, benefector) := record
  let balance := (s.ensure_account source).balance
  let s := s.delete_account source
  let address ← segment160 benefector
  if isZero benefector ∨ address = Addr.bytes source then some s
  else
    let address := BitVec.ofNat 160 (ofBe address)
    let beneficiary := s.ensure_account address
    s.set_account address { beneficiary with balance := beneficiary.balance + balance }

/-- mirrors lib/evm.ex:325-345 -/
def settle (s : State) (selfdestructs : List (Addr × Term)) : Option State :=
    selfdestructs.foldlM settle_one s

/-- mirrors lib/evm.ex:315-350 -/
def eval (script : Script) (evm : Evm) (s : State) : Option Ret := do
  let (tag, evm2, s) ← eval_internal e (loop e script) evm s
  if tag = .evmc_success then do
    let s ← settle s evm2.task.selfdestructs
    some (tag, evm2, s)
  else some (tag, evm2, s)

end Evm

end
end Diode.L4
