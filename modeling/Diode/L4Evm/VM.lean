import Diode.Core.Asks
import Diode.L4Evm.Evm
import Diode.L4Evm.Instruction
import Diode.L4Evm.Intx
import Mathlib.Tactic.Simps.Basic

/-!
# The machine of the interpreter

What runs the code of a frame: a stack in an array that grows downwards from its
end, a memory that is paid for as it grows, a program counter over the code with
33 zeros behind it. The host is asked by name and answers at once; a run against
a host is a run of `Asks`.

An array access outside of its array, which the source leaves undefined, stops
with `undefined`. Counters are natural numbers and wrap where the source adds or
subtracts in 64 bits.

Not modelled: a memory that cannot be allocated; the `EVM_OPTIMIZE` and tracing
variants, which are switched off; the functions nothing calls.
-/
namespace Diode.L4
open Diode.Core

/-! ## The host -/

deriving instance DecidableEq for Message

/-- evm/evmc/evmc.h:95-143 -/
structure EvmcMessage extends Message where
  depth : Int
  deriving DecidableEq

/-- evm/evmc/evmc.h:147-157 -/
structure TxContext where
  tx_gas_price : Word
  tx_origin : Addr
  block_coinbase : Addr
  block_number : BitVec 64
  block_timestamp : BitVec 64
  block_gas_limit : BitVec 64
  block_difficulty : Word
  chain_id : Word

inductive EvmcStorageStatus where
  | UNCHANGED | MODIFIED | MODIFIED_AGAIN | ADDED | DELETED
  deriving DecidableEq

/-- The fields of `evmc_result` a call is answered with. -/
structure CallResult where
  status_code : Int
  gas_left : BitVec 64
  output : Bytes
  create_address : Addr

/-- What the interpreter asks of `m_context->host`. -/
inductive HostCall where
  | account_exists (addr : Addr)
  | get_storage (addr : Addr) (key : Word)
  | set_storage (addr : Addr) (key value : Word)
  | get_balance (addr : Addr)
  | get_code_size (addr : Addr)
  | get_code_hash (addr : Addr)
  | copy_code (addr : Addr) (offset size : Nat)
  | selfdestruct (addr beneficiary : Addr)
  | call (msg : EvmcMessage)
  | get_block_hash (number : BitVec 64)
  | emit_log (addr : Addr) (data : Bytes) (topics : List Word)
  deriving DecidableEq

/-- `copy_code` answers with the bytes it wrote. -/
def HostCall.Reply : HostCall → Type
  | account_exists _ => Bool
  | get_storage _ _ => Word
  | set_storage _ _ _ => EvmcStorageStatus
  | get_balance _ => Word
  | get_code_size _ => BitVec 64
  | get_code_hash _ => Word
  | copy_code _ _ _ => Bytes
  | selfdestruct _ _ => Unit
  | call _ => CallResult
  | get_block_hash _ => Word
  | emit_log _ _ _ => Unit

/-! ## The machine -/

/-- mirrors evm/libevm/VMFace.h:17-45; a revert carries the gas it leaves. -/
inductive VMException where
  | OutOfGas | BadInstruction | InvalidInstruction | OutOfStack | StackUnderflow | BufferOverrun
  | BadJumpDestination | DisallowedStateChange
  | RevertInstruction (io_gas : Nat) (output : Bytes)
  | undefined

/-- mirrors evm/libaleth-interpreter/VM.h:49-116 -/
structure VM where
  io_gas : Nat
  PC : Nat
  stack : Nat → Word
  SP : Nat
  SPP : Nat
  runGas : Nat
  newMemSize : Nat
  copyMemSize : Nat
  mem : Bytes
  returnData : Bytes

namespace VM

/-- What does not change in a run: `code` and `jumpDests` are made from `pCode`
at its start. -/
structure Context where
  rev : Revision
  message : EvmcMessage
  tx : TxContext
  pCode : Bytes
  code : Bytes
  jumpDests : List Nat
  keccak256 : Bytes → Word

abbrev Prog (α : Type) := Asks HostCall HostCall.Reply VMException α

def stackLimit : Nat := 1024
def sha3Gas : Nat := 30
def sha3WordGas : Nat := 6
def sstoreSetGas : Nat := 20000
def sstoreResetGas : Nat := 5000
def jumpdestGas : Nat := 1
def logGas : Nat := 375
def logDataGas : Nat := 8
def logTopicGas : Nat := 375
def createGas : Nat := 32000
def memoryGas : Nat := 3
def quadCoeffDiv : Nat := 512
def copyGas : Nat := 3
def valueTransferGas : Nat := 9000
def callStipend : Nat := 2300
def callNewAccount : Nat := 25000
def callSelfGas : Nat := 40
def stepGas5 : Nat := 10
def stepGas6 : Nat := 20

def u64 (n : Nat) : Nat := n % 2 ^ 64

/-- `a - b` in 64 bits. -/
def sub64 (a b : Nat) : Nat := (a + 2 ^ 64 - b) % 2 ^ 64

/-! ## The code -/

/-- mirrors evm/libaleth-interpreter/VMOpt.cpp:31-40 -/
def copyCode (pCode : Bytes) (extraBytes : Nat) : Bytes := pCode ++ List.replicate extraBytes 0

/-- The bytes a push carries. -/
def pushBytes (op : UInt8) : Nat := if 0x60 ≤ op ∧ op ≤ 0x7F then op.toNat - 0x60 + 1 else 0

/-- The loop over the code, with the rounds that are left.
mirrors evm/libaleth-interpreter/VMOpt.cpp:51-76 -/
def scan (nBytes : Nat) : Nat → Nat → Bytes → List Nat → Bytes × List Nat
  | 0, _, code, jumpDests => (code, jumpDests)
  | fuel + 1, pc, code, jumpDests =>
    if pc < nBytes then
      let op := code.getD pc 0
      let code := if op = 0xAC ∨ op = 0xAD ∨ op = 0xAE then code.set pc 0xAF else code
      if op = 0x5B then scan nBytes fuel (pc + 1) code (jumpDests ++ [pc])
      else scan nBytes fuel (pc + pushBytes op + 1) code jumpDests
    else (code, jumpDests)

/-- mirrors evm/libaleth-interpreter/VMOpt.cpp:42-154 -/
def optimize (pCode : Bytes) : Bytes × List Nat :=
  scan pCode.length pCode.length 0 (copyCode pCode 33) []

/-- The binary search finds what is in the sorted table.
mirrors evm/libaleth-interpreter/VMCalls.cpp:79-92 -/
def verifyJumpDest (c : Context) (dest : Word) : Prog Nat :=
  if dest.toNat ≤ 0x7FFFFFFFFFFFFFFF ∧ dest.toNat ∈ c.jumpDests then .ret dest.toNat
  else .stop .BadJumpDestination

/-! ## The stack and the memory -/

section
variable (vm : VM)

@[simps -fullyApplied] def setRunGas (runGas : Nat) : VM := { vm with runGas }
@[simps -fullyApplied] def setCopyMemSize (copyMemSize : Nat) : VM := { vm with copyMemSize }
@[simps -fullyApplied] def setReturnData (returnData : Bytes) : VM := { vm with returnData }
@[simps -fullyApplied] def setGas (io_gas : Nat) : VM := { vm with io_gas }
@[simps -fullyApplied] def setPC (PC : Nat) : VM := { vm with PC }
@[simps -fullyApplied] def setStack (i : Nat) (w : Word) : VM := { vm with stack := Function.update vm.stack i w }
@[simps -fullyApplied] def setMem (mem : Bytes) : VM := { vm with mem }
@[simps -fullyApplied] def setNewMemSize (newMemSize : Nat) : VM := { vm with newMemSize }

end

/-- `m_SP[i]` -/
def sp (vm : VM) (i : Nat) : Prog Word :=
  if vm.SP + i < stackLimit then .ret (vm.stack (vm.SP + i)) else .stop .undefined

/-- `m_SP[i] = w` -/
def set_sp (vm : VM) (i : Nat) (w : Word) : Prog VM :=
  if vm.SP + i < stackLimit then .ret (vm.setStack (vm.SP + i) w)
  else .stop .undefined

/-- `m_SPP[0] = w` -/
def set_spp (vm : VM) (w : Word) : Prog VM :=
  if vm.SPP < stackLimit then .ret (vm.setStack vm.SPP w)
  else .stop .undefined

/-- `n` bytes of an array. -/
def load (b : Bytes) (offset n : Nat) : Prog Bytes :=
  if n = 0 ∨ offset + n ≤ b.length then .ret ((b.drop offset).take n) else .stop .undefined

/-- Bytes written to the memory. -/
def store (vm : VM) (offset : Nat) (b : Bytes) : Prog VM :=
  if b = [] ∨ offset + b.length ≤ vm.mem.length then
    .ret (vm.setMem (vm.mem.take offset ++ b ++ vm.mem.drop (offset + b.length)))
  else .stop .undefined

/-- mirrors evm/libaleth-interpreter/VMCalls.cpp:56-63 -/
def throwBadStack {α : Type} (size required : Int) : Prog α :=
  if size < required then .stop .StackUnderflow else .stop .OutOfStack

/-- mirrors evm/libaleth-interpreter/VM.cpp:160-170 -/
def adjustStack (vm : VM) (required : Nat) (change : Int) : Prog VM :=
  if stackLimit < vm.SPP + required then throwBadStack (stackLimit - vm.SPP) required
  else if (vm.SPP : Int) - change < 0 then throwBadStack (stackLimit - (vm.SPP - change)) required
  else .ret { vm with SP := vm.SPP, SPP := ((vm.SPP : Int) - change).toNat }

/-! ## Gas -/

/-- mirrors evm/libaleth-interpreter/VM.h:147-154 -/
def toInt63 (v : Nat) : Prog Nat := if 0x7FFFFFFFFFFFFFFF < v then .stop .OutOfGas else .ret v

/-- mirrors evm/libaleth-interpreter/VM.cpp:121-124 -/
def memNeed (offset size : Word) : Prog Nat := toInt63 (if size ≠ 0 then offset.toNat + size.toNat else 0)

/-- mirrors evm/libaleth-interpreter/VM.cpp:172-178 -/
def gasForMem (size : Nat) : Prog Nat :=
  let s := size / 32
  toInt63 (memoryGas * s + s * s / quadCoeffDiv)

/-- mirrors evm/libaleth-interpreter/VM.cpp:180-185 -/
def updateIOGas (vm : VM) : Prog VM :=
  if vm.io_gas < vm.runGas then .stop .OutOfGas else .ret (vm.setGas (vm.io_gas - vm.runGas))

/-- The charge for a memory that grows. -/
def growthGas (vm : VM) : Prog Nat :=
  if vm.mem.length < vm.newMemSize then do
    let new ← gasForMem vm.newMemSize
    let old ← gasForMem vm.mem.length
    toInt63 (sub64 new old)
  else .ret 0

/-- mirrors evm/libaleth-interpreter/VM.cpp:187-194 -/
def updateGas (vm : VM) : Prog VM := do
  let growth ← growthGas vm
  let runGas := u64 (u64 (vm.runGas + growth) + copyGas * (u64 (vm.copyMemSize + 31) / 32))
  if vm.io_gas < runGas then .stop .OutOfGas else .ret (vm.setRunGas runGas)

/-- mirrors evm/libaleth-interpreter/VM.cpp:196-202 -/
def updateMem (vm : VM) (newMem : Nat) : Prog VM := do
  let vm ← updateGas (vm.setNewMemSize (u64 (newMem + 31) / 32 * 32))
  .ret (vm.setMem (vm.mem ++ List.replicate (vm.newMemSize - vm.mem.length) 0))

/-- mirrors evm/libaleth-interpreter/VM.cpp:204-211 -/
def logGasMem (vm : VM) (n : Nat) : Prog VM := do
  let offset ← vm.sp 0
  let size ← vm.sp 1
  let runGas ← toInt63 (logGas + logTopicGas * n + logDataGas * size.toNat)
  updateMem (vm.setRunGas runGas) (← memNeed offset size)

/-- mirrors evm/libaleth-interpreter/VM.cpp:213-223 -/
def fetchInstruction (c : Context) (vm : VM) : Prog (Instruction × VM) := do
  let op := Instruction.ofByte ((← load c.code vm.PC 1).headD 0)
  let metric := op.metrics c.rev
  let vm ← adjustStack vm metric.stack_height_required metric.stack_height_change
  .ret (op, ((vm.setRunGas metric.gas_cost).setNewMemSize vm.mem.length).setCopyMemSize 0)

/-! ## Instructions that only compute -/

/-- Most instructions pay, compute a word and push it. -/
def ordinary (f : VM → Prog Word) (vm : VM) : Prog VM := do
  let vm ← updateIOGas vm
  let w ← f vm
  vm.set_spp w

def unary (f : Word → Word) : VM → Prog VM := ordinary fun vm => do
  let x ← vm.sp 0
  .ret (f x)

def binary (f : Word → Word → Word) : VM → Prog VM := ordinary fun vm => do
  let x ← vm.sp 0
  let y ← vm.sp 1
  .ret (f x y)

def ternary (f : Word → Word → Word → Word) : VM → Prog VM := ordinary fun vm => do
  let x ← vm.sp 0
  let y ← vm.sp 1
  let z ← vm.sp 2
  .ret (f x y z)

def flag (b : Bool) : Word := if b then 1 else 0

def DIV (x y : Word) : Word := if y ≠ 0 then x / y else 0

/-- mirrors evm/libaleth-interpreter/VM.cpp:591-599 -/
def SDIV (x y : Word) : Word := if y ≠ 0 then (Intx.sdivrem x y).1 else 0

def MOD (x y : Word) : Word := if y ≠ 0 then x % y else 0

def SMOD (x y : Word) : Word := if y ≠ 0 then (Intx.sdivrem x y).2 else 0

/-- mirrors evm/libaleth-interpreter/VM.cpp:646-655 -/
def SLT (x y : Word) : Word :=
  let lhsNeg := x >>> 255 ≠ 0
  let rhsNeg := y >>> 255 ≠ 0
  flag (if lhsNeg ≠ rhsNeg then lhsNeg else x < y)

/-- mirrors evm/libaleth-interpreter/VM.cpp:657-666 -/
def SGT (x y : Word) : Word :=
  let lhsNeg := x >>> 255 ≠ 0
  let rhsNeg := y >>> 255 ≠ 0
  flag (if lhsNeg ≠ rhsNeg then rhsNeg else x > y)

/-- mirrors evm/libaleth-interpreter/VM.cpp:713-720 -/
def BYTE (x y : Word) : Word := if x.toNat < 32 then (y >>> (8 * (31 - x.toNat))) &&& 0xFF else 0

def SHL (x y : Word) : Word := if 256 ≤ x.toNat then 0 else y <<< x.toNat

def SHR (x y : Word) : Word := if 256 ≤ x.toNat then 0 else y >>> x.toNat

/-- mirrors evm/libaleth-interpreter/VM.cpp:754-783 -/
def SAR (x y : Word) : Word :=
  let hibit := 1#256 <<< 255
  let allbits := ~~~0#256
  if 256 ≤ x.toNat then if y &&& hibit ≠ 0 then allbits else 0
  else
    let w := y >>> x.toNat
    if y &&& hibit ≠ 0 then w ||| (allbits <<< (256 - x.toNat)) else w

def ADDMOD (x y z : Word) : Word := if z ≠ 0 then Intx.addmod x y z else 0

def MULMOD (x y z : Word) : Word := if z ≠ 0 then Intx.mulmod x y z else 0

/-- What becomes of the number below the position of its sign.
mirrors evm/libaleth-interpreter/VM.cpp:803-820 -/
def signextend (x number : Word) : Word :=
  let testBit := x.toNat * 8 + 7
  let mask := (1#256 <<< testBit) - 1
  if number &&& (1#256 <<< testBit) ≠ 0 then number ||| ~~~mask else number &&& mask

end VM
end Diode.L4
