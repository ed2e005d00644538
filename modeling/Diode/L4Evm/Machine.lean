import Diode.L4Evm.Arith
import Diode.L4Evm.InterpreterRun

/-!
# The machine as it is meant

A list of words for the stack, a memory without end that is zero where nothing
was written, and a counter over the code: what an instruction that asks nothing
of the host does to them is `Machine.Step`, said in numbers. Of the gas it knows
what is left when the instruction is paid for, which is what `GAS` pushes.
`Ends` and `Reverts` are the outputs of a run that halts. `VM.abs` reads such a
machine off the arrays of the interpreter.
-/
namespace Diode.L4
open Diode.Core

/-- `size` is how much of the memory was touched. -/
structure Machine where
  stack : List Word
  mem : Nat → UInt8
  size : Nat
  pc : Nat
  returnData : Bytes

namespace Machine

def push (m : Machine) (stack : List Word) (w : Word) : Machine := { m with stack := w :: stack, pc := m.pc + 1 }

def pop (m : Machine) (stack : List Word) : Machine := { m with stack, pc := m.pc + 1 }

def touch (m : Machine) (newMem : Nat) : Machine := { m with size := max m.size (VM.words newMem) }

def read (m : Machine) (offset n : Nat) : Bytes := (List.range n).map fun i => m.mem (offset + i)

def write (m : Machine) (offset : Nat) (b : Bytes) : Machine :=
  { m with mem := fun i => if offset ≤ i ∧ i < offset + b.length then b.getD (i - offset) 0 else m.mem i }

/-- `n` bytes of a text, with zeros behind its end. -/
def slice (data : Bytes) (offset n : Nat) : Bytes := (List.range n).map fun i => data.getD (offset + i) 0

def word (b : Bytes) : Word := BitVec.ofNat 256 (ofBe b)

/-- What an instruction says about the surroundings, with `gas` left. -/
def surroundings (c : VM.Context) (gas : Nat) (m : Machine) : Instruction → Option Word
  | .ADDRESS => some (VM.ofAddr c.message.destination)
  | .ORIGIN => some (VM.ofAddr c.tx.tx_origin)
  | .CALLER => some (VM.ofAddr c.message.sender)
  | .CALLVALUE => some c.message.value
  | .CALLDATASIZE => some (BitVec.ofNat 256 c.message.input.length)
  | .CODESIZE => some (BitVec.ofNat 256 c.pCode.length)
  | .GASPRICE => some c.tx.tx_gas_price
  | .RETURNDATASIZE => some (BitVec.ofNat 256 m.returnData.length)
  | .COINBASE => some (VM.ofAddr c.tx.block_coinbase)
  | .TIMESTAMP => some (c.tx.block_timestamp.setWidth 256)
  | .NUMBER => some (c.tx.block_number.setWidth 256)
  | .DIFFICULTY => some c.tx.block_difficulty
  | .GASLIMIT => some (c.tx.block_gas_limit.setWidth 256)
  | .CHAINID => some c.tx.chain_id
  | .PC => some (BitVec.ofNat 256 m.pc)
  | .MSIZE => some (BitVec.ofNat 256 m.size)
  | .GAS => some (BitVec.ofNat 256 gas)
  | _ => none

/-- Where a jump may go. -/
def Dest (code : Bytes) (pc : Nat) : Prop := VM.Boundary code pc ∧ pc < code.length ∧ code.getD pc 0 = 0x5B

variable (c : VM.Context) (gas : Nat) (m : Machine)

/-- The end of an access of `n` bytes. -/
def need (offset n : Nat) : Nat := if n = 0 then 0 else offset + n

inductive Step : Instruction → Machine → Prop where
  | unary {op : Instruction} {f : Word → Word} {x : Word} {s : List Word} :
      op.unop = some f → m.stack = x :: s → Step op (m.push s (f x))
  | binary {op : Instruction} {f : Word → Word → Word} {x y : Word} {s : List Word} :
      op.binop = some f → m.stack = x :: y :: s → Step op (m.push s (f x y))
  | ternary {op : Instruction} {f : Word → Word → Word → Word} {x y z : Word} {s : List Word} :
      op.ternop = some f → m.stack = x :: y :: z :: s → Step op (m.push s (f x y z))
  | surroundings {op : Instruction} {w : Word} : m.surroundings c gas op = some w → Step op (m.push m.stack w)
  | sha3 {x n : Word} {s : List Word} : m.stack = x :: n :: s →
      Step .SHA3 ((m.touch (need x.toNat n.toNat)).push s (c.keccak256 (m.read x.toNat n.toNat)))
  | calldataload {x : Word} {s : List Word} : m.stack = x :: s →
      Step .CALLDATALOAD (m.push s (word (slice c.message.input x.toNat 32)))
  | calldatacopy {x y n : Word} {s : List Word} : m.stack = x :: y :: n :: s →
      Step .CALLDATACOPY (((m.touch (need x.toNat n.toNat)).write x.toNat
        (slice c.message.input y.toNat n.toNat)).pop s)
  | codecopy {x y n : Word} {s : List Word} : m.stack = x :: y :: n :: s →
      Step .CODECOPY (((m.touch (need x.toNat n.toNat)).write x.toNat (slice c.pCode y.toNat n.toNat)).pop s)
  | returndatacopy {x y n : Word} {s : List Word} : m.stack = x :: y :: n :: s →
      y.toNat + n.toNat ≤ m.returnData.length → Step .RETURNDATACOPY
        (((m.touch (need x.toNat n.toNat)).write x.toNat (slice m.returnData y.toNat n.toNat)).pop s)
  | pop {x : Word} {s : List Word} : m.stack = x :: s → Step .POP (m.pop s)
  | mload {x : Word} {s : List Word} : m.stack = x :: s →
      Step .MLOAD ((m.touch (x.toNat + 32)).push s (word (m.read x.toNat 32)))
  | mstore {x w : Word} {s : List Word} : m.stack = x :: w :: s →
      Step .MSTORE (((m.touch (x.toNat + 32)).write x.toNat (Word.bytes w)).pop s)
  | mstore8 {x w : Word} {s : List Word} : m.stack = x :: w :: s →
      Step .MSTORE8 (((m.touch (x.toNat + 1)).write x.toNat [UInt8.ofNat (w.toNat % 256)]).pop s)
  | jump {x : Word} {s : List Word} : m.stack = x :: s → Dest c.pCode x.toNat →
      Step .JUMP { m with stack := s, pc := x.toNat }
  | jumpi {x y : Word} {s : List Word} : m.stack = x :: y :: s → y ≠ 0 → Dest c.pCode x.toNat →
      Step .JUMPI { m with stack := s, pc := x.toNat }
  | jumpi_past {x y : Word} {s : List Word} : m.stack = x :: y :: s → y = 0 → Step .JUMPI (m.pop s)
  | jumpdest : Step .JUMPDEST (m.pop m.stack)
  | push (n : Nat) : Step (.PUSH n)
      { m with stack := word (slice c.pCode (m.pc + 1) (n + 1)) :: m.stack, pc := m.pc + 1 + (n + 1) }
  | dup {n : Nat} {w : Word} : m.stack[n]? = some w → Step (.DUP n) (m.push m.stack w)
  | swap {n : Nat} {x y : Word} : m.stack[0]? = some x → m.stack[n + 1]? = some y →
      Step (.SWAP n) (m.pop ((m.stack.set 0 y).set (n + 1) x))

/-- What a run ends with. -/
inductive Ends : Instruction → Bytes → Prop where
  | stop : Ends .STOP []
  | return_ {x n : Word} {s : List Word} : m.stack = x :: n :: s → Ends .RETURN (m.read x.toNat n.toNat)

/-- What a run reverts with. -/
inductive Reverts : Instruction → Bytes → Prop where
  | revert {x n : Word} {s : List Word} : m.stack = x :: n :: s → Reverts .REVERT (m.read x.toNat n.toNat)

end Machine

/-- The instructions that ask nothing of the host. -/
def Instruction.internal : Instruction → Bool
  | .BALANCE | .EXTCODESIZE | .EXTCODECOPY | .EXTCODEHASH | .BLOCKHASH | .SELFBALANCE | .SLOAD | .SSTORE
  | .LOG _ | .CREATE | .CREATE2 | .CALL | .CALLCODE | .DELEGATECALL | .STATICCALL | .SELFDESTRUCT => false
  | _ => true

end Diode.L4
