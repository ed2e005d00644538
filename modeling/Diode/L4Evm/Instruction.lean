import Mathlib.Order.Basic

/-!
# Instructions of the interpreter

The byte of an instruction, what it needs of the stack and what it costs before
anything else is added. The tables of the revisions differ in the rows of a few
instructions; a row a revision does not have is `UNDEFINED`, and every byte
without a case of its own is `BAD`, the ones of subroutines and the vector ones
among them. The synthetic instructions have the rows of what they stand for.
-/
namespace Diode.L4

/-- evm/evmc/evmc.h:716-785 -/
inductive Revision where
  | FRONTIER | HOMESTEAD | TANGERINE_WHISTLE | SPURIOUS_DRAGON | BYZANTIUM | CONSTANTINOPLE | PETERSBURG
  | ISTANBUL | BERLIN
  deriving DecidableEq, Repr

namespace Revision

def toNat : Revision → Nat
  | FRONTIER => 0
  | HOMESTEAD => 1
  | TANGERINE_WHISTLE => 2
  | SPURIOUS_DRAGON => 3
  | BYZANTIUM => 4
  | CONSTANTINOPLE => 5
  | PETERSBURG => 6
  | ISTANBUL => 7
  | BERLIN => 8

instance : LE Revision := ⟨fun a b => a.toNat ≤ b.toNat⟩
instance : LT Revision := ⟨fun a b => a.toNat < b.toNat⟩
instance (a b : Revision) : Decidable (a ≤ b) := inferInstanceAs (Decidable (a.toNat ≤ b.toNat))
instance (a b : Revision) : Decidable (a < b) := inferInstanceAs (Decidable (a.toNat < b.toNat))

theorem not_lt {a b : Revision} : ¬a < b ↔ b ≤ a := Nat.not_lt

end Revision

/-- `PUSH n`, `DUP n` and `SWAP n` are the source's `PUSH(n+1)`, `DUP(n+1)` and `SWAP(n+1)`. -/
inductive Instruction where
  | STOP | ADD | MUL | SUB | DIV | SDIV | MOD | SMOD | ADDMOD | MULMOD | EXP | SIGNEXTEND
  | LT | GT | SLT | SGT | EQ | ISZERO | AND | OR | XOR | NOT | BYTE | SHL | SHR | SAR | SHA3
  | ADDRESS | BALANCE | ORIGIN | CALLER | CALLVALUE | CALLDATALOAD | CALLDATASIZE | CALLDATACOPY | CODESIZE
  | CODECOPY | GASPRICE | EXTCODESIZE | EXTCODECOPY | RETURNDATASIZE | RETURNDATACOPY | EXTCODEHASH
  | BLOCKHASH | COINBASE | TIMESTAMP | NUMBER | DIFFICULTY | GASLIMIT | CHAINID | SELFBALANCE
  | POP | MLOAD | MSTORE | MSTORE8 | SLOAD | SSTORE | JUMP | JUMPI | PC | MSIZE | GAS | JUMPDEST
  | PUSH (n : Nat) | DUP (n : Nat) | SWAP (n : Nat) | LOG (n : Nat)
  | CREATE | CALL | CALLCODE | RETURN | DELEGATECALL | CREATE2 | STATICCALL | REVERT | INVALID | SELFDESTRUCT
  | PUSHC | JUMPC | JUMPCI | BAD
  deriving DecidableEq, Repr

namespace Instruction

/-- mirrors evm/libevm/Instruction.h:14-221, evm/libaleth-interpreter/VMConfig.h:141-398 -/
def ofByte (b : UInt8) : Instruction :=
  let n := b.toNat
  if 0x60 ≤ n ∧ n ≤ 0x7F then .PUSH (n - 0x60)
  else if 0x80 ≤ n ∧ n ≤ 0x8F then .DUP (n - 0x80)
  else if 0x90 ≤ n ∧ n ≤ 0x9F then .SWAP (n - 0x90)
  else if 0xA0 ≤ n ∧ n ≤ 0xA4 then .LOG (n - 0xA0)
  else match n with
    | 0x00 => .STOP
    | 0x01 => .ADD
    | 0x02 => .MUL
    | 0x03 => .SUB
    | 0x04 => .DIV
    | 0x05 => .SDIV
    | 0x06 => .MOD
    | 0x07 => .SMOD
    | 0x08 => .ADDMOD
    | 0x09 => .MULMOD
    | 0x0A => .EXP
    | 0x0B => .SIGNEXTEND
    | 0x10 => .LT
    | 0x11 => .GT
    | 0x12 => .SLT
    | 0x13 => .SGT
    | 0x14 => .EQ
    | 0x15 => .ISZERO
    | 0x16 => .AND
    | 0x17 => .OR
    | 0x18 => .XOR
    | 0x19 => .NOT
    | 0x1A => .BYTE
    | 0x1B => .SHL
    | 0x1C => .SHR
    | 0x1D => .SAR
    | 0x20 => .SHA3
    | 0x30 => .ADDRESS
    | 0x31 => .BALANCE
    | 0x32 => .ORIGIN
    | 0x33 => .CALLER
    | 0x34 => .CALLVALUE
    | 0x35 => .CALLDATALOAD
    | 0x36 => .CALLDATASIZE
    | 0x37 => .CALLDATACOPY
    | 0x38 => .CODESIZE
    | 0x39 => .CODECOPY
    | 0x3A => .GASPRICE
    | 0x3B => .EXTCODESIZE
    | 0x3C => .EXTCODECOPY
    | 0x3D => .RETURNDATASIZE
    | 0x3E => .RETURNDATACOPY
    | 0x3F => .EXTCODEHASH
    | 0x40 => .BLOCKHASH
    | 0x41 => .COINBASE
    | 0x42 => .TIMESTAMP
    | 0x43 => .NUMBER
    | 0x44 => .DIFFICULTY
    | 0x45 => .GASLIMIT
    | 0x46 => .CHAINID
    | 0x47 => .SELFBALANCE
    | 0x50 => .POP
    | 0x51 => .MLOAD
    | 0x52 => .MSTORE
    | 0x53 => .MSTORE8
    | 0x54 => .SLOAD
    | 0x55 => .SSTORE
    | 0x56 => .JUMP
    | 0x57 => .JUMPI
    | 0x58 => .PC
    | 0x59 => .MSIZE
    | 0x5A => .GAS
    | 0x5B => .JUMPDEST
    | 0xAC => .PUSHC
    | 0xAD => .JUMPC
    | 0xAE => .JUMPCI
    | 0xF0 => .CREATE
    | 0xF1 => .CALL
    | 0xF2 => .CALLCODE
    | 0xF3 => .RETURN
    | 0xF4 => .DELEGATECALL
    | 0xF5 => .CREATE2
    | 0xFA => .STATICCALL
    | 0xFD => .REVERT
    | 0xFE => .INVALID
    | 0xFF => .SELFDESTRUCT
    | _ => .BAD

/-- evm/evmc/instructions.h `evmc_instruction_metrics`. -/
structure Metrics where
  gas_cost : Nat
  stack_height_required : Nat
  stack_height_change : Int
  deriving DecidableEq, Repr

def UNDEFINED : Metrics := ⟨0, 0, 0⟩
def ZERO : Nat := 0
def BASE : Nat := 2
def VERYLOW : Nat := 3
def LOW : Nat := 5
def MID : Nat := 8
def HIGH : Nat := 10

/-- The row of an instruction in the table of a revision.
mirrors evm/evmc/instruction_metrics.c:12-1605, evm/libaleth-interpreter/VMOpt.cpp:12-29 -/
def metrics (rev : Revision) : Instruction → Metrics
  | STOP => ⟨ZERO, 0, 0⟩
  | ADD => ⟨VERYLOW, 2, -1⟩
  | MUL => ⟨LOW, 2, -1⟩
  | SUB => ⟨VERYLOW, 2, -1⟩
  | DIV => ⟨LOW, 2, -1⟩
  | SDIV => ⟨LOW, 2, -1⟩
  | MOD => ⟨LOW, 2, -1⟩
  | SMOD => ⟨LOW, 2, -1⟩
  | ADDMOD => ⟨MID, 3, -2⟩
  | MULMOD => ⟨MID, 3, -2⟩
  | EXP => ⟨HIGH, 2, -1⟩
  | SIGNEXTEND => ⟨LOW, 2, -1⟩
  | LT => ⟨VERYLOW, 2, -1⟩
  | GT => ⟨VERYLOW, 2, -1⟩
  | SLT => ⟨VERYLOW, 2, -1⟩
  | SGT => ⟨VERYLOW, 2, -1⟩
  | EQ => ⟨VERYLOW, 2, -1⟩
  | ISZERO => ⟨VERYLOW, 1, 0⟩
  | AND => ⟨VERYLOW, 2, -1⟩
  | OR => ⟨VERYLOW, 2, -1⟩
  | XOR => ⟨VERYLOW, 2, -1⟩
  | NOT => ⟨VERYLOW, 1, 0⟩
  | BYTE => ⟨VERYLOW, 2, -1⟩
  | SHL => if .CONSTANTINOPLE ≤ rev then ⟨VERYLOW, 2, -1⟩ else UNDEFINED
  | SHR => if .CONSTANTINOPLE ≤ rev then ⟨VERYLOW, 2, -1⟩ else UNDEFINED
  | SAR => if .CONSTANTINOPLE ≤ rev then ⟨VERYLOW, 2, -1⟩ else UNDEFINED
  | SHA3 => ⟨30, 2, -1⟩
  | ADDRESS => ⟨BASE, 0, 1⟩
  | BALANCE => ⟨if .ISTANBUL ≤ rev then 700 else if .TANGERINE_WHISTLE ≤ rev then 400 else 20, 1, 0⟩
  | ORIGIN => ⟨BASE, 0, 1⟩
  | CALLER => ⟨BASE, 0, 1⟩
  | CALLVALUE => ⟨BASE, 0, 1⟩
  | CALLDATALOAD => ⟨VERYLOW, 1, 0⟩
  | CALLDATASIZE => ⟨BASE, 0, 1⟩
  | CALLDATACOPY => ⟨VERYLOW, 3, -3⟩
  | CODESIZE => ⟨BASE, 0, 1⟩
  | CODECOPY => ⟨VERYLOW, 3, -3⟩
  | GASPRICE => ⟨BASE, 0, 1⟩
  | EXTCODESIZE => ⟨if .TANGERINE_WHISTLE ≤ rev then 700 else 20, 1, 0⟩
  | EXTCODECOPY => ⟨if .TANGERINE_WHISTLE ≤ rev then 700 else 20, 4, -4⟩
  | RETURNDATASIZE => if .BYZANTIUM ≤ rev then ⟨BASE, 0, 1⟩ else UNDEFINED
  | RETURNDATACOPY => if .BYZANTIUM ≤ rev then ⟨VERYLOW, 3, -3⟩ else UNDEFINED
  | EXTCODEHASH => if .ISTANBUL ≤ rev then ⟨700, 1, 0⟩
    else if .CONSTANTINOPLE ≤ rev then ⟨400, 1, 0⟩ else UNDEFINED
  | BLOCKHASH => ⟨20, 1, 0⟩
  | COINBASE => ⟨BASE, 0, 1⟩
  | TIMESTAMP => ⟨BASE, 0, 1⟩
  | NUMBER => ⟨BASE, 0, 1⟩
  | DIFFICULTY => ⟨BASE, 0, 1⟩
  | GASLIMIT => ⟨BASE, 0, 1⟩
  | CHAINID => if .ISTANBUL ≤ rev then ⟨BASE, 0, 1⟩ else UNDEFINED
  | SELFBALANCE => if .ISTANBUL ≤ rev then ⟨LOW, 0, 1⟩ else UNDEFINED
  | POP => ⟨BASE, 1, -1⟩
  | MLOAD => ⟨VERYLOW, 1, 0⟩
  | MSTORE => ⟨VERYLOW, 2, -2⟩
  | MSTORE8 => ⟨VERYLOW, 2, -2⟩
  | SLOAD => ⟨if .ISTANBUL ≤ rev then 800 else if .TANGERINE_WHISTLE ≤ rev then 200 else 50, 1, 0⟩
  | SSTORE => ⟨0, 2, -2⟩
  | JUMP => ⟨MID, 1, -1⟩
  | JUMPI => ⟨HIGH, 2, -2⟩
  | PC => ⟨BASE, 0, 1⟩
  | MSIZE => ⟨BASE, 0, 1⟩
  | GAS => ⟨BASE, 0, 1⟩
  | JUMPDEST => ⟨1, 0, 0⟩
  | PUSH _ => ⟨VERYLOW, 0, 1⟩
  | DUP n => ⟨VERYLOW, n + 1, 1⟩
  | SWAP n => ⟨VERYLOW, n + 2, 0⟩
  | LOG n => ⟨(n + 1) * 375, n + 2, -(n + 2)⟩
  | CREATE => ⟨32000, 3, -2⟩
  | CALL => ⟨if .TANGERINE_WHISTLE ≤ rev then 700 else 40, 7, -6⟩
  | CALLCODE => ⟨if .TANGERINE_WHISTLE ≤ rev then 700 else 40, 7, -6⟩
  | RETURN => ⟨ZERO, 2, -2⟩
  | DELEGATECALL => if .TANGERINE_WHISTLE ≤ rev then ⟨700, 6, -5⟩
    else if .HOMESTEAD ≤ rev then ⟨40, 6, -5⟩ else UNDEFINED
  | CREATE2 => if .CONSTANTINOPLE ≤ rev then ⟨32000, 4, -3⟩ else UNDEFINED
  | STATICCALL => if .BYZANTIUM ≤ rev then ⟨700, 6, -5⟩ else UNDEFINED
  | REVERT => if .BYZANTIUM ≤ rev then ⟨ZERO, 2, -2⟩ else UNDEFINED
  | INVALID => ⟨ZERO, 0, 0⟩
  | SELFDESTRUCT => ⟨if .TANGERINE_WHISTLE ≤ rev then 5000 else ZERO, 1, -1⟩
  | PUSHC => ⟨VERYLOW, 0, 1⟩
  | JUMPC => ⟨MID, 1, -1⟩
  | JUMPCI => ⟨HIGH, 2, -2⟩
  | BAD => UNDEFINED

end Instruction
end Diode.L4
