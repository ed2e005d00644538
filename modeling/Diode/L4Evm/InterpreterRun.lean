import Diode.L4Evm.Gas
import Diode.L4Evm.InterpreterSafe

/-!
# Runs of the interpreter

`Inv` is what holds before each round: a height the stack has room for, a
counter where an instruction starts, and gas that with the memory paid for does
not exceed the gas of the message. `step_all` is the round, from which the runs
follow.
-/
namespace Diode.L4

/-- The bytes of the code an instruction carries. -/
def Instruction.width : Instruction → Nat
  | .PUSH n => n + 1
  | _ => 0

/-- An instruction leaves the stack no lower than at nothing. -/
theorem Instruction.covers (rev : Revision) (op : Instruction) :
    0 ≤ ((op.metrics rev).stack_height_required : Int) + (op.metrics rev).stack_height_change := by
  unfold Instruction.metrics
  split <;> (try split) <;> (try split) <;> simp [UNDEFINED] <;> omega

namespace VM
open Diode.Core

/-! ## Fetching -/

theorem width_ofByte (b : UInt8) : (Instruction.ofByte b).width = pushBytes b := by
  have hall : ∀ n < 256, (Instruction.ofByte (UInt8.ofNat n)).width = pushBytes (UInt8.ofNat n) := by
    decide +kernel
  simpa using hall b.toNat b.toNat_lt

section
variable {c : Context} {vm : VM}

/-- The context is the one a run starts with. -/
def Context.Made (c : Context) : Prop := (c.code, c.jumpDests) = optimize c.pCode

theorem Context.Made.optimized (h : c.Made) : Optimized c.pCode c.code c.jumpDests := by
  have := VM.optimized c.pCode
  rw [← show (c.code, c.jumpDests) = optimize c.pCode from h] at this
  exact this

/-- What stands in the copy does not change where the next instruction starts. -/
theorem Optimized.after {pCode code : Bytes} {jumpDests : List Nat} (h : Optimized pCode code jumpDests) {pc : Nat}
    (hb : Boundary pCode pc) : after pCode pc = pc + pushBytes (code.getD pc 0) + 1 := by
  unfold VM.after
  by_cases hs : Synthetic (pCode.getD pc 0)
  · rw [h.cleaned pc hb hs]
    rcases hs with hs | hs | hs <;> rw [hs] <;> rfl
  · rw [h.kept pc fun hk => hs hk.2]

/-- Behind the code there is nothing but zeros. -/
theorem Optimized.stop {pCode code : Bytes} {jumpDests : List Nat} (h : Optimized pCode code jumpDests) {pc : Nat}
    (hpc : pCode.length ≤ pc) : code.getD pc 0 = 0 := by
  have h0 : pCode.getD pc 0 = 0 := by
    rw [List.getD_eq_getElem?_getD, List.getElem?_eq_none hpc]
    rfl
  rw [h.kept pc, h0]
  rw [h0]
  rintro ⟨_, hs⟩
  revert hs
  decide

/-- The machine `vm` has fetched `op`: it stands where it stood, with the cost of the
instruction and with the stack moved. -/
structure FetchedOp (c : Context) (op : Instruction) (vm0 vm : VM) : Prop where
  PC : vm.PC = vm0.PC
  io_gas : vm.io_gas = vm0.io_gas
  mem : vm.mem = vm0.mem
  stack : vm.stack = vm0.stack
  returnData : vm.returnData = vm0.returnData
  SP : vm.SP = vm0.SPP
  required : vm.SP + (op.metrics c.rev).stack_height_required ≤ 1024
  change : (vm.SPP : Int) = vm.SP - (op.metrics c.rev).stack_height_change
  run : vm.runGas = (op.metrics c.rev).gas_cost
  copy : vm.copyMemSize = 0

theorem fetchInstruction_all {reverts : Nat → Bytes → Prop} {post : Instruction × VM → Prop} (hpc : vm.PC < c.code.length)
    (hp : ∀ vm', FetchedOp c (.ofByte (c.code.getD vm.PC 0)) vm vm' → post (.ofByte (c.code.getD vm.PC 0), vm')) :
    (fetchInstruction c vm).All (rules c reverts) post := by
  have hop : ((c.code.drop vm.PC).take 1).headD 0 = c.code.getD vm.PC 0 := by
    rw [List.getD_eq_getElem?_getD, ← List.head?_drop]
    cases c.code.drop vm.PC <;> rfl
  unfold fetchInstruction adjustStack throwBadStack
  simp only [Asks.all_bind]
  rw [all_load (.inr (by exact hpc)), hop]
  split
  · split <;> exact (Asks.all_stop _).2 trivial
  · next hreq =>
    split
    · split <;> exact (Asks.all_stop _).2 trivial
    · next hchg =>
      rw [Asks.all_ret, Asks.all_ret]
      refine hp _ ⟨rfl, rfl, rfl, rfl, rfl, rfl, ?_, ?_, rfl, rfl⟩
      · simpa [stackLimit] using hreq
      · simp only [setCopyMemSize_SPP, setNewMemSize_SPP, setRunGas_SPP, setCopyMemSize_SP, setNewMemSize_SP,
          setRunGas_SP]
        omega

/-! ## A round -/

/-- What a round leaves that goes on: the memory was paid for, and the counter is behind the
instruction or at a destination of the table. -/
structure Passed (c : Context) (op : Instruction) (vm vm' : VM) : Prop where
  SPP : vm'.SPP = vm.SPP
  gas : vm'.io_gas < vm.io_gas
  total : vm'.io_gas + memGas vm'.mem.length ≤ vm.io_gas + memGas vm.mem.length
  words : 32 ∣ vm.mem.length → 32 ∣ vm'.mem.length
  returned : vm.returnData.length < 2 ^ 64 → vm'.returnData.length < 2 ^ 64
  PC : vm'.PC = vm.PC + op.width + 1 ∨ vm'.PC ∈ c.jumpDests

def Rounds (c : Context) (op : Instruction) (vm : VM) : Round → Prop := Sum.elim (Passed c op vm) (Ended c)

theorem NEXT_all {op : Instruction} {x : Prog VM} (hw : op.width = 0) (h : x.All (terms c) (Kept vm)) :
    (NEXT x).All (terms c) (Rounds c op vm) := by
  unfold NEXT
  rw [Asks.all_bind]
  refine h.mono fun vm' hk => (Asks.all_ret _).2 ⟨hk.SPP, hk.gas, hk.total, hk.words, hk.returned, .inl ?_⟩
  rw [setPC_PC, hk.PC, hw]

theorem CONTINUE_all {op : Instruction} {x : Prog VM}
    (h : x.All (terms c) fun vm' => Kept vm (vm'.setPC vm.PC) ∧ (vm'.PC = vm.PC + op.width + 1 ∨ vm'.PC ∈ c.jumpDests)) :
    (CONTINUE x).All (terms c) (Rounds c op vm) := by
  unfold CONTINUE
  rw [Asks.all_bind]
  exact h.mono fun vm' hk => (Asks.all_ret _).2 ⟨hk.1.SPP, hk.1.gas, hk.1.total, hk.1.words, hk.1.returned, hk.2⟩

theorem since_all {reverts : Nat → Bytes → Prop} {rev : Revision} {x : Prog VM} {post : VM → Prop}
    (h : rev ≤ c.rev → x.All (rules c reverts) post) : (since c rev x).All (rules c reverts) post := by
  unfold since
  split
  · exact (Asks.all_stop _).2 trivial
  · next hrev => exact h (Revision.not_lt.1 hrev)

namespace FetchedOp

variable {op : Instruction} {vm0 : VM} (hf : FetchedOp c op vm0 vm) {gas required : Nat} {change : Int}
include hf

/-- The row of the instruction. -/
theorem row (hm : op.metrics c.rev = ⟨gas, required, change⟩) :
    vm.runGas = gas ∧ vm.SP + required ≤ 1024 ∧ (vm.SPP : Int) = vm.SP - change := by
  have hrun := hf.run
  have hreq := hf.required
  have hchg := hf.change
  rw [hm] at hrun hreq hchg
  exact ⟨hrun, hreq, hchg⟩

/-- An instruction that pushes one word for the words it takes. -/
theorem ordinary {f : VM → Prog Word} {n : Nat} (hm : op.metrics c.rev = ⟨gas, n, 1 - n⟩) (hpos : 0 < gas)
    (h : ∀ vm : VM, vm.SP + n ≤ 1024 → (f vm).All (terms c) fun _ => True) :
    (ordinary f vm).All (terms c) (Kept vm) := by
  obtain ⟨hrun, hreq, hchg⟩ := hf.row hm
  exact ordinary_kept (by omega) (by omega) fun _ => h _ hreq

theorem unary {f : Word → Word} (hm : op.metrics c.rev = ⟨gas, 1, 0⟩) (hpos : 0 < gas) :
    (unary f vm).All (terms c) (Kept vm) := by
  obtain ⟨hrun, hreq, hchg⟩ := hf.row hm
  exact unary_kept (by omega) hreq (by omega)

theorem binary {f : Word → Word → Word} (hm : op.metrics c.rev = ⟨gas, 2, -1⟩) (hpos : 0 < gas) :
    (binary f vm).All (terms c) (Kept vm) := by
  obtain ⟨hrun, hreq, hchg⟩ := hf.row hm
  exact binary_kept (by omega) hreq (by omega)

theorem ternary {f : Word → Word → Word → Word} (hm : op.metrics c.rev = ⟨gas, 3, -2⟩) (hpos : 0 < gas) :
    (ternary f vm).All (terms c) (Kept vm) := by
  obtain ⟨hrun, hreq, hchg⟩ := hf.row hm
  exact ternary_kept (by omega) hreq (by omega)

theorem fetched (hm : op.metrics c.rev = ⟨gas, required, change⟩) (hpos : 0 < gas) (hle : gas ≤ 32000) :
    Fetched vm := by
  obtain ⟨hrun, -, -⟩ := hf.row hm
  exact ⟨hf.copy, by omega, by omega⟩

end FetchedOp

/-- `x` ends the run or fails. -/
theorem ends_all {op : Instruction} {x : Prog Round} (h : x.All (terms c) (Sum.elim (fun _ => False) (Ended c))) :
    x.All (terms c) (Rounds c op vm) := by
  refine h.mono fun r hr => ?_
  cases r with
  | inl vm' => exact hr.elim
  | inr r => exact hr

theorem interpretCases_all {op : Instruction} {vm0 : VM} (hf : FetchedOp c op vm0 vm) (hlt : vm.io_gas < 2 ^ 63)
    (hgas : vm.io_gas + memGas vm.mem.length ≤ c.message.gas.toNat)
    (hpush : vm.PC + 1 + op.width ≤ c.code.length) : (interpretCases c vm op).All (terms c) (Rounds c op vm) := by
  cases op with
  | ADD | MUL | SUB | DIV | SDIV | MOD | SMOD | LT | GT | SLT | SGT | EQ | AND | OR | XOR | BYTE =>
    exact NEXT_all rfl (hf.binary rfl (by decide))
  | ISZERO | NOT => exact NEXT_all rfl (hf.unary rfl (by decide))
  | ADDMOD | MULMOD => exact NEXT_all rfl (hf.ternary rfl (by decide))
  | SHL | SHR | SAR => exact NEXT_all rfl (since_all fun hrev => hf.binary (if_pos hrev) (by decide))
  | ADDRESS | ORIGIN | CALLER | CALLVALUE | CALLDATASIZE | CODESIZE | GASPRICE | COINBASE | TIMESTAMP | NUMBER
  | DIFFICULTY | GASLIMIT | PC | MSIZE | GAS =>
    exact NEXT_all rfl (hf.ordinary (n := 0) rfl (by decide) fun _ _ => (Asks.all_ret _).2 trivial)
  | CHAINID | RETURNDATASIZE =>
    exact NEXT_all rfl (since_all fun hrev =>
      hf.ordinary (n := 0) (if_pos hrev) (by decide) fun _ _ => (Asks.all_ret _).2 trivial)
  | SELFBALANCE =>
    exact NEXT_all rfl (since_all fun hrev => hf.ordinary (n := 0) (if_pos hrev) (by decide) fun _ _ =>
      all_asked (q := .get_balance _) trivial fun _ _ => trivial)
  | BALANCE =>
    refine NEXT_all rfl (hf.ordinary (n := 1) rfl (by split <;> [decide; split <;> decide]) fun vm hsp => ?_)
    rw [Asks.all_bind, all_sp_top (by omega)]
    exact all_asked (q := .get_balance _) trivial fun _ _ => trivial
  | EXTCODESIZE =>
    refine NEXT_all rfl (hf.ordinary (n := 1) rfl (by split <;> decide) fun vm hsp => ?_)
    rw [Asks.all_bind, all_sp_top (by omega), Asks.all_bind]
    exact all_asked (q := .get_code_size _) trivial fun _ _ => (Asks.all_ret _).2 trivial
  | EXTCODEHASH =>
    refine NEXT_all rfl (since_all fun hrev => ?_)
    have hrow : Instruction.EXTCODEHASH.metrics c.rev = ⟨if .ISTANBUL ≤ c.rev then 700 else 400, 1, 0⟩ := by
      show (if _ then _ else if _ then _ else _) = _
      rw [if_pos hrev]
      split <;> rfl
    refine hf.ordinary (n := 1) hrow (by split <;> decide) fun vm hsp => ?_
    rw [Asks.all_bind, all_sp_top (by omega)]
    exact all_asked (q := .get_code_hash _) trivial fun _ _ => trivial
  | SLOAD =>
    refine NEXT_all rfl (hf.ordinary (n := 1) rfl (by split <;> [decide; split <;> decide]) fun vm hsp => ?_)
    rw [Asks.all_bind, all_sp_top (by omega)]
    exact all_asked (q := .get_storage _ _) rfl fun _ _ => trivial
  | BLOCKHASH =>
    obtain ⟨-, hreq, hchg⟩ := hf.row rfl
    refine NEXT_all rfl (Asks.All.mono (ordinary_kept (by simp [stepGas6]) ?_ fun gas => ?_) fun _ h => h.of_run _)
    · rw [setRunGas_SPP]
      omega
    · rw [Asks.all_bind, all_sp_top (by exact hreq)]
      exact all_asked (q := .get_block_hash _) trivial fun _ _ => trivial
  | EXP =>
    obtain ⟨-, hreq, hchg⟩ := hf.row rfl
    exact NEXT_all rfl (EXP_kept hreq (by omega))
  | SIGNEXTEND =>
    obtain ⟨hrun, hreq, hchg⟩ := hf.row rfl
    exact NEXT_all rfl (SIGNEXTEND_kept (by rw [hrun]; decide) hreq)
  | CALLDATALOAD =>
    obtain ⟨hrun, hreq, hchg⟩ := hf.row rfl
    exact NEXT_all rfl (CALLDATALOAD_kept (by rw [hrun]; decide) hreq)
  | POP =>
    obtain ⟨hrun, hreq, hchg⟩ := hf.row rfl
    exact NEXT_all rfl (POP_kept (by rw [hrun]; decide))
  | DUP n =>
    obtain ⟨hrun, hreq, hchg⟩ := hf.row rfl
    exact NEXT_all rfl (DUP_kept (by rw [hrun]; decide) hreq (by omega))
  | SWAP n =>
    obtain ⟨hrun, hreq, hchg⟩ := hf.row rfl
    exact NEXT_all rfl (SWAP_kept (by rw [hrun]; decide) (by omega))
  | JUMPDEST => exact NEXT_all rfl JUMPDEST_kept
  | SSTORE => exact NEXT_all rfl (SSTORE_kept (hf.row rfl).2.1)
  | MLOAD =>
    obtain ⟨hrun, hreq, hchg⟩ := hf.row rfl
    exact NEXT_all rfl (MLOAD_kept (hf.fetched rfl (by decide) (by decide)) hreq (by omega))
  | MSTORE => exact NEXT_all rfl (MSTORE_kept (hf.fetched rfl (by decide) (by decide)) (hf.row rfl).2.1)
  | MSTORE8 => exact NEXT_all rfl (MSTORE8_kept (hf.fetched rfl (by decide) (by decide)) (hf.row rfl).2.1)
  | SHA3 =>
    obtain ⟨hrun, hreq, hchg⟩ := hf.row rfl
    exact NEXT_all rfl (SHA3_kept (hf.fetched rfl (by decide) (by decide)) hreq (by omega))
  | LOG n => exact NEXT_all rfl (LOG_kept hf.copy (hf.row rfl).2.1)
  | CALLDATACOPY | CODECOPY =>
    exact NEXT_all rfl (COPY_kept (hf.fetched rfl (by decide) (by decide)) (hf.row rfl).2.1)
  | RETURNDATACOPY =>
    exact NEXT_all rfl (RETURNDATACOPY_kept fun hrev =>
      ⟨hf.fetched (if_pos hrev) (by decide) (by decide), (hf.row (if_pos hrev)).2.1⟩)
  | EXTCODECOPY =>
    exact NEXT_all rfl (EXTCODECOPY_kept (hf.fetched rfl (by split <;> decide) (by split <;> decide)) (hf.row rfl).2.1)
  | STOP => exact ends_all (STOP_all hgas)
  | RETURN =>
    obtain ⟨hrun, hreq, -⟩ := hf.row rfl
    exact ends_all (RETURN_all (by rw [hrun]; decide) hreq hgas)
  | REVERT =>
    refine (REVERT_all ?_ (fun hrev => (hf.row (if_pos hrev)).2.1) hgas).mono fun _ h => h.elim
    rw [hf.run]
    show Instruction.Metrics.gas_cost (if _ then _ else _) ≤ _
    split <;> decide
  | SELFDESTRUCT => exact ends_all (SELFDESTRUCT_all (hf.row rfl).2.1 hgas)
  | PUSH n =>
    obtain ⟨hrun, -, hchg⟩ := hf.row rfl
    have hreq := hf.required
    refine CONTINUE_all ((PUSH_kept (by rw [hrun]; decide) (by omega) hpush).mono fun vm' h => ⟨h.1, .inl ?_⟩)
    rw [h.2, Instruction.width]
    omega
  | JUMP =>
    obtain ⟨hrun, hreq, -⟩ := hf.row rfl
    exact CONTINUE_all ((JUMP_kept (by rw [hrun]; decide) hreq).mono fun vm' h => ⟨h.1, h.2.symm⟩)
  | JUMPI =>
    obtain ⟨hrun, hreq, -⟩ := hf.row rfl
    exact CONTINUE_all ((JUMPI_kept (by rw [hrun]; decide) hreq).mono fun vm' h => ⟨h.1, h.2.symm⟩)
  | CREATE =>
    obtain ⟨-, hreq, hchg⟩ := hf.row rfl
    exact NEXT_all rfl (CREATE_kept (fun h => by cases h) (fun _ => ⟨hreq, by omega⟩) hf.copy hlt)
  | CREATE2 =>
    refine NEXT_all rfl (CREATE_kept (fun _ hrev => ?_) (fun h => by cases h) hf.copy hlt)
    obtain ⟨-, hreq, hchg⟩ := hf.row (if_pos hrev)
    exact ⟨hreq, by omega⟩
  | CALL | CALLCODE =>
    obtain ⟨hrun, hreq, hchg⟩ := hf.row rfl
    exact NEXT_all rfl (CALL_kept (fun _ _ => ⟨hreq, by omega, by rw [hrun]; split <;> decide⟩) hf.copy
      (by rw [hrun]; split <;> decide) hlt)
  | DELEGATECALL =>
    have hle : vm.runGas ≤ 32000 := by
      rw [hf.run]
      show Instruction.Metrics.gas_cost (if _ then _ else if _ then _ else _) ≤ _
      split <;> [decide; split <;> decide]
    refine NEXT_all rfl (CALL_kept (fun hrev _ => ?_) hf.copy hle hlt)
    have hrow : Instruction.DELEGATECALL.metrics c.rev = ⟨if .TANGERINE_WHISTLE ≤ c.rev then 700 else 40, 6, -5⟩ := by
      show (if _ then _ else if _ then _ else _) = _
      rw [if_pos (hrev rfl)]
      split <;> rfl
    obtain ⟨hrun, hreq, hchg⟩ := hf.row hrow
    exact ⟨hreq, by omega, by rw [hrun]; split <;> decide⟩
  | STATICCALL =>
    have hle : vm.runGas ≤ 32000 := by
      rw [hf.run]
      show Instruction.Metrics.gas_cost (if _ then _ else _) ≤ _
      split <;> decide
    refine NEXT_all rfl (CALL_kept (fun _ hrev => ?_) hf.copy hle hlt)
    obtain ⟨hrun, hreq, hchg⟩ := hf.row (if_pos (hrev rfl))
    exact ⟨hreq, by omega, by rw [hrun]; decide⟩
  | INVALID | PUSHC | JUMPC | JUMPCI | BAD => exact (Asks.all_stop _).2 trivial

/-- What holds before each round. -/
structure Inv (c : Context) (vm : VM) : Prop where
  height : vm.SPP ≤ 1024
  boundary : Boundary c.pCode vm.PC
  total : vm.io_gas + memGas vm.mem.length ≤ c.message.gas.toNat
  words : 32 ∣ vm.mem.length
  returned : vm.returnData.length < 2 ^ 64

/-- The gas of the message is not negative. -/
def Context.Granted (c : Context) : Prop := c.message.gas.toNat < 2 ^ 63

theorem Inv.start : Inv c (start c.message) where
  height := Nat.le_refl _
  boundary := .zero
  total := by simp [VM.start, memGas]
  words := ⟨0, rfl⟩
  returned := by simp [VM.start]

theorem Inv.of_passed {op : Instruction} {vm' : VM} (ho : Optimized c.pCode c.code c.jumpDests)
    (hop : op = .ofByte (c.code.getD vm.PC 0)) (hpc : vm.PC < c.pCode.length) (h : Inv c vm)
    {vm1 : VM} (hf : FetchedOp c op vm vm1) (hp : Passed c op vm1 vm') (hle : vm1.SPP ≤ 1024) :
    Inv c vm' ∧ vm'.io_gas < vm.io_gas := by
  have hgas := hp.gas
  have htotal := hp.total
  rw [hf.io_gas, hf.mem] at htotal
  rw [hf.io_gas] at hgas
  refine ⟨⟨hp.SPP ▸ hle, ?_, Nat.le_trans htotal h.total, hp.words (hf.mem ▸ h.words),
    hp.returned (hf.returnData ▸ h.returned)⟩, hgas⟩
  rcases hp.PC with hnext | hdest
  · have hafter := ho.after h.boundary
    rw [hnext, hf.PC, hop, width_ofByte, ← hafter]
    exact .step h.boundary hpc
  · exact ((ho.mem_iff _).1 hdest).1

/-- **A round** keeps the invariant and costs gas, or it ends the run. -/
theorem step_all (hm : c.Made) (hg : c.Granted) (h : Inv c vm) :
    (step c vm).All (terms c) (Sum.elim (fun vm' => Inv c vm' ∧ vm'.io_gas < vm.io_gas) (Ended c)) := by
  have ho := hm.optimized
  have hlen := ho.length
  have htotal := h.total
  have hg : c.message.gas.toNat < 2 ^ 63 := hg
  have hbound := h.boundary.le
  unfold step
  rw [Asks.all_bind]
  refine fetchInstruction_all (by omega) fun vm1 hf => ?_
  have hle : vm1.SPP ≤ 1024 := by
    have hreq := hf.required
    have hchg := hf.change
    have := Instruction.covers c.rev (.ofByte (c.code.getD vm.PC 0))
    omega
  have hgas1 : vm1.io_gas + memGas vm1.mem.length ≤ c.message.gas.toNat := by
    rw [hf.io_gas, hf.mem]
    exact htotal
  by_cases hpc : vm.PC < c.pCode.length
  · have hwidth := pushBytes_le (c.code.getD vm.PC 0)
    refine (interpretCases_all hf (by omega) hgas1 ?_).mono fun r hr => ?_
    · rw [width_ofByte, hf.PC]
      omega
    · cases r with
      | inl vm' => exact Inv.of_passed ho rfl hpc h hf hr hle
      | inr r => exact hr
  · -- behind the code the run stops
    have hstop : Instruction.ofByte (c.code.getD vm.PC 0) = .STOP := by
      rw [ho.stop (by omega)]
      rfl
    rw [hstop]
    refine (STOP_all hgas1).mono fun r hr => ?_
    cases r with
    | inl vm' => exact hr.elim
    | inr r => exact hr

/-! ## Runs -/

theorem exec_all (hm : c.Made) (hg : c.Granted) (n : Nat) :
    (exec c n).All (terms c) fun o => ∀ r ∈ o, Ended c r := by
  refine Asks.loop_all (fun vm h => (step_all hm hg h).mono fun r hr => ?_) n Inv.start
  cases r with
  | inl vm' => exact hr.1
  | inr r => exact hr

/-- Every round costs gas, so there are no more rounds than gas. -/
theorem exec_ends (hm : c.Made) (hg : c.Granted) {n : Nat} (hn : c.message.gas.toNat < n) :
    (exec c n).All (terms c) fun o => ∃ r, o = some r ∧ Ended c r :=
  Asks.loop_ends VM.io_gas (fun _ h => step_all hm hg h) n Inv.start hn

theorem Inv.of_reach (hm : c.Made) (hg : c.Granted)
    (hr : Asks.Reach (terms c) (step c) (VM.start c.message) vm) : Inv c vm := by
  have hstep : ∀ vm, Inv c vm → (step c vm).All (terms c) (Sum.elim (Inv c) (Ended c)) := fun vm h =>
    (step_all hm hg h).mono fun r hr => by
      cases r with
      | inl vm' => exact hr.1
      | inr r => exact hr
  exact hr.keeps Inv.start hstep

/-- A run of the loop to its end: as many rounds as there is gas, and one more. -/
def Runs (c : Context) (tr : List (Σ q : HostCall, q.Reply)) (o : Except VMException (VM × Bytes)) : Prop :=
  (exec c (c.message.gas.toNat + 1)).Plays tr (o.map some)

end

/-! ### A run to look at -/

/-- 30000 gas for the account 5. -/
def balanceCall : EvmcMessage where
  kind := .call
  static := false
  sender := 7
  destination := 5
  value := 0
  input := []
  gas := 30000
  create2_salt := 0
  depth := 0

/-- `ADDRESS`, `BALANCE`, `PUSH1 0`, `SSTORE`. -/
def balanceContext : Context :=
  .new .ISTANBUL balanceCall ⟨0, 0, 0, 0, 0, 0, 0, 0⟩ [0x30, 0x31, 0x60, 0x00, 0x55] fun _ => 0

/-- The host is asked for the balance of the account, which is 9, and to store it. -/
def balanceAsked : List (Σ q : HostCall, q.Reply) :=
  [⟨.get_balance 5, (9 : Word)⟩, ⟨.set_storage 5 0 9, EvmcStorageStatus.ADDED⟩]

theorem balance_run : ∃ r, Runs balanceContext balanceAsked (.ok r) := by
  have hrun : (((exec balanceContext 30001).play balanceAsked).bind fun o => o.toOption.join.map fun _ => ()) =
      some () := by decide +kernel
  cases hplay : (exec balanceContext 30001).play balanceAsked with
  | none => rw [hplay] at hrun; cases hrun
  | some o =>
    rw [hplay] at hrun
    cases o with
    | error ex => cases hrun
    | ok r =>
      cases r with
      | none => cases hrun
      | some r => exact ⟨r, Asks.plays_of_play hplay⟩

theorem balance_answered : Asks.Answered (terms balanceContext) balanceAsked := by
  intro a ha
  obtain rfl | rfl : a = ⟨.get_balance 5, (9 : Word)⟩ ∨ a = ⟨.set_storage 5 0 9, EvmcStorageStatus.ADDED⟩ := by
    simpa [balanceAsked] using ha
  · trivial
  · trivial

section
variable (rev : Revision) (message : EvmcMessage) (tx : TxContext) (pCode : Bytes) (keccak256 : Bytes → Word)

/-- **Every place an instruction starts.** Whatever the code and the answers, a run is only ever at
the start of an instruction or behind the code, on a stack and a memory of whole words that it has
room and gas for. -/
theorem reach_boundary (hg : message.gas.toNat < 2 ^ 63) {vm : VM}
    (hr : Asks.Reach (terms (.new rev message tx pCode keccak256)) (step (.new rev message tx pCode keccak256))
      (start message) vm) :
    Boundary pCode vm.PC ∧ vm.SPP ≤ 1024 ∧ 32 ∣ vm.mem.length ∧
      vm.io_gas + memGas vm.mem.length ≤ message.gas.toNat := by
  have h := Inv.of_reach (c := .new rev message tx pCode keccak256) rfl hg hr
  exact ⟨h.boundary, h.height, h.words, h.total⟩

theorem reach_boundary_address : ∃ vm : VM, vm.PC = 1 ∧ Boundary balanceContext.pCode vm.PC ∧ vm.SPP ≤ 1024 ∧
    32 ∣ vm.mem.length ∧ vm.io_gas + memGas vm.mem.length ≤ 30000 := by
  have hrun : (((step balanceContext (start balanceCall)).play []).bind fun o => o.toOption.bind fun r =>
      r.getLeft?.map fun vm => vm.PC) = some 1 := by decide +kernel
  obtain ⟨o, hplay, ho⟩ := Option.bind_eq_some_iff.1 hrun
  cases o with
  | error ex => cases ho
  | ok r =>
    cases r with
    | inr r => cases ho
    | inl vm =>
      refine ⟨vm, Option.some.inj ho, reach_boundary _ balanceCall _ _ _ (by decide)
        (.next .start (Asks.plays_of_play hplay) ?_)⟩
      exact fun a ha => by cases ha

/-- **No access outside of an array**, for any code, any message with gas and any answers the
host may give. -/
theorem exec_defined (hg : message.gas.toNat < 2 ^ 63) (n : Nat) {tr : List (Σ q : HostCall, q.Reply)}
    {o : Except VMException (Option (VM × Bytes))} (hp : (exec (.new rev message tx pCode keccak256) n).Plays tr o)
    (ha : Asks.Answered (terms (.new rev message tx pCode keccak256)) tr) : o ≠ .error .undefined := by
  rintro rfl
  exact (exec_all (c := .new rev message tx pCode keccak256) rfl hg n).error hp ha

theorem exec_defined_balance : ∃ o, (exec balanceContext 30001).Plays balanceAsked o ∧ o ≠ .error .undefined :=
  balance_run.elim fun _ hr => ⟨_, hr, exec_defined _ balanceCall _ _ _ (by decide) 30001 hr balance_answered⟩

/-- **What a frame asks.** -/
theorem exec_allowed (hg : message.gas.toNat < 2 ^ 63) (n : Nat) {tr : List (Σ q : HostCall, q.Reply)}
    {o : Except VMException (Option (VM × Bytes))} (hp : (exec (.new rev message tx pCode keccak256) n).Plays tr o)
    (ha : Asks.Answered (terms (.new rev message tx pCode keccak256)) tr) :
    ∀ a ∈ tr, Allowed (.new rev message tx pCode keccak256) a.1 :=
  (exec_all (c := .new rev message tx pCode keccak256) rfl hg n).question hp ha

theorem exec_allowed_balance :
    ∃ o, (exec balanceContext 30001).Plays balanceAsked o ∧ ∀ a ∈ balanceAsked, Allowed balanceContext a.1 :=
  balance_run.elim fun _ hr => ⟨_, hr, exec_allowed _ balanceCall _ _ _ (by decide) 30001 hr balance_answered⟩

/-- **The loop ends** within as many rounds as there is gas, and one more. -/
theorem exec_total (hg : message.gas.toNat < 2 ^ 63) {n : Nat} (hn : message.gas.toNat < n)
    {tr : List (Σ q : HostCall, q.Reply)} {o : Except VMException (Option (VM × Bytes))}
    (hp : (exec (.new rev message tx pCode keccak256) n).Plays tr o)
    (ha : Asks.Answered (terms (.new rev message tx pCode keccak256)) tr) : o ≠ .ok none := by
  rintro rfl
  obtain ⟨r, hr, -⟩ := (exec_ends (c := .new rev message tx pCode keccak256) rfl hg hn).ok hp ha
  cases hr

theorem exec_total_balance : ∃ o, (exec balanceContext 30001).Plays balanceAsked o ∧ o ≠ .ok none :=
  balance_run.elim fun _ hr =>
    ⟨_, hr, exec_total _ balanceCall _ _ _ (by decide) (n := 30001) (by decide) hr balance_answered⟩

theorem report_le (hg : message.gas.toNat < 2 ^ 63) {tr : List (Σ q : HostCall, q.Reply)}
    {o : Except VMException (VM × Bytes)} (hr : Runs (.new rev message tx pCode keccak256) tr o)
    (ha : Asks.Answered (terms (.new rev message tx pCode keccak256)) tr) :
    (execute o).gas_left.toNat ≤ message.gas.toNat := by
  have hall := exec_all (c := .new rev message tx pCode keccak256) rfl hg (message.gas.toNat + 1)
  cases o with
  | ok r =>
    have hend : r.1.io_gas + memGas r.1.mem.length ≤ message.gas.toNat := hall.ok hr ha r rfl
    show (BitVec.ofNat 64 r.1.io_gas).toNat ≤ _
    exact Nat.le_trans (Nat.mod_le ..) (by omega)
  | error ex =>
    have hs : Fails _ ex := hall.error hr ha
    cases ex with
    | RevertInstruction io_gas output => exact Nat.le_trans (Nat.mod_le ..) hs
    | _ => exact Nat.zero_le _

/-- **The gas the accounting relies on**: what a run reports to have left is what the account of a
frame that was given `gas` takes for granted. -/
theorem report_granted {gas : Int} (hgas : message.gas = BitVec.ofInt 64 gas) (h0 : 0 ≤ message.gas.toInt)
    {tr : List (Σ q : HostCall, q.Reply)} {o : Except VMException (VM × Bytes)}
    (hr : Runs (.new rev message tx pCode keccak256) tr o)
    (ha : Asks.Answered (terms (.new rev message tx pCode keccak256)) tr) :
    L4.Granted gas (execute o).gas_left.toInt := by
  have hg : message.gas.toNat < 2 ^ 63 := by
    have := message.gas.isLt
    rw [BitVec.toInt_eq_toNat_cond] at h0
    split at h0 <;> omega
  have hle := report_le rev message tx pCode keccak256 hg hr ha
  have hleft : (execute o).gas_left.toInt = (execute o).gas_left.toNat := BitVec.toInt_eq_toNat_of_lt (by omega)
  have hmsg : message.gas.toInt = message.gas.toNat := BitVec.toInt_eq_toNat_of_lt (by omega)
  refine ⟨by omega, .inr ?_⟩
  rw [← hgas]
  omega

theorem report_granted_balance : ∃ o, Runs balanceContext balanceAsked o ∧ L4.Granted 30000 (execute o).gas_left.toInt :=
  balance_run.elim fun _ hr => ⟨_, hr, report_granted _ balanceCall _ _ _ rfl (by decide) hr balance_answered⟩

end
end VM
end Diode.L4
