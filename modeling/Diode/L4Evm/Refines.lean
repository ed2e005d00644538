import Diode.L4Evm.Machine

/-!
# The interpreter against the machine

`abs` reads the machine off the arrays: the stack from its top to the end of
its array, the memory with zeros behind it. A round of the interpreter that goes
on with an instruction that asks nothing of the host is a step of the machine
(`round_refines`), and the bytes a run returns or reverts with are those of the
machine.
-/
namespace Diode.L4.VM
open Diode.Core

/-! ## Reading the arrays -/

/-- The stack from the place `p` to the end of its array. -/
def cells (stack : Nat → Word) (p : Nat) : List Word := (List.range' p (1024 - p)).map stack

theorem cells_cons {stack : Nat → Word} {p : Nat} (h : p < 1024) : cells stack p = stack p :: cells stack (p + 1) := by
  unfold cells
  rw [show 1024 - p = (1024 - (p + 1)) + 1 by omega, List.range'_succ, List.map_cons]

theorem getElem?_cells (stack : Nat → Word) (p i : Nat) :
    (cells stack p)[i]? = if p + i < 1024 then some (stack (p + i)) else none := by
  unfold cells
  rw [List.getElem?_map]
  split
  · rw [List.getElem?_range' (by omega)]
    simp
  · rw [List.getElem?_eq_none (by simp; omega)]
    rfl

/-- A word written below the top. -/
theorem cells_update (stack : Nat → Word) (p i : Nat) (w : Word) :
    cells (Function.update stack (p + i) w) p = (cells stack p).set i w := by
  apply List.ext_getElem?
  intro j
  rw [getElem?_cells, List.getElem?_set, getElem?_cells]
  simp only [Function.update_apply]
  by_cases hij : i = j
  · subst hij
    rw [if_pos rfl, if_pos rfl]
    unfold cells
    split <;> split <;> simp_all <;> omega
  · rw [if_neg hij, if_neg (by omega : ¬p + j = p + i)]

theorem cells_push {stack : Nat → Word} {p : Nat} {w : Word} (h : p < 1024) :
    cells (Function.update stack p w) p = w :: cells stack (p + 1) := by
  have := cells_update stack p 0 w
  rw [Nat.add_zero] at this
  rw [this, cells_cons h, List.set_cons_zero]

/-- The machine with the stack from the place `p` on. -/
def view (vm : VM) (p : Nat) : Machine where
  stack := cells vm.stack p
  mem i := vm.mem.getD i 0
  size := vm.mem.length
  pc := vm.PC
  returnData := vm.returnData

def abs (vm : VM) : Machine := vm.view vm.SPP

/-- What an instruction finds that was fetched. -/
def found (vm : VM) : Machine := vm.view vm.SP

section
variable {c : Context} {vm : VM} {reverts : Nat → Bytes → Prop}

/-- What an instruction does that goes on to the next one. -/
def Does (c : Context) (op : Instruction) (vm vm' : VM) : Prop :=
  Machine.Step c vm'.io_gas vm.found op (vm'.setPC (vm'.PC + 1)).abs

/-- What an instruction costs does not count. -/
theorem Does.of_run {op : Instruction} {vm' : VM} {runGas : Nat} (h : Does c op (vm.setRunGas runGas) vm') :
    Does c op vm vm' := h

theorem found_stack (h : vm.SP < 1024) : vm.found.stack = vm.stack vm.SP :: cells vm.stack (vm.SP + 1) := cells_cons h

theorem found_stack₂ (h : vm.SP + 2 ≤ 1024) :
    vm.found.stack = vm.stack vm.SP :: vm.stack (vm.SP + 1) :: cells vm.stack (vm.SP + 2) := by
  rw [found_stack (by omega), cells_cons (by omega)]

theorem found_stack₃ (h : vm.SP + 3 ≤ 1024) : vm.found.stack =
    vm.stack vm.SP :: vm.stack (vm.SP + 1) :: vm.stack (vm.SP + 2) :: cells vm.stack (vm.SP + 3) := by
  rw [found_stack₂ (by omega), cells_cons (by omega)]

/-! ## Instructions that only compute -/

/-- A word pushed for `n` words, after a payment. -/
theorem abs_push {n gas : Nat} {w : Word} (hspp : vm.SPP + 1 = vm.SP + n) (hsp : vm.SP + n ≤ 1024) :
    (((vm.setGas gas).setStack vm.SPP w).setPC (vm.PC + 1)).abs =
      vm.found.push (cells vm.stack (vm.SP + n)) w := by
  simp only [abs, found, view, Machine.push, setPC_SPP, setStack_SPP, setGas_SPP, setPC_stack, setStack_stack,
    setGas_stack, setPC_mem, setStack_mem, setGas_mem, setPC_PC, setPC_returnData, setStack_returnData,
    setGas_returnData]
  rw [cells_push (by omega), hspp]

/-- `n` words taken, after a payment. -/
theorem abs_pop {n gas : Nat} (hspp : vm.SPP = vm.SP + n) :
    ((vm.setGas gas).setPC (vm.PC + 1)).abs = vm.found.pop (cells vm.stack (vm.SP + n)) := by
  rw [← hspp]
  rfl

theorem ordinary_does {f : VM → Prog Word} {n : Nat} {op : Instruction} (hspp : vm.SPP + 1 = vm.SP + n)
    (hsp : vm.SP + n ≤ 1024) (hw : ∀ gas, (f (vm.setGas gas)).All (rules c reverts) fun w =>
      Machine.Step c gas vm.found op (vm.found.push (cells vm.stack (vm.SP + n)) w)) :
    (ordinary f vm).All (rules c reverts) (Does c op vm) := by
  unfold ordinary
  rw [Asks.all_bind, all_updateIOGas]
  intro _
  rw [Asks.all_bind]
  refine (hw _).mono fun w hw => (all_set_spp (by show vm.SPP < _; omega)).2 ?_
  show Machine.Step c _ vm.found op (((vm.setGas _).setStack vm.SPP w).setPC (vm.PC + 1)).abs
  rw [abs_push hspp hsp]
  exact hw

theorem unary_does {op : Instruction} {f : Word → Word} (hop : op.unop = some f) (hspp : vm.SPP = vm.SP)
    (hsp : vm.SP + 1 ≤ 1024) : (unary f vm).All (rules c reverts) (Does c op vm) :=
  ordinary_does (n := 1) (by omega) hsp fun gas => by
    rw [Asks.all_bind, all_sp (by exact hsp), Asks.all_ret]
    exact .unary hop (found_stack hsp)

theorem binary_does {op : Instruction} {f : Word → Word → Word} (hop : op.binop = some f) (hspp : vm.SPP = vm.SP + 1)
    (hsp : vm.SP + 2 ≤ 1024) : (binary f vm).All (rules c reverts) (Does c op vm) :=
  ordinary_does (n := 2) (by omega) hsp fun gas => by
    simp only [Asks.all_bind]
    rw [all_sp (by simp; omega), all_sp (by simp; omega), Asks.all_ret]
    exact .binary hop (found_stack₂ hsp)

theorem ternary_does {op : Instruction} {f : Word → Word → Word → Word} (hop : op.ternop = some f)
    (hspp : vm.SPP = vm.SP + 2) (hsp : vm.SP + 3 ≤ 1024) : (ternary f vm).All (rules c reverts) (Does c op vm) :=
  ordinary_does (n := 3) (by omega) hsp fun gas => by
    simp only [Asks.all_bind]
    rw [all_sp (by simp; omega), all_sp (by simp; omega), all_sp (by simp; omega), Asks.all_ret]
    exact .ternary hop (found_stack₃ hsp)

/-- A word of the surroundings. -/
theorem surroundings_does {op : Instruction} {f : VM → Word} (hspp : vm.SPP + 1 = vm.SP) (hsp : vm.SP ≤ 1024)
    (hw : ∀ gas, vm.found.surroundings c gas op = some (f (vm.setGas gas))) :
    (ordinary (fun vm => .ret (f vm)) vm).All (rules c reverts) (Does c op vm) :=
  ordinary_does (n := 0) (by omega) hsp fun gas => (Asks.all_ret _).2 (.surroundings (hw gas))

theorem DUP_does {n : Nat} (hspp : vm.SPP + 1 = vm.SP) (hsp : vm.SP + (n + 1) ≤ 1024) :
    (DUP n vm).All (rules c reverts) (Does c (.DUP n) vm) :=
  ordinary_does (n := 0) (by omega) (by omega) fun gas => (all_sp (by exact hsp)).2 (.dup (by
    show (cells vm.stack vm.SP)[n]? = _
    rw [getElem?_cells, if_pos (by omega)]
    rfl))

theorem EXP_does (hspp : vm.SPP = vm.SP + 1) (hsp : vm.SP + 2 ≤ 1024) :
    (EXP c vm).All (rules c reverts) (Does c .EXP vm) := by
  unfold EXP
  simp only [Asks.all_bind]
  rw [all_sp (by omega), all_toInt63]
  intro _
  exact (binary_does binop_EXP (by exact hspp) (by exact hsp)).mono fun vm' h => h.of_run

theorem SIGNEXTEND_does (hspp : vm.SPP = vm.SP + 1) (hsp : vm.SP + 2 ≤ 1024) :
    (SIGNEXTEND vm).All (rules c reverts) (Does c .SIGNEXTEND vm) := by
  have hstep := fun gas => @Machine.Step.binary c gas _ _ _ _ _ _ binop_SIGNEXTEND (found_stack₂ hsp)
  unfold SIGNEXTEND
  simp only [Asks.all_bind]
  refine all_updateIOGas.2 fun _ => ?_
  rw [all_sp_top (by simp; omega)]
  simp only [setGas_stack, setGas_SP]
  split
  · next h =>
    rw [Asks.all_bind, all_sp (by simp; omega), all_set_sp (by simp; omega)]
    simp only [if_pos h] at hstep
    show Machine.Step c _ vm.found .SIGNEXTEND (((vm.setGas _).setStack (vm.SP + 1) _).setPC (vm.PC + 1)).abs
    rw [← hspp, abs_push (by omega) hsp]
    exact hstep _
  · next h =>
    -- the number is left where it is
    have hnum : cells vm.stack (vm.SP + 1) = vm.stack (vm.SP + 1) :: cells vm.stack (vm.SP + 2) := cells_cons (by omega)
    refine (Asks.all_ret _).2 ?_
    show Machine.Step c _ vm.found .SIGNEXTEND ((vm.setGas _).setPC (vm.PC + 1)).abs
    rw [abs_pop hspp, hnum]
    simp only [if_neg h] at hstep
    exact hstep _

/-- `n` words are taken and paid for. -/
theorem updateIOGas_does {op : Instruction} {n : Nat} (hspp : vm.SPP = vm.SP + n)
    (h : ∀ gas, Machine.Step c gas vm.found op (vm.found.pop (cells vm.stack (vm.SP + n)))) :
    (updateIOGas vm).All (rules c reverts) (Does c op vm) := by
  refine all_updateIOGas.2 fun _ => ?_
  show Machine.Step c _ vm.found op ((vm.setGas _).setPC (vm.PC + 1)).abs
  rw [abs_pop hspp]
  exact h _

theorem POP_does (hspp : vm.SPP = vm.SP + 1) (hsp : vm.SP + 1 ≤ 1024) : (POP vm).All (rules c reverts) (Does c .POP vm) :=
  updateIOGas_does hspp fun _ => .pop (found_stack hsp)

theorem JUMPDEST_does (hspp : vm.SPP = vm.SP) : (JUMPDEST vm).All (rules c reverts) (Does c .JUMPDEST vm) :=
  Asks.All.mono (updateIOGas_does (n := 0) (by exact hspp) fun _ => .jumpdest) fun _ h => h.of_run

theorem SWAP_does {n : Nat} (hspp : vm.SPP = vm.SP) (hsp : vm.SP + (n + 2) ≤ 1024) :
    (SWAP n vm).All (rules c reverts) (Does c (.SWAP n) vm) := by
  have hget : ∀ i, i ≤ n + 1 → vm.found.stack[i]? = some (vm.stack (vm.SP + i)) := fun i hi => by
    show (cells vm.stack vm.SP)[i]? = _
    rw [getElem?_cells, if_pos (by omega)]
  unfold SWAP
  simp only [Asks.all_bind]
  refine all_updateIOGas.2 fun _ => ?_
  rw [all_sp (by simp; omega), all_sp (by simp; omega), all_set_sp (by simp; omega), all_set_sp (by simp; omega)]
  have habs : ∀ gas x y, ((((vm.setGas gas).setStack (vm.SP + 0) y).setStack (vm.SP + (n + 1)) x).setPC
      (vm.PC + 1)).abs = vm.found.pop ((vm.found.stack.set 0 y).set (n + 1) x) := by
    intro gas x y
    simp only [abs, found, view, Machine.pop, setPC_SPP, setStack_SPP, setGas_SPP, setPC_stack, setStack_stack,
      setGas_stack, setPC_mem, setStack_mem, setGas_mem, setPC_PC, setPC_returnData, setStack_returnData,
      setGas_returnData]
    rw [hspp, cells_update, cells_update]
  show Machine.Step c _ vm.found (.SWAP n)
    ((((vm.setGas _).setStack (vm.SP + 0) _).setStack (vm.SP + (n + 1)) _).setPC (vm.PC + 1)).abs
  rw [habs]
  exact .swap (hget 0 (by omega)) (hget (n + 1) (by omega))

/-! ## Slices -/

theorem getElem?_slice (data : Bytes) (offset n i : Nat) :
    (Machine.slice data offset n)[i]? = if i < n then some (data.getD (offset + i) 0) else none := by
  unfold Machine.slice
  rw [List.getElem?_map]
  split
  · next h => rw [List.getElem?_range h, Option.map_some]
  · rw [List.getElem?_eq_none (by simp; omega)]
    rfl

/-- Nothing is behind the end. -/
theorem take_drop_slice {data : Bytes} {offset n : Nat} (h : n = 0 ∨ offset + n ≤ data.length) :
    (data.drop offset).take n = Machine.slice data offset n := by
  apply List.ext_getElem?
  intro i
  rw [getElem?_slice, List.getElem?_take, List.getElem?_drop]
  split
  · rw [List.getD_eq_getElem?_getD, List.getElem?_eq_getElem (by omega)]
    rfl
  · rfl

theorem slice_past {data : Bytes} {offset : Nat} (n : Nat) (h : data.length ≤ offset) :
    Machine.slice data offset n = List.replicate n 0 := by
  apply List.ext_getElem?
  intro i
  rw [getElem?_slice, List.getElem?_replicate, List.getD_eq_getElem?_getD, List.getElem?_eq_none (by omega)]
  rfl

/-- What is there of it, and zeros. -/
theorem slice_split {data : Bytes} {offset k n : Nat} (hk : k ≤ n) (h : k = 0 ∨ offset + k ≤ data.length)
    (hend : k = n ∨ data.length ≤ offset + k) :
    Machine.slice data offset n = (data.drop offset).take k ++ List.replicate (n - k) 0 := by
  rw [take_drop_slice h]
  apply List.ext_getElem?
  intro i
  rw [getElem?_slice, List.getElem?_append, getElem?_slice, List.getElem?_replicate]
  have hlen : (Machine.slice data offset k).length = k := by simp [Machine.slice]
  rw [hlen]
  split
  · split
    · rfl
    · rw [if_pos (by omega), List.getD_eq_getElem?_getD, List.getElem?_eq_none (by omega)]
      rfl
  · rw [if_neg (by omega), if_neg (by omega)]

theorem CALLDATALOAD_does (hsize : c.message.input.length < 2 ^ 64) (hspp : vm.SPP = vm.SP) (hsp : vm.SP + 1 ≤ 1024) :
    (CALLDATALOAD c vm).All (rules c reverts) (Does c .CALLDATALOAD vm) := by
  unfold CALLDATALOAD
  simp only [Asks.all_bind]
  refine all_updateIOGas.2 fun _ => ?_
  rw [all_sp_top (by exact hsp)]
  have hset : ∀ gas w, w = Machine.word (Machine.slice c.message.input (vm.stack vm.SP).toNat 32) →
      ((vm.setGas gas).set_sp 0 w).All (rules c reverts) (Does c .CALLDATALOAD vm) := by
    rintro gas _ rfl
    have hstep := @Machine.Step.calldataload c gas _ _ _ (found_stack hsp)
    rw [all_set_sp (by exact hsp)]
    rw [← @abs_push vm 1 gas _ (by omega) hsp, hspp] at hstep
    exact hstep
  have hu : (vm.stack vm.SP).toNat < c.message.input.length →
      u64 (vm.stack vm.SP).toNat = (vm.stack vm.SP).toNat := fun h => Nat.mod_eq_of_lt (by omega)
  simp only [setGas_stack, setGas_SP]
  split
  · next hin =>
    rw [hu (by omega), Asks.all_bind, all_load (.inr (by omega)), take_drop_slice (.inr (by omega))]
    exact hset _ _ rfl
  · split
    · next hpast =>
      refine hset _ _ ?_
      rw [slice_past 32 hpast]
      decide
    · next hin =>
      rw [hu (by omega)]
      exact hset _ _ rfl

/-! ## Memory -/

/-- Zeros at the end of the memory are not seen. -/
theorem getD_grown (mem : Bytes) (k i : Nat) : (mem ++ List.replicate k 0).getD i 0 = mem.getD i 0 := by
  simp only [List.getD_eq_getElem?_getD, List.getElem?_append, List.getElem?_replicate]
  split
  · rfl
  · next h =>
    rw [List.getElem?_eq_none (by omega)]
    split <;> rfl

theorem getD_written {mem b : Bytes} {offset : Nat} (h : b = [] ∨ offset + b.length ≤ mem.length) (i : Nat) :
    (written mem offset b).getD i 0 =
      if offset ≤ i ∧ i < offset + b.length then b.getD (i - offset) 0 else mem.getD i 0 := by
  rcases h with rfl | h
  · simp [written]
  · simp only [written, List.getD_eq_getElem?_getD, List.getElem?_append, List.getElem?_take, List.getElem?_drop,
      List.length_append, List.length_take, Nat.min_eq_left (by omega : offset ≤ mem.length)]
    by_cases hlow : i < offset
    · rw [if_pos (by omega), if_pos hlow, if_pos hlow, if_neg (by omega)]
    · by_cases hin : i < offset + b.length
      · rw [if_pos hin, if_neg hlow, if_pos ⟨by omega, hin⟩]
      · rw [if_neg hin, if_neg (by omega), show offset + b.length + (i - (offset + b.length)) = i by omega]

theorem view_grow {newMem runGas n k p : Nat} (hg : Grown vm newMem runGas k) :
    (vm.grow runGas n k).view p = (vm.view p).touch newMem := by
  simp only [view, Machine.touch, grow_stack, grow_mem, grow_PC, grow_returnData, getD_grown, length_grown, hg.size]

/-- Bytes written for `n` words, after a payment. -/
theorem abs_store {n gas offset : Nat} {b : Bytes} (hspp : vm.SPP = vm.SP + n)
    (h : b = [] ∨ offset + b.length ≤ vm.mem.length) :
    (((vm.setGas gas).setMem (written vm.mem offset b)).setPC (vm.PC + 1)).abs =
      (vm.found.write offset b).pop (cells vm.stack (vm.SP + n)) := by
  rw [← hspp]
  simp only [abs, found, view, Machine.pop, Machine.write, setPC_SPP, setMem_SPP, setGas_SPP, setPC_stack, setMem_stack,
    setGas_stack, setPC_mem, setMem_mem, setPC_PC, setPC_returnData, setMem_returnData, setGas_returnData,
    length_written h, getD_written h]

/-- A memory below 4 GiB, where there is no gas for more. -/
theorem Grown.small {newMem runGas k : Nat} (hg : Grown vm newMem runGas k) (hle : runGas ≤ vm.io_gas)
    (hsmall : vm.io_gas + memGas vm.mem.length < memGas (2 ^ 32)) : vm.mem.length + k < 2 ^ 32 := by
  by_contra hc
  have := memGas_mono (Nat.not_lt.1 hc)
  have := hg.paid
  omega

theorem found_grow {newMem runGas n k : Nat} (hg : Grown vm newMem runGas k) :
    (vm.grow runGas n k).found = vm.found.touch newMem := view_grow hg

/-- What is read of a memory that has grown. -/
theorem slice_grow (runGas n k offset size : Nat) :
    Machine.slice (vm.grow runGas n k).mem offset size = vm.found.read offset size := by
  simp only [Machine.slice, Machine.read, found, view, grow_mem, getD_grown]

/-- A word is pushed for `m` words, with a memory that was made to reach. -/
theorem push_does {op : Instruction} {newMem runGas n k m gas : Nat} {w : Word} (hg : Grown vm newMem runGas k)
    (hspp : vm.SPP + 1 = vm.SP + m) (hsp : vm.SP + m ≤ 1024)
    (h : ∀ gas, Machine.Step c gas vm.found op ((vm.found.touch newMem).push (cells vm.stack (vm.SP + m)) w)) :
    Does c op vm (((vm.grow runGas n k).setGas gas).setStack vm.SPP w) := by
  show Machine.Step c _ vm.found op ((((vm.grow runGas n k).setGas gas).setStack (vm.grow runGas n k).SPP w).setPC
      ((vm.grow runGas n k).PC + 1)).abs
  rw [abs_push (n := m) (by simpa using hspp) (by exact hsp), found_grow hg]
  exact h _

theorem MLOAD_does (hf : Fetched vm) (hsmall : vm.io_gas + memGas vm.mem.length < memGas (2 ^ 32))
    (hspp : vm.SPP = vm.SP) (hsp : vm.SP + 1 ≤ 1024) : (MLOAD vm).All (rules c reverts) (Does c .MLOAD vm) := by
  have hrun := hf.run
  have hcopy := hf.copy
  unfold MLOAD
  simp only [Asks.all_bind]
  rw [all_sp_top (by omega), all_toInt63]
  intro hoff
  refine all_updateMem (by omega) (by omega) (by omega) fun runGas n k hg => all_updateIOGas.2 fun hle => ?_
  have hroom := hg.room
  have hlt := hg.small hle hsmall
  have hin : (vm.stack vm.SP).toNat + 32 ≤ (vm.grow runGas n k).mem.length := by simpa using hroom
  rw [Nat.mod_eq_of_lt (by omega), all_load (.inr (by exact hin)), all_set_spp (by show vm.SPP < _; omega),
    take_drop_slice (.inr (by exact hin))]
  have hread := @slice_grow vm runGas n k (vm.stack vm.SP).toNat 32
  refine push_does (m := 1) hg (by omega) hsp fun _ => ?_
  rw [setGas_mem, hread]
  exact .mload (found_stack hsp)

/-- Bytes are stored where the memory was made to reach. -/
theorem store_does {op : Instruction} {newMem runGas n k m gas offset : Nat} {b : Bytes} (hg : Grown vm newMem runGas k)
    (hspp : vm.SPP = vm.SP + m) (hroom : b = [] ∨ offset + b.length ≤ vm.mem.length + k)
    (h : ∀ gas, Machine.Step c gas vm.found op (((vm.found.touch newMem).write offset b).pop (cells vm.stack (vm.SP + m)))) :
    (((vm.grow runGas n k).setGas gas).store offset b).All (rules c reverts) (Does c op vm) := by
  rw [all_store (by simpa using hroom)]
  show Machine.Step c _ vm.found op ((((vm.grow runGas n k).setGas _).setMem
    (written (vm.grow runGas n k).mem offset b)).setPC ((vm.grow runGas n k).PC + 1)).abs
  rw [abs_store (n := m) (by simpa using hspp) (by simpa using hroom), found_grow hg]
  exact h _

theorem MSTORE_does (hf : Fetched vm) (hsmall : vm.io_gas + memGas vm.mem.length < memGas (2 ^ 32))
    (hspp : vm.SPP = vm.SP + 2) (hsp : vm.SP + 2 ≤ 1024) : (MSTORE vm).All (rules c reverts) (Does c .MSTORE vm) := by
  have hrun := hf.run
  have hcopy := hf.copy
  unfold MSTORE
  simp only [Asks.all_bind]
  rw [all_sp_top (by omega), all_toInt63]
  intro hoff
  refine all_updateMem (by omega) (by omega) (by omega) fun runGas n k hg => all_updateIOGas.2 fun hle => ?_
  have hroom := hg.room
  have hlt := hg.small hle hsmall
  rw [all_sp (by exact hsp), Nat.mod_eq_of_lt (by omega)]
  exact store_does hg hspp (.inr (by simpa using hroom)) fun _ => .mstore (found_stack₂ hsp)

theorem MSTORE8_does (hf : Fetched vm) (hsmall : vm.io_gas + memGas vm.mem.length < memGas (2 ^ 32))
    (hspp : vm.SPP = vm.SP + 2) (hsp : vm.SP + 2 ≤ 1024) : (MSTORE8 vm).All (rules c reverts) (Does c .MSTORE8 vm) := by
  have hrun := hf.run
  have hcopy := hf.copy
  unfold MSTORE8
  simp only [Asks.all_bind]
  rw [all_sp_top (by omega), all_toInt63]
  intro hoff
  refine all_updateMem (by omega) (by omega) (by omega) fun runGas n k hg => all_updateIOGas.2 fun hle => ?_
  have hroom := hg.room
  have hlt := hg.small hle hsmall
  rw [all_sp (by exact hsp), Nat.mod_eq_of_lt (by omega)]
  exact store_does hg hspp (.inr hroom) fun _ => .mstore8 (found_stack₂ hsp)

theorem need_eq (offset size : Word) : need offset size = Machine.need offset.toNat size.toNat := by
  unfold need Machine.need
  by_cases h : size = 0
  · rw [if_neg (not_not.2 h), if_pos ((toNat_eq_zero size).2 h)]
  · rw [if_pos h, if_neg (mt (toNat_eq_zero size).1 h)]

/-- An access that was paid for has the offset and the size of the words. -/
theorem u64_of_need {offset size : Word} (h : need offset size < 2 ^ 63) : size.toNat = 0 ∨
    u64 offset.toNat = offset.toNat ∧ u64 size.toNat = size.toNat := by
  rw [need_eq] at h
  unfold Machine.need at h
  split at h
  · next h0 => exact .inl h0
  · exact .inr ⟨Nat.mod_eq_of_lt (by omega), Nat.mod_eq_of_lt (by omega)⟩

/-- The bytes of an access that was paid for. -/
theorem take_drop_read {offset size : Word} {runGas n k : Nat} (hg : Grown vm (need offset size) runGas k)
    (h : need offset size < 2 ^ 63) :
    ((vm.grow runGas n k).mem.drop (u64 offset.toNat)).take (u64 size.toNat) =
      vm.found.read offset.toNat size.toNat := by
  rcases u64_of_need h with h0 | ⟨ho, hs⟩
  · rw [h0]
    rfl
  · have hslice := hg.slice (Nat.le_refl _) h
    rw [ho, hs] at hslice ⊢
    rw [take_drop_slice (by simpa using hslice), slice_grow]

theorem SHA3_does (hcopy : vm.copyMemSize = 0) (hspp : vm.SPP = vm.SP + 1) (hsp : vm.SP + 2 ≤ 1024) :
    (SHA3 c vm).All (rules c reverts) (Does c .SHA3 vm) := by
  unfold SHA3
  simp only [Asks.all_bind]
  rw [all_sp_top (by omega), all_sp (by omega), all_toInt63]
  intro hrun
  rw [all_memNeed]
  intro hneed
  refine all_updateMem (by omega) (by simp; omega) (by simp [hcopy]; omega) fun runGas n k hg =>
    all_updateIOGas.2 fun hle => ?_
  rw [all_load (by simpa using hg.slice (Nat.le_refl _) hneed), all_set_spp (by show vm.SPP < _; omega)]
  refine Does.of_run (push_does (m := 2) hg (by simp; omega) (by exact hsp) fun _ => ?_)
  rw [setGas_mem, take_drop_read hg hneed, need_eq]
  exact .sha3 (found_stack₂ hsp)

theorem write_write (m : Machine) (offset : Nat) (b b' : Bytes) :
    (m.write offset b).write (offset + b.length) b' = m.write offset (b ++ b') := by
  unfold Machine.write
  congr 1
  funext i
  simp only [List.length_append, List.getD_eq_getElem?_getD, List.getElem?_append]
  by_cases hlow : offset ≤ i
  · by_cases hfirst : i < offset + b.length
    · rw [if_neg (by omega), if_pos ⟨hlow, hfirst⟩, if_pos ⟨hlow, by omega⟩, if_pos (by omega)]
    · rw [if_neg (fun h => hfirst h.2 : ¬(offset ≤ i ∧ i < offset + b.length)), if_neg (by omega : ¬i - offset < b.length),
        show i - offset - b.length = i - (offset + b.length) by omega]
      by_cases hin : i < offset + b.length + b'.length
      · rw [if_pos ⟨by omega, hin⟩, if_pos ⟨hlow, by omega⟩]
      · rw [if_neg (by omega), if_neg (by omega)]
  · rw [if_neg (by omega), if_neg (by omega), if_neg (by omega)]

theorem copied_all {n index size : Nat} (hn : n < 2 ^ 64) (hsize : size < 2 ^ 63) :
    let k := if n < index + size then if n < index then 0 else sub64 n (u64 index) else size
    (k = 0 ∨ u64 index = index) ∧ (k = 0 ∨ index + k ≤ n) ∧ (k = size ∨ n ≤ index + k) := by
  unfold sub64 u64
  dsimp only
  split
  · split <;> omega
  · omega

/-- What is copied is written, with zeros behind it. -/
theorem copyDataToMemory_does {data : Bytes} {post : VM → Prop} (hsp : vm.SP + 3 ≤ 1024) (hdata : data.length < 2 ^ 64)
    (hsize : (vm.stack (vm.SP + 2)).toNat < 2 ^ 63)
    (hroom : (vm.stack (vm.SP + 2)).toNat = 0 ∨ u64 (vm.stack vm.SP).toNat = (vm.stack vm.SP).toNat ∧
      (vm.stack vm.SP).toNat + (vm.stack (vm.SP + 2)).toNat ≤ vm.mem.length)
    (hp : ∀ mem, mem.length = vm.mem.length → (∀ i, mem.getD i 0 = (vm.found.write (vm.stack vm.SP).toNat
      (Machine.slice data (vm.stack (vm.SP + 1)).toNat (vm.stack (vm.SP + 2)).toNat)).mem i) → post (vm.setMem mem)) :
    (copyDataToMemory vm data).All (rules c reverts) post := by
  unfold copyDataToMemory
  simp only [Asks.all_bind]
  rw [all_sp_top (by omega), all_sp (by omega), all_sp (by omega)]
  have hu : u64 (vm.stack (vm.SP + 2)).toNat = (vm.stack (vm.SP + 2)).toNat := Nat.mod_eq_of_lt (by omega)
  obtain ⟨hle, -⟩ := @copied_le data.length (vm.stack (vm.SP + 1)).toNat _ hsize
  obtain ⟨hidx, hin, hend⟩ := @copied_all data.length (vm.stack (vm.SP + 1)).toNat _ hdata hsize
  rw [hu]
  generalize (vm.stack (vm.SP + 2)).toNat = size at *
  generalize (if data.length < (vm.stack (vm.SP + 1)).toNat + size then _ else size) = k at *
  generalize (vm.stack (vm.SP + 1)).toNat = index at *
  generalize (vm.stack vm.SP).toNat = offset at *
  have hsplit := slice_split hle hin hend
  have hlen : ((data.drop index).take k).length = k := by
    rw [List.length_take, List.length_drop]
    omega
  rcases hroom with h0 | ⟨hoff, hroom⟩
  · -- nothing is copied
    have hk : k = 0 := by omega
    rw [if_neg (by omega), Asks.all_bind, Asks.all_ret, if_neg (by omega)]
    refine (Asks.all_ret _).2 (hp vm.mem rfl fun i => ?_)
    rw [h0]
    simp [Machine.slice, Machine.write, found, view]
  · rw [hoff]
    have hzeros : (if k < size then
        (vm.setMem (written vm.mem offset ((data.drop index).take k))).store (offset + k) (List.replicate (size - k) 0)
        else .ret (vm.setMem (written vm.mem offset ((data.drop index).take k)))).All (rules c reverts) post := by
      have hfirst : (data.drop index).take k = [] ∨ offset + ((data.drop index).take k).length ≤ vm.mem.length :=
        .inr (by omega)
      have hlen1 := length_written hfirst
      split
      · have hsecond : List.replicate (size - k) (0 : UInt8) = [] ∨ offset + k + (List.replicate (size - k) (0 : UInt8)).length ≤
            (written vm.mem offset ((data.drop index).take k)).length := .inr (by rw [List.length_replicate]; omega)
        rw [all_store (by exact hsecond)]
        refine hp _ ((length_written hsecond).trans hlen1) fun i => ?_
        rw [hsplit, ← write_write, hlen, getD_written (by exact hsecond), setMem_mem, getD_written hfirst]
        rfl
      · have hk : k = size := by omega
        refine (Asks.all_ret _).2 (hp _ hlen1 fun i => ?_)
        rw [hsplit, hk, Nat.sub_self, List.replicate_zero, List.append_nil, getD_written (by rw [← hk]; exact hfirst)]
        rfl
    split
    · simp only [Asks.all_bind]
      rw [hidx.resolve_left (by omega), all_load hin, all_store (by rw [hlen]; omega)]
      exact hzeros
    · have hk : k = 0 := by omega
      subst hk
      have hnil : written vm.mem offset ((data.drop index).take 0) = vm.mem := by simp [written]
      rw [hnil] at hzeros
      rw [Asks.all_bind, Asks.all_ret]
      exact hzeros

/-- A copy, for every text. -/
theorem COPY_does {op : Instruction} {data : Bytes} (hdata : data.length < 2 ^ 64) (hf : Fetched vm)
    (hspp : vm.SPP = vm.SP + 3) (hsp : vm.SP + 3 ≤ 1024)
    (h : ∀ gas, Machine.Step c gas vm.found op (((vm.found.touch (Machine.need (vm.stack vm.SP).toNat (vm.stack (vm.SP + 2)).toNat)).write
      (vm.stack vm.SP).toNat (Machine.slice data (vm.stack (vm.SP + 1)).toNat (vm.stack (vm.SP + 2)).toNat)).pop
        (cells vm.stack (vm.SP + 3)))) :
    (COPY data vm).All (rules c reverts) (Does c op vm) := by
  have hrun := hf.run
  unfold COPY
  simp only [Asks.all_bind]
  rw [all_sp_top (by omega), all_sp (by omega), all_toInt63]
  intro hsize
  rw [all_memNeed]
  intro hneed
  refine all_updateMem (by omega) (by simpa using hsize) (by simp; omega) fun runGas m k hg =>
    all_updateIOGas.2 fun hle => ?_
  have hroom := hg.room
  rw [need_eq] at hroom hneed hg
  have hin : (vm.stack (vm.SP + 2)).toNat = 0 ∨ u64 (vm.stack vm.SP).toNat = (vm.stack vm.SP).toNat ∧
      (vm.stack vm.SP).toNat + (vm.stack (vm.SP + 2)).toNat ≤
        ((vm.setCopyMemSize (vm.stack (vm.SP + 2)).toNat).grow runGas m k).mem.length := by
    unfold Machine.need at hroom hneed
    split at hneed
    · next h0 => exact .inl h0
    · next h0 =>
      rw [if_neg h0] at hroom
      exact .inr ⟨Nat.mod_eq_of_lt (by omega), by simpa using hroom⟩
  refine copyDataToMemory_does (by exact hsp) hdata hsize (by exact hin) fun mem hlen hmem => ?_
  have habs : (((((vm.setCopyMemSize (vm.stack (vm.SP + 2)).toNat).grow runGas m k).setGas
      (vm.io_gas - runGas)).setMem mem).setPC (vm.PC + 1)).abs =
      ((vm.found.touch (Machine.need (vm.stack vm.SP).toNat (vm.stack (vm.SP + 2)).toNat)).write
        (vm.stack vm.SP).toNat (Machine.slice data (vm.stack (vm.SP + 1)).toNat (vm.stack (vm.SP + 2)).toNat)).pop
          (cells vm.stack (vm.SP + 3)) := by
    have hlen : mem.length = max vm.mem.length
        (words (Machine.need (vm.stack vm.SP).toNat (vm.stack (vm.SP + 2)).toNat)) := by
      rw [hlen]
      simpa using hg.size
    have hmem : (fun i => mem.getD i 0) = (vm.found.write (vm.stack vm.SP).toNat
        (Machine.slice data (vm.stack (vm.SP + 1)).toNat (vm.stack (vm.SP + 2)).toNat)).mem := by
      funext i
      refine (hmem i).trans ?_
      simp only [Machine.write, found, view, setGas_mem, grow_mem, getD_grown, setCopyMemSize_mem]
      rfl
    rw [← hspp]
    simp only [abs, view, setPC_SPP, setMem_SPP, setGas_SPP, grow_SPP, setCopyMemSize_SPP, setPC_stack, setMem_stack,
      setGas_stack, grow_stack, setCopyMemSize_stack, setPC_mem, setMem_mem, setPC_PC, setPC_returnData,
      setMem_returnData, setGas_returnData, grow_returnData, setCopyMemSize_returnData, hlen, hmem]
    rfl
  show Machine.Step c _ vm.found op (((((vm.setCopyMemSize (vm.stack (vm.SP + 2)).toNat).grow runGas m k).setGas
      (vm.io_gas - runGas)).setMem mem).setPC (vm.PC + 1)).abs
  rw [habs]
  exact h _

theorem RETURNDATACOPY_does (hdata : vm.returnData.length < 2 ^ 64) (hf : .BYZANTIUM ≤ c.rev →
      Fetched vm ∧ vm.SP + 3 ≤ 1024 ∧ vm.SPP = vm.SP + 3) :
    (RETURNDATACOPY c vm).All (rules c reverts) (Does c .RETURNDATACOPY vm) := by
  unfold RETURNDATACOPY
  rw [Asks.all_guard trivial]
  intro hrev
  obtain ⟨hf, hsp, hspp⟩ := hf (Revision.not_lt.1 hrev)
  simp only [Asks.all_bind]
  rw [all_sp (by omega), all_sp (by omega), Asks.all_guard trivial]
  exact fun hend => COPY_does hdata hf hspp hsp fun _ => .returndatacopy (found_stack₃ hsp) (Nat.not_lt.1 hend)

/-! ## The code -/

theorem shift_or (w : Word) (x : UInt8) :
    ((w <<< 8) ||| x.toBitVec.setWidth 256).toNat = (w.toNat * 256 + x.toNat) % 2 ^ 256 := by
  have hx := x.toNat_lt
  have hshift : (w <<< 8).toNat = (w.toNat % 2 ^ 248) <<< 8 := by
    rw [BitVec.toNat_shiftLeft, Nat.shiftLeft_eq, Nat.shiftLeft_eq]
    omega
  have hbyte : (x.toBitVec.setWidth 256 : Word).toNat = x.toNat := by
    rw [BitVec.toNat_setWidth]
    exact Nat.mod_eq_of_lt (by simpa using Nat.lt_trans hx (by decide))
  rw [BitVec.toNat_or, hshift, hbyte, ← Nat.shiftLeft_add_eq_or_of_lt hx, Nat.shiftLeft_eq]
  omega

theorem immediate_eq (b : Bytes) : immediate b = Machine.word b := by
  have hfold : ∀ (w : Word) (n : Nat), w = BitVec.ofNat 256 n →
      b.foldl (fun (w : Word) x => (w <<< 8) ||| x.toBitVec.setWidth 256) w =
        BitVec.ofNat 256 (b.foldl (fun acc x => acc * 256 + x.toNat) n) := by
    induction b with
    | nil => exact fun w n h => h
    | cons x b ih =>
      intro w n h
      refine ih _ _ ?_
      apply BitVec.eq_of_toNat_eq
      rw [shift_or, h, BitVec.toNat_ofNat, BitVec.toNat_ofNat]
      show _ = (n * 256 + x.toNat) % 2 ^ 256
      omega
  exact hfold 0 0 rfl

theorem PUSH_does {n : Nat} (ho : Optimized c.pCode c.code c.jumpDests) (hb : Boundary c.pCode vm.PC)
    (hpc : vm.PC < c.pCode.length) (hn : n + 1 = pushBytes (c.code.getD vm.PC 0))
    (hspp : vm.SPP + 1 = vm.SP) (hsp : vm.SP ≤ 1024) : (PUSH c n vm).All (rules c reverts) fun vm' =>
      Machine.Step c vm'.io_gas vm.found (.PUSH n) vm'.abs := by
  have hafter := ho.after hb
  have hlen := ho.length
  have hle := pushBytes_le (c.code.getD vm.PC 0)
  -- no instruction starts in what a push carries
  have hkept : ∀ i, i < n + 1 → c.code.getD (vm.PC + 1 + i) 0 = c.pCode.getD (vm.PC + 1 + i) 0 := by
    intro i hi
    refine ho.kept _ fun h => ?_
    have := Reached.next_le (lt_after c.pCode) h.1 hb (by omega)
    omega
  have hslice : Machine.slice c.code (vm.PC + 1) (n + 1) = Machine.slice c.pCode (vm.PC + 1) (n + 1) := by
    unfold Machine.slice
    exact List.map_congr_left fun i hi => hkept i (List.mem_range.1 hi)
  unfold PUSH
  simp only [Asks.all_bind]
  refine all_updateIOGas.2 fun hle => ?_
  rw [all_load (.inr (by simp; omega)), all_set_spp (by show vm.SPP < _; omega), Asks.all_ret, immediate_eq,
    take_drop_slice (.inr (by simp; omega))]
  have habs : ((((vm.setGas (vm.io_gas - vm.runGas)).setStack vm.SPP
      (Machine.word (Machine.slice c.code (vm.PC + 1) (n + 1)))).setPC (vm.PC + 1 + (n + 1)))).abs =
      { vm.found with
        stack := Machine.word (Machine.slice c.pCode (vm.PC + 1) (n + 1)) :: vm.found.stack
        pc := vm.PC + 1 + (n + 1) } := by
    rw [hslice]
    simp only [abs, found, view, setPC_SPP, setStack_SPP, setGas_SPP, setPC_stack, setStack_stack, setGas_stack,
      setPC_mem, setStack_mem, setGas_mem, setPC_PC, setPC_returnData, setStack_returnData, setGas_returnData]
    rw [cells_push (by omega), hspp]
  show Machine.Step c _ vm.found (.PUSH n) ((((vm.setGas (vm.io_gas - vm.runGas)).setStack vm.SPP
      (Machine.word (Machine.slice c.code (vm.PC + 1) (n + 1)))).setPC (vm.PC + 1 + (n + 1)))).abs
  rw [habs]
  exact .push n

/-- The table holds the places a jump may go. -/
theorem Optimized.dest {pCode code : Bytes} {jumpDests : List Nat} (ho : Optimized pCode code jumpDests) {pc : Nat}
    (h : pc ∈ jumpDests) : Machine.Dest pCode pc := (ho.mem_iff pc).1 h

theorem verifyJumpDest_all {post : Nat → Prop} (ho : Optimized c.pCode c.code c.jumpDests) {dest : Word}
    (hp : Machine.Dest c.pCode dest.toNat → post dest.toNat) : (verifyJumpDest c dest).All (rules c reverts) post := by
  unfold verifyJumpDest
  split
  · next h => exact (Asks.all_ret _).2 (hp (ho.dest h.2))
  · exact (Asks.all_stop _).2 trivial

/-- The machine behind a jump that was paid for. -/
theorem abs_jump {n gas pc : Nat} (hspp : vm.SPP = vm.SP + n) :
    ((vm.setGas gas).setPC pc).abs = { vm.found with stack := cells vm.stack (vm.SP + n), pc } := by
  rw [← hspp]
  rfl

theorem JUMP_does (ho : Optimized c.pCode c.code c.jumpDests) (hspp : vm.SPP = vm.SP + 1) (hsp : vm.SP + 1 ≤ 1024) :
    (JUMP c vm).All (rules c reverts) fun vm' => Machine.Step c vm'.io_gas vm.found .JUMP vm'.abs := by
  unfold JUMP
  simp only [Asks.all_bind]
  refine all_updateIOGas.2 fun hle => ?_
  rw [all_sp_top (by exact hsp)]
  refine verifyJumpDest_all ho fun hdest => (Asks.all_ret _).2 ?_
  rw [abs_jump hspp]
  exact .jump (found_stack hsp) hdest

theorem JUMPI_does (ho : Optimized c.pCode c.code c.jumpDests) (hspp : vm.SPP = vm.SP + 2) (hsp : vm.SP + 2 ≤ 1024) :
    (JUMPI c vm).All (rules c reverts) fun vm' => Machine.Step c vm'.io_gas vm.found .JUMPI vm'.abs := by
  unfold JUMPI
  simp only [Asks.all_bind]
  refine all_updateIOGas.2 fun hle => ?_
  rw [all_sp (by exact hsp)]
  split
  · next h =>
    simp only [Asks.all_bind]
    rw [all_sp_top (by simp; omega)]
    refine verifyJumpDest_all ho fun hdest => (Asks.all_ret _).2 ?_
    rw [abs_jump hspp]
    exact .jumpi (found_stack₂ hsp) h hdest
  · next h =>
    refine (Asks.all_ret _).2 ?_
    show Machine.Step c _ vm.found .JUMPI ((vm.setGas _).setPC (vm.PC + 1)).abs
    rw [abs_pop hspp]
    exact .jumpi_past (found_stack₂ hsp) (not_not.1 h)

theorem output_does (hrun : vm.runGas ≤ 32000) (hsp : vm.SP + 2 ≤ 1024) : (output vm).All (rules c reverts) fun r =>
    r.2 = vm.found.read (vm.stack vm.SP).toNat (vm.stack (vm.SP + 1)).toNat := by
  unfold output
  simp only [Asks.all_bind]
  rw [all_sp_top (by omega), all_sp (by omega), all_memNeed]
  intro hneed
  refine all_updateMem (by omega) (by simp) (by simp; omega) fun runGas m k hg =>
    all_updateIOGas.2 fun hle => ?_
  rw [all_load (by simpa using hg.slice (Nat.le_refl _) hneed), Asks.all_ret, setGas_mem]
  exact take_drop_read hg hneed

theorem STOP_does {goes : VM → Prop} :
    (STOP vm).All (rules c reverts) (Sum.elim goes fun r => Machine.Ends vm.found .STOP r.2) := by
  unfold STOP
  rw [Asks.all_bind, all_updateIOGas]
  exact fun _ => (Asks.all_ret _).2 .stop

theorem RETURN_does (hrun : vm.runGas ≤ 32000) (hsp : vm.SP + 2 ≤ 1024) :
    (RETURN vm).All (rules c reverts) (Sum.elim (fun _ => False) fun r => Machine.Ends vm.found .RETURN r.2) := by
  unfold RETURN
  rw [Asks.all_bind]
  refine (output_does hrun hsp).mono fun r hr => (Asks.all_ret _).2 ?_
  show Machine.Ends vm.found .RETURN r.2
  rw [hr]
  exact .return_ (found_stack₂ hsp)

/-- A revert never goes on, and what it carries is read from the memory. -/
theorem REVERT_does (hrun : vm.runGas ≤ 32000) (hsp : .BYZANTIUM ≤ c.rev → vm.SP + 2 ≤ 1024) :
    (REVERT c vm).All (rules c fun _ output => Machine.Reverts vm.found .REVERT output) fun _ => False := by
  unfold REVERT
  rw [Asks.all_guard trivial]
  intro hrev
  have hsp := hsp (Revision.not_lt.1 hrev)
  rw [Asks.all_bind]
  refine (output_does hrun hsp).mono fun r hr => (Asks.all_stop _).2 ?_
  show Machine.Reverts vm.found .REVERT r.2
  rw [hr]
  exact .revert (found_stack₂ hsp)

/-! ## A round -/

/-- A round that goes on is a step, with the gas it leaves; one that ends the run ends it
with the output of the machine. -/
def Goes (c : Context) (op : Instruction) (m : Machine) : Round → Prop :=
  Sum.elim (fun vm' => Machine.Step c vm'.io_gas m op vm'.abs) fun r => Machine.Ends m op r.2

/-- What a round is to the machine it began with. -/
def Agrees (c : Context) (op : Instruction) (m : Machine) : Except VMException Round → Prop
  | .ok r => Goes c op m r
  | .error (.RevertInstruction _ output) => Machine.Reverts m op output
  | .error _ => True

/-- A revert carries the output of the machine. -/
abbrev agreement (c : Context) (op : Instruction) (m : Machine) : Asks.Terms HostCall HostCall.Reply VMException :=
  rules c fun _ output => Machine.Reverts m op output

theorem NEXT_agrees {op : Instruction} {x : Prog VM} (h : x.All (rules c reverts) (Does c op vm)) :
    (NEXT x).All (rules c reverts) (Goes c op vm.found) := by
  unfold NEXT
  rw [Asks.all_bind]
  exact h.mono fun vm' h => (Asks.all_ret _).2 h

theorem CONTINUE_agrees {op : Instruction} {x : Prog VM}
    (h : x.All (rules c reverts) fun vm' => Machine.Step c vm'.io_gas vm.found op vm'.abs) :
    (CONTINUE x).All (rules c reverts) (Goes c op vm.found) := by
  unfold CONTINUE
  rw [Asks.all_bind]
  exact h.mono fun vm' h => (Asks.all_ret _).2 h

/-- The sizes that are 64 bits wide in the source. -/
structure Sized (c : Context) (vm : VM) : Prop where
  input : c.message.input.length < 2 ^ 64
  code : c.pCode.length < 2 ^ 64
  returned : vm.returnData.length < 2 ^ 64

namespace FetchedOp

variable {op : Instruction} {vm0 : VM} (hf : FetchedOp c op vm0 vm) {gas : Nat}
include hf

theorem binary_agrees {f : Word → Word → Word} (hm : op.metrics c.rev = ⟨gas, 2, -1⟩) (hop : op.binop = some f) :
    (VM.binary f vm).All (rules c reverts) (Does c op vm) := by
  obtain ⟨-, hreq, hchg⟩ := hf.row hm
  exact binary_does hop (by omega) hreq

theorem unary_agrees {f : Word → Word} (hm : op.metrics c.rev = ⟨gas, 1, 0⟩) (hop : op.unop = some f) :
    (VM.unary f vm).All (rules c reverts) (Does c op vm) := by
  obtain ⟨-, hreq, hchg⟩ := hf.row hm
  exact unary_does hop (by omega) hreq

theorem ternary_agrees {f : Word → Word → Word → Word} (hm : op.metrics c.rev = ⟨gas, 3, -2⟩)
    (hop : op.ternop = some f) : (VM.ternary f vm).All (rules c reverts) (Does c op vm) := by
  obtain ⟨-, hreq, hchg⟩ := hf.row hm
  exact ternary_does hop (by omega) hreq

theorem surroundings_agrees {f : VM → Word} (hm : op.metrics c.rev = ⟨gas, 0, 1⟩)
    (hw : ∀ gas, vm.found.surroundings c gas op = some (f (vm.setGas gas))) :
    (VM.ordinary (fun vm => .ret (f vm)) vm).All (rules c reverts) (Does c op vm) := by
  obtain ⟨-, hreq, hchg⟩ := hf.row hm
  exact surroundings_does (by omega) hreq hw

end FetchedOp

theorem interpretCases_agrees {op : Instruction} {vm0 : VM} (hf : FetchedOp c op vm0 vm) (hs : Sized c vm)
    (hgas : vm.io_gas + memGas vm.mem.length ≤ c.message.gas.toNat) (hlt : c.message.gas.toNat < memGas (2 ^ 32))
    (hint : op.internal = true) (ho : Optimized c.pCode c.code c.jumpDests) (hb : Boundary c.pCode vm.PC)
    (hpc : vm.PC < c.pCode.length) (hop : op = .ofByte (c.code.getD vm.PC 0)) :
    (interpretCases c vm op).All (agreement c op vm.found) (Goes c op vm.found) := by
  have hsmall := Nat.lt_of_le_of_lt hgas hlt
  cases op with
  | ADD => exact NEXT_agrees (hf.binary_agrees rfl binop_ADD)
  | MUL => exact NEXT_agrees (hf.binary_agrees rfl binop_MUL)
  | SUB => exact NEXT_agrees (hf.binary_agrees rfl binop_SUB)
  | DIV => exact NEXT_agrees (hf.binary_agrees rfl (some_binop DIV_eq))
  | SDIV => exact NEXT_agrees (hf.binary_agrees rfl (some_binop SDIV_eq))
  | MOD => exact NEXT_agrees (hf.binary_agrees rfl (some_binop MOD_eq))
  | SMOD => exact NEXT_agrees (hf.binary_agrees rfl (some_binop SMOD_eq))
  | LT => exact NEXT_agrees (hf.binary_agrees rfl binop_LT)
  | GT => exact NEXT_agrees (hf.binary_agrees rfl binop_GT)
  | SLT => exact NEXT_agrees (hf.binary_agrees rfl (some_binop SLT_eq))
  | SGT => exact NEXT_agrees (hf.binary_agrees rfl (some_binop SGT_eq))
  | EQ => exact NEXT_agrees (hf.binary_agrees rfl binop_EQ)
  | AND => exact NEXT_agrees (hf.binary_agrees rfl binop_AND)
  | OR => exact NEXT_agrees (hf.binary_agrees rfl binop_OR)
  | XOR => exact NEXT_agrees (hf.binary_agrees rfl binop_XOR)
  | BYTE => exact NEXT_agrees (hf.binary_agrees rfl (some_binop BYTE_eq))
  | SHL => exact NEXT_agrees (since_all fun hrev => hf.binary_agrees (if_pos hrev) (some_binop SHL_eq))
  | SHR => exact NEXT_agrees (since_all fun hrev => hf.binary_agrees (if_pos hrev) (some_binop SHR_eq))
  | SAR => exact NEXT_agrees (since_all fun hrev => hf.binary_agrees (if_pos hrev) (some_binop SAR_eq))
  | ISZERO => exact NEXT_agrees (hf.unary_agrees rfl unop_ISZERO)
  | NOT => exact NEXT_agrees (hf.unary_agrees rfl unop_NOT)
  | ADDMOD => exact NEXT_agrees (hf.ternary_agrees rfl ternop_ADDMOD)
  | MULMOD => exact NEXT_agrees (hf.ternary_agrees rfl ternop_MULMOD)
  | ADDRESS | ORIGIN | CALLER | CALLVALUE | CALLDATASIZE | CODESIZE | GASPRICE | COINBASE | TIMESTAMP | NUMBER
  | DIFFICULTY | GASLIMIT | PC | MSIZE | GAS => exact NEXT_agrees (hf.surroundings_agrees rfl fun _ => rfl)
  | CHAINID | RETURNDATASIZE =>
    exact NEXT_agrees (since_all fun hrev => hf.surroundings_agrees (if_pos hrev) fun _ => rfl)
  | EXP =>
    obtain ⟨-, hreq, hchg⟩ := hf.row rfl
    exact NEXT_agrees (EXP_does (by omega) hreq)
  | SIGNEXTEND =>
    obtain ⟨-, hreq, hchg⟩ := hf.row rfl
    exact NEXT_agrees (SIGNEXTEND_does (by omega) hreq)
  | CALLDATALOAD =>
    obtain ⟨-, hreq, hchg⟩ := hf.row rfl
    exact NEXT_agrees (CALLDATALOAD_does hs.input (by omega) hreq)
  | POP =>
    obtain ⟨-, hreq, hchg⟩ := hf.row rfl
    exact NEXT_agrees (POP_does (by omega) hreq)
  | DUP n =>
    obtain ⟨-, hreq, hchg⟩ := hf.row rfl
    exact NEXT_agrees (DUP_does (by omega) hreq)
  | SWAP n =>
    obtain ⟨-, hreq, hchg⟩ := hf.row rfl
    exact NEXT_agrees (SWAP_does (by omega) hreq)
  | JUMPDEST =>
    obtain ⟨-, hreq, hchg⟩ := hf.row rfl
    exact NEXT_agrees (JUMPDEST_does (by omega))
  | MLOAD =>
    obtain ⟨-, hreq, hchg⟩ := hf.row rfl
    exact NEXT_agrees (MLOAD_does (hf.fetched rfl (by decide) (by decide)) hsmall (by omega) hreq)
  | MSTORE =>
    obtain ⟨-, hreq, hchg⟩ := hf.row rfl
    exact NEXT_agrees (MSTORE_does (hf.fetched rfl (by decide) (by decide)) hsmall (by omega) hreq)
  | MSTORE8 =>
    obtain ⟨-, hreq, hchg⟩ := hf.row rfl
    exact NEXT_agrees (MSTORE8_does (hf.fetched rfl (by decide) (by decide)) hsmall (by omega) hreq)
  | SHA3 =>
    obtain ⟨-, hreq, hchg⟩ := hf.row rfl
    exact NEXT_agrees (SHA3_does hf.copy (by omega) hreq)
  | CALLDATACOPY =>
    obtain ⟨-, hreq, hchg⟩ := hf.row rfl
    exact NEXT_agrees (COPY_does hs.input (hf.fetched rfl (by decide) (by decide)) (by omega) hreq
      fun _ => .calldatacopy (found_stack₃ hreq))
  | CODECOPY =>
    obtain ⟨-, hreq, hchg⟩ := hf.row rfl
    exact NEXT_agrees (COPY_does hs.code (hf.fetched rfl (by decide) (by decide)) (by omega) hreq
      fun _ => .codecopy (found_stack₃ hreq))
  | RETURNDATACOPY =>
    refine NEXT_agrees (RETURNDATACOPY_does hs.returned fun hrev => ?_)
    obtain ⟨-, hreq, hchg⟩ := hf.row (if_pos hrev)
    exact ⟨hf.fetched (if_pos hrev) (by decide) (by decide), hreq, by omega⟩
  | STOP =>
    exact STOP_does
  | RETURN =>
    obtain ⟨hrun, hreq, -⟩ := hf.row rfl
    refine (RETURN_does (by rw [hrun]; decide) hreq).mono fun r hr => ?_
    cases r with
    | inl vm' => exact hr.elim
    | inr r => exact hr
  | REVERT =>
    refine (REVERT_does ?_ fun hrev => (hf.row (if_pos hrev)).2.1).mono fun _ h => h.elim
    rw [hf.run]
    show Instruction.Metrics.gas_cost (if _ then _ else _) ≤ _
    split <;> decide
  | PUSH n =>
    obtain ⟨-, hreq, hchg⟩ := hf.row rfl
    refine CONTINUE_agrees (PUSH_does ho hb hpc ?_ (by omega) hreq)
    rw [← width_ofByte, ← hop]
    rfl
  | JUMP =>
    obtain ⟨-, hreq, hchg⟩ := hf.row rfl
    exact CONTINUE_agrees (JUMP_does ho (by omega) hreq)
  | JUMPI =>
    obtain ⟨-, hreq, hchg⟩ := hf.row rfl
    exact CONTINUE_agrees (JUMPI_does ho (by omega) hreq)
  | INVALID | PUSHC | JUMPC | JUMPCI | BAD => exact (Asks.all_stop _).2 trivial
  | _ => cases hint

theorem FetchedOp.found {op : Instruction} {vm0 : VM} (hf : FetchedOp c op vm0 vm) : vm.found = vm0.abs := by
  unfold VM.found abs view
  rw [hf.stack, hf.mem, hf.PC, hf.SP, hf.returnData]

/-- The instruction of the code itself, not of the copy. -/
def opAt (pCode : Bytes) (pc : Nat) : Instruction := .ofByte (pCode.getD pc 0)

theorem step_agrees (hm : c.Made) (hinput : c.message.input.length < 2 ^ 64) (hcode : c.pCode.length < 2 ^ 64)
    (hlt : c.message.gas.toNat < memGas (2 ^ 32)) (h : Inv c vm) (hint : (opAt c.pCode vm.PC).internal = true) :
    (step c vm).All (agreement c (opAt c.pCode vm.PC) vm.abs) (Goes c (opAt c.pCode vm.PC) vm.abs) := by
  have ho := hm.optimized
  have hlen := ho.length
  have hbound := h.boundary.le
  unfold step
  rw [Asks.all_bind]
  refine fetchInstruction_all (by omega) fun vm1 hf => ?_
  rw [← hf.found]
  by_cases hs : Synthetic (c.pCode.getD vm.PC 0)
  · -- the copy has no instruction there
    have hbad : Instruction.ofByte (c.code.getD vm.PC 0) = .BAD := by
      rw [ho.cleaned _ h.boundary hs]
      rfl
    rw [hbad]
    exact (Asks.all_stop _).2 trivial
  · have hop : opAt c.pCode vm.PC = .ofByte (c.code.getD vm.PC 0) := by rw [opAt, ho.kept _ fun hk => hs hk.2]
    by_cases hpc : vm.PC < c.pCode.length
    · rw [hop] at hint ⊢
      refine interpretCases_agrees hf ⟨hinput, hcode, ?_⟩ ?_ hlt hint ho ?_ ?_ ?_
      · rw [hf.returnData]
        exact h.returned
      · rw [hf.io_gas, hf.mem]
        exact h.total
      · rw [hf.PC]
        exact h.boundary
      · rwa [hf.PC]
      · rw [hf.PC]
    · have hstop : Instruction.ofByte (c.code.getD vm.PC 0) = .STOP := by
        rw [ho.stop (by omega)]
        rfl
      rw [hop, hstop]
      exact STOP_does

end

/-- **The interpreter computes what it is meant to.** In every round of every run, an instruction
that asks nothing of the host takes the machine where the machine is meant to go, and a run that
stops, returns or reverts does so with the output of the machine. The gas is below what 4 GiB of
memory cost. -/
theorem round_refines (rev : Revision) (message : EvmcMessage) (tx : TxContext) (pCode : Bytes)
    (keccak256 : Bytes → Word) (hlt : message.gas.toNat < memGas (2 ^ 32)) (hinput : message.input.length < 2 ^ 64)
    (hcode : pCode.length < 2 ^ 64) {vm : VM}
    (hr : Asks.Reach (terms (.new rev message tx pCode keccak256)) (step (.new rev message tx pCode keccak256))
      (start message) vm) (hint : (opAt pCode vm.PC).internal = true) {tr : List (Σ q : HostCall, q.Reply)}
    {o : Except VMException Round} (hp : (step (.new rev message tx pCode keccak256) vm).Plays tr o)
    (ha : Asks.Answered (terms (.new rev message tx pCode keccak256)) tr) :
    Agrees (.new rev message tx pCode keccak256) (opAt pCode vm.PC) vm.abs o := by
  have hg : message.gas.toNat < 2 ^ 63 := Nat.lt_trans hlt (by decide)
  have hinv := Inv.of_reach (c := .new rev message tx pCode keccak256) rfl hg hr
  have hall := step_agrees (c := .new rev message tx pCode keccak256) rfl hinput hcode hlt hinv hint
  cases o with
  | ok r => exact hall.ok hp ha
  | error e =>
    have he : Fails _ e := hall.error hp ha
    cases e with
    | RevertInstruction io_gas output => exact he
    | _ => trivial

/-! ### A run to look at -/

/-- `GAS`, `PUSH1 0`, `MSTORE`, `PUSH1 32`, `PUSH1 0`, `REVERT`. -/
def revertCode : Bytes := [0x5A, 0x60, 0x00, 0x52, 0x60, 0x20, 0x60, 0x00, 0xFD]

def revertContext : Context := .new .ISTANBUL balanceCall ⟨0, 0, 0, 0, 0, 0, 0, 0⟩ revertCode fun _ => 0

/-- As many rounds that ask nothing. -/
def quiet (c : Context) : Nat → VM → Option VM
  | 0, vm => some vm
  | n + 1, vm =>
    match (step c vm).play [] with
    | some (.ok (.inl vm')) => quiet c n vm'
    | _ => none

theorem reach_of_quiet {c : Context} {n : Nat} {vm0 vm vm' : VM} (h0 : Asks.Reach (terms c) (step c) vm0 vm)
    (h : quiet c n vm = some vm') : Asks.Reach (terms c) (step c) vm0 vm' := by
  induction n generalizing vm with
  | zero =>
    cases h
    exact h0
  | succ n ih =>
    rw [quiet] at h
    split at h
    · next hplay => exact ih (h0.next (Asks.plays_of_play hplay) fun a ha => by cases ha) h
    · cases h

/-- Where `GAS` has pushed what is left of the 30000, the run reverts with it. -/
theorem round_refines_revert : ∃ vm, quiet revertContext 5 (start balanceCall) = some vm ∧
    Machine.Reverts vm.abs .REVERT (Word.bytes 29998) := by
  have hrun : ((quiet revertContext 5 (start balanceCall)).bind fun vm =>
      ((step revertContext vm).play []).bind fun o => match o with
        | .error (.RevertInstruction _ output) => some (opAt revertCode vm.PC, output)
        | _ => none) = some (.REVERT, Word.bytes 29998) := by decide +kernel
  obtain ⟨vm, hvm, hrun⟩ := Option.bind_eq_some_iff.1 hrun
  obtain ⟨o, hplay, ho⟩ := Option.bind_eq_some_iff.1 hrun
  refine ⟨vm, hvm, ?_⟩
  split at ho
  · obtain ⟨hop, hout⟩ := Prod.mk.inj (Option.some.inj ho)
    have hint : (opAt revertCode vm.PC).internal = true := by
      rw [hop]
      rfl
    have h := round_refines _ balanceCall _ revertCode _ (by decide) (by decide) (by decide)
      (reach_of_quiet .start hvm) hint (Asks.plays_of_play hplay) fun a ha => by cases ha
    rw [hop, hout] at h
    exact h
  · cases ho

end Diode.L4.VM
