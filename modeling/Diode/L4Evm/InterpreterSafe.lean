import Diode.L4Evm.JumpTable
import Diode.L4Evm.VMRules

/-!
# What a round keeps

Every instruction that goes on leaves the counter and the height of the stack to
the loop, costs gas, and has paid for the memory it leaves (`Kept`).
-/
namespace Diode.L4.VM
open Diode.Core

/-- What an instruction that goes on leaves of the machine it was given. -/
structure Kept (vm vm' : VM) : Prop where
  SPP : vm'.SPP = vm.SPP
  PC : vm'.PC = vm.PC
  gas : vm'.io_gas < vm.io_gas
  total : vm'.io_gas + memGas vm'.mem.length ≤ vm.io_gas + memGas vm.mem.length
  words : 32 ∣ vm.mem.length → 32 ∣ vm'.mem.length
  returned : vm.returnData.length < 2 ^ 64 → vm'.returnData.length < 2 ^ 64

/-- A machine that has fetched an instruction with a cost. -/
structure Fetched (vm : VM) : Prop where
  copy : vm.copyMemSize = 0
  run : vm.runGas ≤ 32000
  pos : 0 < vm.runGas

section
variable {c : Context} {vm : VM}

@[simp] theorem length_grown (mem : Bytes) (k : Nat) : (mem ++ List.replicate k 0).length = mem.length + k := by
  rw [List.length_append, List.length_replicate]

/-- What an instruction costs is set before it is paid. -/
theorem Kept.of_run {vm' : VM} (runGas : Nat) (h : Kept (vm.setRunGas runGas) vm') : Kept vm vm' :=
  ⟨h.SPP, h.PC, h.gas, h.total, h.words, h.returned⟩

theorem Kept.of_copy {vm' : VM} (copyMemSize : Nat) (h : Kept (vm.setCopyMemSize copyMemSize) vm') : Kept vm vm' :=
  ⟨h.SPP, h.PC, h.gas, h.total, h.words, h.returned⟩

theorem Kept.of_returnData {vm' : VM} {returnData : Bytes} (hret : returnData.length < 2 ^ 64)
    (h : Kept (vm.setReturnData returnData) vm') : Kept vm vm' := ⟨h.SPP, h.PC, h.gas, h.total, h.words, fun _ => h.returned (by exact hret)⟩

/-- With no more gas and a memory as long. -/
theorem Kept.trans_le {vm' vm'' : VM} (h : Kept vm vm') (hSPP : vm''.SPP = vm'.SPP) (hPC : vm''.PC = vm'.PC)
    (hgas : vm''.io_gas ≤ vm'.io_gas) (hmem : vm''.mem.length = vm'.mem.length)
    (hret : vm''.returnData.length < 2 ^ 64 ∨ vm''.returnData = vm'.returnData) : Kept vm vm'' where
  SPP := hSPP.trans h.SPP
  PC := hPC.trans h.PC
  gas := Nat.lt_of_le_of_lt hgas h.gas
  total := by
    have := h.total
    rw [hmem]
    omega
  words hw := by
    rw [hmem]
    exact h.words hw
  returned hlt := hret.elim id fun he => he ▸ h.returned hlt

/-- A payment without more memory. -/
theorem kept_of_paid {vm' : VM} {runGas : Nat} (hpos : 0 < runGas) (hle : runGas ≤ vm.io_gas)
    (hSPP : vm'.SPP = vm.SPP) (hPC : vm'.PC = vm.PC) (hgas : vm'.io_gas = vm.io_gas - runGas)
    (hret : vm'.returnData = vm.returnData) (hmem : vm'.mem.length = vm.mem.length) : Kept vm vm' :=
  ⟨hSPP, hPC, by omega, by rw [hmem]; omega, fun h => by rwa [hmem], fun h => by rwa [hret]⟩

theorem Grown.total {vm' : VM} {newMem runGas k : Nat} (hg : Grown vm newMem runGas k) (hle : runGas ≤ vm.io_gas)
    (hgas : vm'.io_gas = vm.io_gas - runGas) (hmem : vm'.mem.length = vm.mem.length + k) :
    vm'.io_gas + memGas vm'.mem.length ≤ vm.io_gas + memGas vm.mem.length := by
  have := hg.paid
  rw [hmem, hgas]
  omega

/-- A payment for more memory. -/
theorem Grown.kept {vm' : VM} {newMem runGas k : Nat} (hg : Grown vm newMem runGas k) (hpos : 0 < vm.runGas)
    (hle : runGas ≤ vm.io_gas) (hSPP : vm'.SPP = vm.SPP) (hPC : vm'.PC = vm.PC)
    (hgas : vm'.io_gas = vm.io_gas - runGas) (hret : vm'.returnData = vm.returnData)
    (hmem : vm'.mem.length = vm.mem.length + k) : Kept vm vm' := by
  have := hg.least
  exact ⟨hSPP, hPC, by omega, hg.total hle hgas hmem, fun h => by rw [hmem]; exact hg.words h, fun h => by rwa [hret]⟩

/-! ## Instructions that only compute -/

theorem ordinary_kept {f : VM → Prog Word} (hpos : 0 < vm.runGas) (hspp : vm.SPP < 1024)
    (hw : ∀ gas, (f (vm.setGas gas)).All (terms c) fun _ => True) :
    (ordinary f vm).All (terms c) (Kept vm) := by
  unfold ordinary
  rw [Asks.all_bind, all_updateIOGas]
  intro hle
  rw [Asks.all_bind]
  refine (hw _).mono fun w _ => (all_set_spp (by exact hspp)).2 ?_
  exact kept_of_paid hpos hle rfl rfl rfl rfl rfl

theorem unary_kept {f : Word → Word} (hpos : 0 < vm.runGas) (hsp : vm.SP + 1 ≤ 1024) (hspp : vm.SPP < 1024) :
    (unary f vm).All (terms c) (Kept vm) :=
  ordinary_kept hpos hspp fun gas => by
    rw [Asks.all_bind, all_sp (by exact hsp), Asks.all_ret]
    trivial

theorem binary_kept {f : Word → Word → Word} (hpos : 0 < vm.runGas) (hsp : vm.SP + 2 ≤ 1024)
    (hspp : vm.SPP < 1024) : (binary f vm).All (terms c) (Kept vm) :=
  ordinary_kept hpos hspp fun gas => by
    simp only [Asks.all_bind]
    rw [all_sp (by simp; omega), all_sp (by simp; omega), Asks.all_ret]
    trivial

theorem ternary_kept {f : Word → Word → Word → Word} (hpos : 0 < vm.runGas) (hsp : vm.SP + 3 ≤ 1024)
    (hspp : vm.SPP < 1024) : (ternary f vm).All (terms c) (Kept vm) :=
  ordinary_kept hpos hspp fun gas => by
    simp only [Asks.all_bind]
    rw [all_sp (by simp; omega), all_sp (by simp; omega), all_sp (by simp; omega), Asks.all_ret]
    trivial

theorem EXP_kept (hsp : vm.SP + 2 ≤ 1024) (hspp : vm.SPP < 1024) : (EXP c vm).All (terms c) (Kept vm) := by
  unfold EXP
  simp only [Asks.all_bind]
  rw [all_sp (by omega), all_toInt63]
  intro _
  refine (binary_kept ?_ (by exact hsp) (by exact hspp)).mono fun vm' h => h.of_run _
  simp [stepGas5]

theorem SIGNEXTEND_kept (hpos : 0 < vm.runGas) (hsp : vm.SP + 2 ≤ 1024) :
    (SIGNEXTEND vm).All (terms c) (Kept vm) := by
  unfold SIGNEXTEND
  simp only [Asks.all_bind]
  refine all_updateIOGas.2 fun hle => ?_
  rw [all_sp_top (by simp; omega)]
  split
  · rw [Asks.all_bind, all_sp (by simp; omega), all_set_sp (by simp; omega)]
    exact kept_of_paid hpos hle rfl rfl rfl rfl rfl
  · exact (Asks.all_ret _).2 (kept_of_paid hpos hle rfl rfl rfl rfl rfl)

theorem CALLDATALOAD_kept (hpos : 0 < vm.runGas) (hsp : vm.SP + 1 ≤ 1024) :
    (CALLDATALOAD c vm).All (terms c) (Kept vm) := by
  unfold CALLDATALOAD
  simp only [Asks.all_bind]
  refine all_updateIOGas.2 fun hle => ?_
  rw [all_sp_top (by exact hsp)]
  have hset : ∀ w, ((vm.setGas (vm.io_gas - vm.runGas)).set_sp 0 w).All (terms c) (Kept vm) := fun w =>
    (all_set_sp (by exact hsp)).2 (kept_of_paid hpos hle rfl rfl rfl rfl rfl)
  split
  · next hin =>
    rw [Asks.all_bind, all_load]
    · exact hset _
    · right
      unfold u64
      omega
  · split <;> exact hset _

theorem PUSH_kept {n : Nat} (hpos : 0 < vm.runGas) (hspp : vm.SPP < 1024)
    (hpc : vm.PC + 1 + (n + 1) ≤ c.code.length) :
    (PUSH c n vm).All (terms c) fun vm' => Kept vm (vm'.setPC vm.PC) ∧ vm'.PC = vm.PC + 1 + (n + 1) := by
  unfold PUSH
  simp only [Asks.all_bind]
  refine all_updateIOGas.2 fun hle => ?_
  rw [all_load (.inr (by exact hpc)), all_set_spp (by exact hspp), Asks.all_ret]
  exact ⟨kept_of_paid hpos hle rfl rfl rfl rfl rfl, rfl⟩

theorem all_verifyJumpDest {post : Nat → Prop} {dest : Word}
    (hp : ∀ pc ∈ c.jumpDests, post pc) : (verifyJumpDest c dest).All (terms c) post := by
  unfold verifyJumpDest
  split
  · next h => exact (Asks.all_ret _).2 (hp _ h.2)
  · exact (Asks.all_stop _).2 trivial

/-- A jump that is taken is to a destination of the table. -/
def Jumped (c : Context) (vm vm' : VM) : Prop :=
  Kept vm (vm'.setPC vm.PC) ∧ (vm'.PC ∈ c.jumpDests ∨ vm'.PC = vm.PC + 1)

theorem JUMP_kept (hpos : 0 < vm.runGas) (hsp : vm.SP + 1 ≤ 1024) :
    (JUMP c vm).All (terms c) (Jumped c vm) := by
  unfold JUMP
  simp only [Asks.all_bind]
  refine all_updateIOGas.2 fun hle => ?_
  rw [all_sp_top (by exact hsp)]
  exact all_verifyJumpDest fun pc hpc => (Asks.all_ret _).2
    ⟨kept_of_paid hpos hle rfl rfl rfl rfl rfl, .inl hpc⟩

theorem JUMPI_kept (hpos : 0 < vm.runGas) (hsp : vm.SP + 2 ≤ 1024) :
    (JUMPI c vm).All (terms c) (Jumped c vm) := by
  unfold JUMPI
  simp only [Asks.all_bind]
  refine all_updateIOGas.2 fun hle => ?_
  rw [all_sp (by exact hsp)]
  split
  · simp only [Asks.all_bind]
    rw [all_sp_top (by simp; omega)]
    exact all_verifyJumpDest fun pc hpc => (Asks.all_ret _).2
      ⟨kept_of_paid hpos hle rfl rfl rfl rfl rfl, .inl hpc⟩
  · exact (Asks.all_ret _).2 ⟨kept_of_paid hpos hle rfl rfl rfl rfl rfl, .inr rfl⟩

theorem DUP_kept {n : Nat} (hpos : 0 < vm.runGas) (hsp : vm.SP + n < 1024) (hspp : vm.SPP < 1024) :
    (DUP n vm).All (terms c) (Kept vm) :=
  ordinary_kept hpos hspp fun gas => (all_sp (by exact hsp)).2 trivial

theorem SWAP_kept {n : Nat} (hpos : 0 < vm.runGas) (hsp : vm.SP + n + 1 < 1024) :
    (SWAP n vm).All (terms c) (Kept vm) := by
  unfold SWAP
  simp only [Asks.all_bind]
  refine all_updateIOGas.2 fun hle => ?_
  rw [all_sp_top (by simp; omega), all_sp (by exact hsp), all_set_sp (by simp; omega), all_set_sp (by exact hsp)]
  exact kept_of_paid hpos hle rfl rfl rfl rfl rfl

theorem POP_kept (hpos : 0 < vm.runGas) : (POP vm).All (terms c) (Kept vm) :=
  all_updateIOGas.2 fun hle => kept_of_paid hpos hle rfl rfl rfl rfl rfl

theorem JUMPDEST_kept : (JUMPDEST vm).All (terms c) (Kept vm) :=
  all_updateIOGas.2 fun hle => .of_run _ (kept_of_paid Nat.one_pos hle rfl rfl rfl rfl rfl)

theorem SSTORE_kept (hsp : vm.SP + 2 ≤ 1024) : (SSTORE c vm).All (terms c) (Kept vm) := by
  unfold SSTORE
  rw [Asks.all_guard trivial]
  intro hs
  rw [Asks.all_guard trivial]
  intro _
  simp only [Asks.all_bind]
  rw [all_sp_top (by omega), all_sp (by omega)]
  refine all_asked (q := .set_storage _ _ _) ⟨rfl, by simpa using hs⟩ fun status _ =>
    all_updateIOGas.2 fun hle => .of_run _ (kept_of_paid ?_ hle rfl rfl rfl rfl rfl)
  -- whatever the host found, the change costs
  cases status <;> simp only [setRunGas_runGas] <;> cases c.rev <;> decide

/-! ## Memory -/

theorem MLOAD_kept (hf : Fetched vm) (hsp : vm.SP + 1 ≤ 1024) (hspp : vm.SPP < 1024) :
    (MLOAD vm).All (terms c) (Kept vm) := by
  have hrun := hf.run
  have hcopy := hf.copy
  unfold MLOAD
  simp only [Asks.all_bind]
  rw [all_sp_top (by omega), all_toInt63]
  intro hoff
  refine all_updateMem (by omega) (by omega) (by omega) fun runGas n k hg => all_updateIOGas.2 fun hle => ?_
  have hroom := hg.room
  rw [all_load (.inr (by simp; omega)), all_set_spp (by exact hspp)]
  exact hg.kept hf.pos hle rfl rfl rfl rfl (by simp)

theorem MSTORE_kept (hf : Fetched vm) (hsp : vm.SP + 2 ≤ 1024) : (MSTORE vm).All (terms c) (Kept vm) := by
  have hrun := hf.run
  have hcopy := hf.copy
  unfold MSTORE
  simp only [Asks.all_bind]
  rw [all_sp_top (by omega), all_toInt63]
  intro hoff
  refine all_updateMem (by omega) (by omega) (by omega) fun runGas n k hg => all_updateIOGas.2 fun hle => ?_
  have hroom := hg.room
  rw [all_sp (by exact hsp)]
  refine store_all (.inr (by simp; omega)) fun mem hmem => ?_
  exact hg.kept hf.pos hle rfl rfl rfl rfl (by simpa using hmem)

theorem MSTORE8_kept (hf : Fetched vm) (hsp : vm.SP + 2 ≤ 1024) : (MSTORE8 vm).All (terms c) (Kept vm) := by
  have hrun := hf.run
  have hcopy := hf.copy
  unfold MSTORE8
  simp only [Asks.all_bind]
  rw [all_sp_top (by omega), all_toInt63]
  intro hoff
  refine all_updateMem (by omega) (by omega) (by omega) fun runGas n k hg => all_updateIOGas.2 fun hle => ?_
  have hroom := hg.room
  rw [all_sp (by exact hsp)]
  refine store_all (.inr (by simp; omega)) fun mem hmem => ?_
  exact hg.kept hf.pos hle rfl rfl rfl rfl (by simpa using hmem)

/-- A slice that was paid for lies in the memory. -/
theorem Grown.slice {newMem runGas k : Nat} {offset size : Word} (hg : Grown vm newMem runGas k)
    (hn : need offset size ≤ newMem) (hlt : need offset size < 2 ^ 63) : u64 size.toNat = 0 ∨
    u64 offset.toNat + u64 size.toNat ≤ vm.mem.length + k := by
  have hroom := hg.room
  unfold need at hn hlt
  unfold u64
  by_cases h : size = 0
  · subst h
    exact .inl rfl
  · rw [if_pos h] at hn hlt
    omega

theorem SHA3_kept (hf : Fetched vm) (hsp : vm.SP + 2 ≤ 1024) (hspp : vm.SPP < 1024) :
    (SHA3 c vm).All (terms c) (Kept vm) := by
  have hcopy := hf.copy
  unfold SHA3
  simp only [Asks.all_bind]
  rw [all_sp_top (by omega), all_sp (by omega), all_toInt63]
  intro hrun
  rw [all_memNeed]
  intro hneed
  refine all_updateMem (by omega) (by simp; omega) (by simp [hcopy]; omega) fun runGas n k hg =>
    all_updateIOGas.2 fun hle => ?_
  rw [all_load (by simpa using hg.slice (Nat.le_refl _) hneed), all_set_spp (by exact hspp)]
  exact .of_run _ (hg.kept (by simp [sha3Gas]) hle rfl rfl rfl rfl (by simp))

theorem LOG_kept {n : Nat} (hcopy : vm.copyMemSize = 0) (hsp : vm.SP + (n + 2) ≤ 1024) :
    (LOG c n vm).All (terms c) (Kept vm) := by
  unfold LOG logGasMem
  rw [Asks.all_guard trivial]
  intro hs
  simp only [Asks.all_bind]
  rw [all_sp_top (by omega), all_sp (by omega), all_toInt63]
  intro hrun
  rw [all_memNeed]
  intro hneed
  refine all_updateMem (by omega) (by simp; omega) (by simp [hcopy]; omega) fun runGas m k hg =>
    all_updateIOGas.2 fun hle => ?_
  rw [all_sp_top (by simp; omega), all_sp (by simp; omega),
    all_load (by simpa using hg.slice (Nat.le_refl _) hneed)]
  refine all_sps (by simp; omega) fun topics => all_asked (q := .emit_log _ _ _) ⟨rfl, by simpa using hs⟩ fun _ _ =>
    (Asks.all_ret _).2 (.of_run _ (hg.kept (by simp [logGas]) hle rfl rfl rfl rfl (by simp)))

/-- What is copied is what there is of it. -/
theorem copied_le {n index size : Nat} (hsize : size < 2 ^ 63) :
    let k := if n < index + size then if n < index then 0 else sub64 n (u64 index) else size
    k ≤ size ∧ (k = 0 ∨ u64 index + k ≤ n) := by
  unfold sub64 u64
  dsimp only
  split
  · split <;> omega
  · omega

theorem copyDataToMemory_all {data : Bytes} {post : VM → Prop} (hsp : vm.SP + 3 ≤ 1024)
    (hsize : (vm.stack (vm.SP + 2)).toNat < 2 ^ 63)
    (hroom : u64 (vm.stack (vm.SP + 2)).toNat = 0 ∨
      u64 (vm.stack vm.SP).toNat + u64 (vm.stack (vm.SP + 2)).toNat ≤ vm.mem.length)
    (hp : ∀ mem, mem.length = vm.mem.length → post (vm.setMem mem)) :
    (copyDataToMemory vm data).All (terms c) post := by
  unfold copyDataToMemory
  simp only [Asks.all_bind]
  rw [all_sp_top (by omega), all_sp (by omega), all_sp (by omega)]
  have hu : u64 (vm.stack (vm.SP + 2)).toNat = (vm.stack (vm.SP + 2)).toNat := Nat.mod_eq_of_lt (by omega)
  obtain ⟨hle, hin⟩ := @copied_le data.length (vm.stack (vm.SP + 1)).toNat _ hsize
  rw [hu] at hroom ⊢
  generalize (vm.stack (vm.SP + 2)).toNat = size at *
  generalize (if data.length < (vm.stack (vm.SP + 1)).toNat + size then _ else size) = k at *
  have hzeros : ∀ mem, mem.length = vm.mem.length → (if k < size then
      (vm.setMem mem).store (u64 (vm.stack vm.SP).toNat + k) (List.replicate (size - k) 0)
      else .ret (vm.setMem mem)).All (terms c) post := by
    intro mem hmem
    split
    · exact store_all (.inr (by simp [hmem]; omega)) fun mem' hmem' => hp mem' (by simpa [hmem] using hmem')
    · exact (Asks.all_ret _).2 (hp mem hmem)
  split
  · simp only [Asks.all_bind]
    rw [all_load hin]
    exact store_all (.inr (by simp; omega)) hzeros
  · rw [Asks.all_bind, Asks.all_ret]
    exact hzeros vm.mem rfl

theorem COPY_kept {data : Bytes} (hf : Fetched vm) (hsp : vm.SP + 3 ≤ 1024) :
    (COPY data vm).All (terms c) (Kept vm) := by
  have hrun := hf.run
  unfold COPY
  simp only [Asks.all_bind]
  rw [all_sp_top (by omega), all_sp (by omega), all_toInt63]
  intro hsize
  rw [all_memNeed]
  intro hneed
  refine all_updateMem (by omega) (by simpa using hsize) (by simp; omega) fun runGas m k hg =>
    all_updateIOGas.2 fun hle => ?_
  refine copyDataToMemory_all (by exact hsp) hsize (by simpa using hg.slice (Nat.le_refl _) hneed) fun mem hmem => ?_
  exact .of_copy _ (hg.kept hf.pos hle rfl rfl rfl rfl (by simpa using hmem))

theorem RETURNDATACOPY_kept (hf : .BYZANTIUM ≤ c.rev → Fetched vm ∧ vm.SP + 3 ≤ 1024) :
    (RETURNDATACOPY c vm).All (terms c) (Kept vm) := by
  unfold RETURNDATACOPY
  rw [Asks.all_guard trivial]
  intro hrev
  obtain ⟨hf, hsp⟩ := hf (Revision.not_lt.1 hrev)
  simp only [Asks.all_bind]
  rw [all_sp (by omega), all_sp (by omega), Asks.all_guard trivial]
  exact fun _ => COPY_kept hf hsp

theorem EXTCODECOPY_kept (hf : Fetched vm) (hsp : vm.SP + 4 ≤ 1024) :
    (EXTCODECOPY vm).All (terms c) (Kept vm) := by
  have hrun := hf.run
  unfold EXTCODECOPY
  simp only [Asks.all_bind]
  rw [all_sp (by omega), all_toInt63]
  intro hsize
  rw [all_sp (by omega), all_sp (by omega), all_memNeed]
  intro hneed
  refine all_updateMem (by omega) (by simpa using hsize) (by simp; omega) fun runGas m k hg =>
    all_updateIOGas.2 fun hle => ?_
  rw [all_sp_top (by simp; omega), all_sp (by simp; omega), all_sp (by simp; omega)]
  have hslice := hg.slice (Nat.le_refl _) hneed
  have hu : u64 (vm.stack (vm.SP + 3)).toNat = (vm.stack (vm.SP + 3)).toNat := Nat.mod_eq_of_lt (by omega)
  rw [hu] at hslice
  refine all_asked (q := .copy_code _ _ _) trivial fun copied hcopied => ?_
  have hlen : List.length (α := UInt8) copied ≤ (vm.stack (vm.SP + 3)).toNat := hcopied
  rw [if_neg (by omega)]
  rw [Asks.all_bind]
  -- nothing is asked for, or all of it has its place
  rcases hslice with h0 | hin
  · have hnil : copied = [] := List.eq_nil_of_length_eq_zero (by omega)
    refine store_all (.inl hnil) fun mem hmem => store_all (.inl ?_) fun mem' hmem' => ?_
    · rw [h0, Nat.zero_sub, List.replicate_zero]
    · exact .of_copy _ (hg.kept hf.pos hle rfl rfl rfl rfl (by simp at *; omega))
  · refine store_all (.inr ?_) fun mem hmem => store_all (.inr ?_) fun mem' hmem' => ?_
    · simp at hin ⊢
      omega
    · simp [hmem] at hin ⊢
      omega
    · exact .of_copy _ (hg.kept hf.pos hle rfl rfl rfl rfl (by simp at *; omega))

/-! ## Ending the run -/

/-- The gas left and the memory have been paid out of the gas of the message. -/
def Ended (c : Context) (r : VM × Bytes) : Prop := r.1.io_gas + memGas r.1.mem.length ≤ c.message.gas.toNat

theorem output_all (hrun : vm.runGas ≤ 32000) (hsp : vm.SP + 2 ≤ 1024)
    (hgas : vm.io_gas + memGas vm.mem.length ≤ c.message.gas.toNat) :
    (output vm).All (terms c) (Ended c) := by
  unfold output
  simp only [Asks.all_bind]
  rw [all_sp_top (by omega), all_sp (by omega), all_memNeed]
  intro hneed
  refine all_updateMem (by omega) (by simp) (by simp; omega) fun runGas m k hg =>
    all_updateIOGas.2 fun hle => ?_
  rw [all_load (by simpa using hg.slice (Nat.le_refl _) hneed), Asks.all_ret]
  exact Nat.le_trans (hg.total hle rfl (by simp)) hgas

theorem RETURN_all (hrun : vm.runGas ≤ 32000) (hsp : vm.SP + 2 ≤ 1024)
    (hgas : vm.io_gas + memGas vm.mem.length ≤ c.message.gas.toNat) :
    (RETURN vm).All (terms c) (Sum.elim (fun _ => False) (Ended c)) := by
  unfold RETURN
  rw [Asks.all_bind]
  exact (output_all hrun hsp hgas).mono fun r hr => (Asks.all_ret _).2 hr

theorem REVERT_all (hrun : vm.runGas ≤ 32000)
    (hsp : .BYZANTIUM ≤ c.rev → vm.SP + 2 ≤ 1024)
    (hgas : vm.io_gas + memGas vm.mem.length ≤ c.message.gas.toNat) :
    (REVERT c vm).All (terms c) fun _ => False := by
  unfold REVERT
  rw [Asks.all_guard trivial]
  intro hrev
  rw [Asks.all_bind]
  exact (output_all hrun (hsp (Revision.not_lt.1 hrev)) hgas).mono fun r hr =>
    (Asks.all_stop _).2 (Nat.le_trans (Nat.le_add_right ..) hr)

/-- Without more memory. -/
theorem ended_of_paid {vm' : VM} {runGas : Nat} {out : Bytes} (hgas' : vm'.io_gas = vm.io_gas - runGas)
    (hmem : vm'.mem = vm.mem) (hgas : vm.io_gas + memGas vm.mem.length ≤ c.message.gas.toNat) : Ended c (vm', out) := by
  show vm'.io_gas + memGas vm'.mem.length ≤ _
  rw [hmem, hgas']
  omega

theorem STOP_all (hgas : vm.io_gas + memGas vm.mem.length ≤ c.message.gas.toNat) :
    (STOP vm).All (terms c) (Sum.elim (fun _ => False) (Ended c)) := by
  unfold STOP
  rw [Asks.all_bind, all_updateIOGas]
  exact fun _ => (Asks.all_ret _).2 (ended_of_paid rfl rfl hgas)

theorem newAccountGas_all {post : Nat → Prop} {charged : Bool} {destination : Addr}
    (hp : ∀ gas, gas ≤ 25000 → post gas) : (newAccountGas charged destination).All (terms c) post := by
  unfold newAccountGas
  split
  · rw [Asks.all_bind]
    refine all_asked (q := .account_exists _) trivial fun found _ => (Asks.all_ret _).2 (hp _ ?_)
    split <;> decide
  · exact (Asks.all_ret _).2 (hp 0 (by decide))

theorem paysNewAccount_all : (paysNewAccount c).All (terms c) fun _ => True := by
  unfold paysNewAccount
  split
  · exact (Asks.all_ret _).2 trivial
  · split
    · exact (Asks.all_ret _).2 trivial
    · rw [Asks.all_bind]
      exact all_asked (q := .get_balance _) trivial fun _ _ => (Asks.all_ret _).2 trivial

theorem SELFDESTRUCT_all (hsp : vm.SP + 1 ≤ 1024)
    (hgas : vm.io_gas + memGas vm.mem.length ≤ c.message.gas.toNat) :
    (SELFDESTRUCT c vm).All (terms c) (Sum.elim (fun _ => False) (Ended c)) := by
  unfold SELFDESTRUCT
  rw [Asks.all_guard trivial]
  intro hs
  simp only [Asks.all_bind]
  rw [all_sp_top (by omega)]
  refine paysNewAccount_all.any fun charged => newAccountGas_all fun fresh _ => all_updateIOGas.2 fun _ => ?_
  exact all_asked (q := .selfdestruct _ _) ⟨rfl, by simpa using hs⟩ fun _ _ =>
    (Asks.all_ret _).2 (ended_of_paid rfl rfl hgas)

/-! ## Creations -/

theorem createSalt_all {create2 : Bool} (hsp : create2 = true → vm.SP + 4 ≤ 1024) :
    (createSalt create2 vm).All (terms c) fun _ => True := by
  unfold createSalt
  split
  · next h => exact (all_sp (by have := hsp h; omega)).2 trivial
  · exact (Asks.all_ret _).2 trivial

theorem createHashGas_all {create2 : Bool} {initSize : Word} :
    (createHashGas create2 initSize).All (terms c) fun gas => gas ≤ (initSize.toNat + 31) / 32 * 6 := by
  unfold createHashGas
  split
  · exact all_toInt63.2 fun _ => Nat.le_refl _
  · exact (Asks.all_ret _).2 (Nat.zero_le _)

theorem createMsgGas_le (hgas : vm.io_gas < 2 ^ 63) : (createMsgGas c vm).toNat ≤ vm.io_gas := by
  have hn : (BitVec.ofNat 64 vm.io_gas).toNat = vm.io_gas := Nat.mod_eq_of_lt (by omega)
  unfold createMsgGas
  dsimp only
  split
  · have hmsb : (BitVec.ofNat 64 vm.io_gas).msb = false := by
      rw [BitVec.msb_eq_false_iff_two_mul_lt, hn]
      omega
    have hdiv : ((BitVec.ofNat 64 vm.io_gas).sdiv 64).toNat = vm.io_gas / 64 := by
      rw [BitVec.sdiv_eq, hmsb, show (64 : BitVec 64).msb = false from rfl]
      show (BitVec.ofNat 64 vm.io_gas / 64).toNat = _
      rw [BitVec.toNat_udiv, hn]
      rfl
    rw [BitVec.toNat_sub_of_le (by rw [BitVec.le_def, hdiv, hn]; omega), hn, hdiv]
    omega
  · exact Nat.le_of_eq hn

/-- What is given back is at most what was given. -/
theorem sub64_le {io_gas : Nat} {gas left : BitVec 64} (h : gas.toNat ≤ io_gas) (hl : left.toNat ≤ gas.toNat)
    (hlt : io_gas < 2 ^ 63) : sub64 io_gas (gas - left).toNat ≤ io_gas := by
  rw [BitVec.toNat_sub_of_le (by rwa [BitVec.le_def])]
  unfold sub64
  omega

theorem caseCreate_kept {create2 : Bool} (hcopy : vm.copyMemSize = 0) (hsp : vm.SP + 3 ≤ 1024)
    (hsalt : create2 = true → vm.SP + 4 ≤ 1024) (hspp : vm.SPP < 1024) (hstatic : c.message.static = false)
    (hgas : vm.io_gas < 2 ^ 63) : (caseCreate c create2 vm).All (terms c) (Kept vm) := by
  unfold caseCreate
  simp only [Asks.all_bind]
  rw [all_sp_top (by omega), all_sp (by omega), all_sp (by omega)]
  refine (createSalt_all hsalt).any fun salt => createHashGas_all.mono fun hashGas hhash => ?_
  rw [all_memNeed]
  intro hneed
  have hbound : hashGas < 2 ^ 62 := by
    unfold need at hneed
    rcases eq_or_ne (vm.stack (vm.SP + 2)) 0 with h | h
    · rw [h] at hhash
      simp at hhash
      omega
    · rw [if_pos h] at hneed
      omega
  have hsum : u64 (createGas + hashGas) = 32000 + hashGas := Nat.mod_eq_of_lt (by unfold createGas; omega)
  refine all_updateMem (by omega) (by simp; omega) (by simp [hcopy, hsum]; omega) fun runGas m k hg =>
    all_updateIOGas.2 fun hle => ?_
  have hkept : Kept vm (((vm.setRunGas (u64 (createGas + hashGas))).grow runGas m k).setGas (vm.io_gas - runGas)) :=
    .of_run _ (hg.kept (by simp [hsum]) hle rfl rfl rfl rfl (by simp))
  refine all_asked (q := .get_balance _) trivial fun balance _ => ?_
  split
  · next hcall =>
    simp only [Asks.all_bind]
    rw [all_load (by simpa using hg.slice (Nat.le_refl _) hneed)]
    have hle' : (createMsgGas c ((((vm.setRunGas (u64 (createGas + hashGas))).grow runGas m k).setGas
        (vm.io_gas - runGas)).setReturnData [])).toNat ≤ vm.io_gas - runGas := createMsgGas_le (by simp; omega)
    refine all_asked (q := .call _) ⟨hcall.2, rfl, ?_, fun h => ?_⟩ fun r hr => ?_
    · exact Nat.lt_of_le_of_lt hle' (by omega)
    · exact absurd h (by simp [hstatic])
    · rw [all_set_spp (by exact hspp), Asks.all_ret]
      have hleft := sub64_le hle' hr.1 (by simp; omega)
      exact hkept.trans_le (by simp) (by simp) (by simpa using hleft) (by simp) (.inl (by simpa using hr.2))
  · exact (all_set_spp (by exact hspp)).2 (hkept.trans_le rfl rfl (Nat.le_refl _) rfl (.inl (by simp)))

theorem CREATE_kept {create2 : Bool} (hf : create2 = true → .CONSTANTINOPLE ≤ c.rev → vm.SP + 4 ≤ 1024 ∧ vm.SPP < 1024)
    (hf' : create2 = false → vm.SP + 3 ≤ 1024 ∧ vm.SPP < 1024) (hcopy : vm.copyMemSize = 0) (hgas : vm.io_gas < 2 ^ 63) :
    (CREATE c create2 vm).All (terms c) (Kept vm) := by
  unfold CREATE
  rw [Asks.all_guard trivial]
  intro hrev
  rw [Asks.all_guard trivial]
  intro hs
  have hs : c.message.static = false := by simpa using hs
  cases create2 with
  | false => exact caseCreate_kept hcopy (hf' rfl).1 (fun h => by cases h) (hf' rfl).2 hs hgas
  | true =>
    obtain ⟨hsp, hspp⟩ := hf rfl (Revision.not_lt.1 fun hlt => hrev ⟨rfl, hlt⟩)
    exact caseCreate_kept hcopy (by omega) (fun _ => hsp) hspp hs hgas

/-! ## Calls -/

/-- The value that goes with a call, as it stands on the stack. -/
def valueOf (op : CallOp) (vm : VM) : Word := if op.haveValueArg then vm.stack (vm.SP + 2) else 0

theorem all_callValue {post : Word → Prop} {op : CallOp} (hsp : vm.SP + 3 ≤ 1024) :
    (callValue op vm).All (terms c) post ↔ post (valueOf op vm) := by
  unfold callValue valueOf
  split
  · exact all_sp (by omega)
  · exact Asks.all_ret _

/-- A call with a value costs more than the stipend. -/
theorem callCharge_all {post : VM → Prop} {op : CallOp} (hsp : vm.SP + 3 ≤ 1024) (hpos : 40 ≤ vm.runGas)
    (hrun : vm.runGas ≤ 32000)
    (hp : ∀ runGas, 0 < runGas → runGas ≤ 70000 → (valueOf op vm ≠ 0 → 9000 ≤ runGas) → post (vm.setRunGas runGas)) :
    (callCharge c op vm).All (terms c) post := by
  unfold callCharge
  simp only [Asks.all_bind]
  rw [all_sp (by omega), all_callValue hsp]
  refine newAccountGas_all fun fresh hfresh => (Asks.all_ret _).2 ?_
  generalize hrun' : (if .BERLIN ≤ c.rev ∧ c.message.destination = _ then callSelfGas else vm.runGas) = runGas
  have hrun : 40 ≤ runGas ∧ runGas ≤ 32000 := by
    rw [← hrun']
    split
    · exact ⟨Nat.le_refl _, by decide⟩
    · exact ⟨hpos, hrun⟩
  unfold u64 valueTransferGas
  by_cases hv : valueOf op vm = 0
  · rw [if_neg (not_not.2 hv)]
    exact hp _ (by omega) (by omega) (fun h => absurd hv h)
  · rw [if_pos hv]
    exact hp _ (by omega) (by omega) (fun _ => by omega)

theorem callGas_all {post : Nat × VM → Prop}
    (hp : ∀ gas, gas < 2 ^ 63 → gas ≤ vm.io_gas → post (gas, (vm.setRunGas gas).setGas (vm.io_gas - gas)))
    (hsp : vm.SP + 1 ≤ 1024) : (callGas c vm).All (terms c) post := by
  unfold callGas
  simp only [Asks.all_bind]
  rw [all_sp_top (by omega), all_toInt63]
  intro hgas
  rw [all_updateIOGas]
  exact fun hle => (Asks.all_ret _).2 (hp _ hgas hle)

theorem balanceOk_all {value : Word} : (balanceOk c value).All (terms c) fun _ => True := by
  unfold balanceOk
  split
  · rw [Asks.all_bind]
    exact all_asked (q := .get_balance _) trivial fun _ _ => (Asks.all_ret _).2 trivial
  · exact (Asks.all_ret _).2 trivial

/-- A call that was set up: with the gas it is given the machine has less than before,
and there is room for its output. -/
structure Ready (c : Context) (vm : VM) (s : CallSetup) : Prop where
  kept : Kept vm (s.vm.setGas (s.vm.io_gas + s.msg.gas.toNat))
  room : s.outSize = 0 ∨ s.outOff + s.outSize ≤ s.vm.mem.length
  allowed : s.ok = true → Allowed c (.call s.msg)

theorem caseCallSetup_all {op : CallOp} (hcopy : vm.copyMemSize = 0) (hpos : 40 ≤ vm.runGas) (hrun : vm.runGas ≤ 32000)
    (hsp : vm.SP + op.sizesOffset + 4 ≤ 1024) (hgas : vm.io_gas < 2 ^ 63)
    (hstatic : op = .CALL → c.message.static = true → valueOf op vm = 0) :
    (caseCallSetup c op vm).All (terms c) (Ready c vm) := by
  have hoff : 2 ≤ op.sizesOffset := by
    unfold CallOp.sizesOffset
    split <;> decide
  unfold caseCallSetup
  simp only [Asks.all_bind]
  rw [all_sp (by omega), all_callValue (by omega)]
  refine callCharge_all (by omega) hpos hrun fun charge hcpos hcle hval => ?_
  rw [all_sp (by simp; omega), all_sp (by simp; omega), all_sp (by simp; omega), all_sp (by simp; omega), all_memNeed]
  intro hin
  rw [all_memNeed]
  intro hout
  refine all_updateMem (by omega) (by simp; omega) (by simp [hcopy]; omega) fun runGas m k hg =>
    all_updateIOGas.2 fun hle => callGas_all (fun gas hgas63 hgasle => ?_) (by simp; omega)
  rw [all_load (by simpa using hg.slice (Nat.le_max_left ..) hin)]
  -- the stipend comes back, but the value has cost more
  have hmsg : ∃ n, (BitVec.ofNat 64 (if valueOf op vm ≠ 0 then gas + callStipend else gas)).toNat = gas + n ∧
      n + 1 ≤ charge := by
    unfold callStipend
    split
    · next hv =>
      have := hval hv
      exact ⟨2300, Nat.mod_eq_of_lt (by omega), by omega⟩
    · exact ⟨0, Nat.mod_eq_of_lt (by omega), hcpos⟩
  obtain ⟨n, hmsg, hn⟩ := hmsg
  generalize BitVec.ofNat 64 (if valueOf op vm ≠ 0 then gas + callStipend else gas) = given at *
  have hpaid := hg.paid
  have hleast := hg.least
  simp at hle hgasle hpaid hleast
  refine balanceOk_all.any fun ok => (Asks.all_ret _).2 ⟨⟨?_, ?_, ?_, ?_, ?_, ?_⟩, ?_, ?_⟩
  · simp
  · simp
  · simp [hmsg]
    omega
  · simp [hmsg]
    omega
  · simpa using hg.words
  · simp
  · simpa using hg.slice (Nat.le_max_right ..) hout
  · intro h
    refine ⟨(of_decide_eq_true h).2, rfl, ?_, fun hs => ⟨decide_eq_true (.inr hs), ?_, fun hk => ?_⟩⟩
    · show given.toNat < _
      omega
    · cases op <;> rfl
    · cases op with
      | CALL => exact hstatic rfl hs
      | STATICCALL => rfl
      | CALLCODE => cases hk
      | DELEGATECALL => cases hk

theorem caseCall_kept {op : CallOp} (hcopy : vm.copyMemSize = 0) (hpos : 40 ≤ vm.runGas) (hrun : vm.runGas ≤ 32000)
    (hsp : vm.SP + op.sizesOffset + 4 ≤ 1024) (hspp : vm.SPP < 1024) (hgas : vm.io_gas < 2 ^ 63)
    (hstatic : op = .CALL → c.message.static = true → valueOf op vm = 0) :
    (caseCall c op vm).All (terms c) (Kept vm) := by
  unfold caseCall
  simp only [Asks.all_bind]
  have hsetup : (caseCallSetup c op (vm.setReturnData [])).All (terms c) (Ready c (vm.setReturnData [])) :=
    caseCallSetup_all hcopy hpos hrun hsp hgas hstatic
  refine hsetup.mono fun s hs => ?_
  have hkept : Kept vm (s.vm.setGas (s.vm.io_gas + s.msg.gas.toNat)) := .of_returnData (by decide) hs.kept
  have hlt := hkept.gas
  have hSPP := hkept.SPP
  simp at hlt hSPP
  have hu : ∀ left ≤ s.msg.gas.toNat, u64 (s.vm.io_gas + left) = s.vm.io_gas + left := fun left hl =>
    Nat.mod_eq_of_lt (by omega)
  split
  · next hok =>
    simp only [Asks.all_bind]
    refine all_asked (q := .call _) (hs.allowed hok) fun r hr => ?_
    obtain ⟨hleft, hlen⟩ : (CallResult.gas_left r).toNat ≤ s.msg.gas.toNat ∧ (CallResult.output r).length < 2 ^ 64 := hr
    have hout : List.take s.outSize (CallResult.output r) = [] ∨
        s.outOff + (List.take s.outSize (CallResult.output r)).length ≤ s.vm.mem.length := by
      rcases hs.room with h0 | hin
      · exact .inl (by rw [h0, List.take_zero])
      · exact .inr (by rw [List.length_take]; omega)
    refine store_all hout fun mem hmem => ?_
    rw [all_set_spp (by simp; omega), Asks.all_ret]
    simp only [setStack_io_gas, setMem_io_gas, setReturnData_io_gas, hu _ hleft]
    exact hkept.trans_le (by simp) (by simp) (by simpa using hleft) (by simpa using hmem) (.inl (by simpa using hlen))
  · rw [Asks.all_bind, all_set_spp (by omega), Asks.all_ret]
    simp only [setStack_io_gas, hu _ (Nat.le_refl _)]
    exact hkept.trans_le (by simp) (by simp) (by simp) (by simp) (.inr (by simp))

theorem CALL_kept {op : CallOp} (hf : (op = .DELEGATECALL → .HOMESTEAD ≤ c.rev) →
      (op = .STATICCALL → .BYZANTIUM ≤ c.rev) → vm.SP + op.sizesOffset + 4 ≤ 1024 ∧ vm.SPP < 1024 ∧ 40 ≤ vm.runGas)
    (hcopy : vm.copyMemSize = 0) (hrun : vm.runGas ≤ 32000) (hgas : vm.io_gas < 2 ^ 63) :
    (CALL c op vm).All (terms c) (Kept vm) := by
  unfold CALL
  rw [Asks.all_guard trivial]
  intro hdel
  rw [Asks.all_guard trivial]
  intro hstat
  obtain ⟨hsp, hspp, hpos⟩ := hf (fun h => Revision.not_lt.1 fun hlt => hdel ⟨h, hlt⟩)
    (fun h => Revision.not_lt.1 fun hlt => hstat ⟨h, hlt⟩)
  have hoff : 2 ≤ op.sizesOffset := by
    unfold CallOp.sizesOffset
    split <;> decide
  have hcall : (op = .CALL → c.message.static = true → valueOf op vm = 0) →
      (caseCall c op vm).All (terms c) (Kept vm) := caseCall_kept hcopy hpos hrun hsp hspp hgas
  dsimp only
  split
  · next h =>
    rw [Asks.all_bind, all_sp (by omega), Asks.all_guard trivial]
    intro hv
    refine hcall fun ho _ => ?_
    rw [valueOf, if_pos (by rw [ho]; rfl)]
    exact not_not.1 hv
  · next h => exact hcall fun ho hs => absurd ⟨ho, hs⟩ h

end
end Diode.L4.VM
