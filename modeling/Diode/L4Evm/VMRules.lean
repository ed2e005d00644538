import Diode.L4Evm.Interpreter
import Mathlib.Algebra.Order.Group.Nat

/-!
# Rules of the machine

What a run may rely on (`Honest`: the host writes no more code than it was asked
for, and a call gives back no more gas than it was given) and what it keeps to
(`Allowed`, `Fails`), with one rule for each thing the instructions are built
from: an access of the stack or of an array is safe, a payment leaves what it
leaves, a memory that grows was paid for (`Grown`).
-/
namespace Diode.L4.VM
open Diode.Core

/-! ## The terms -/

/-- What the host is trusted with; the size of an output fits its 64 bits. -/
def Honest : (q : HostCall) → q.Reply → Prop
  | .copy_code _ _ size, copied => List.length (α := UInt8) copied ≤ size
  | .call msg, r => (CallResult.gas_left r).toNat ≤ msg.gas.toNat ∧ (CallResult.output r).length < 2 ^ 64
  | _, _ => True

/-- What a frame may ask: it acts for its own account, goes one level deeper with
a call, and changes nothing when it is static. -/
def Allowed (c : Context) : HostCall → Prop
  | .get_storage addr _ => addr = c.message.destination
  | .set_storage addr _ _ => addr = c.message.destination ∧ c.message.static = false
  | .selfdestruct addr _ => addr = c.message.destination ∧ c.message.static = false
  | .emit_log addr _ _ => addr = c.message.destination ∧ c.message.static = false
  | .call msg => c.message.depth < 1024 ∧ msg.depth = c.message.depth + 1 ∧ msg.gas.toNat < 2 ^ 63 ∧
      (c.message.static = true → msg.static = true ∧ msg.creates = false ∧ (msg.kind = .call → msg.value = 0))
  | _ => True

/-- How a run may fail: never by an access outside of an array. A revert carries what `reverts` says. -/
def Fails (reverts : Nat → Bytes → Prop) : VMException → Prop
  | .undefined => False
  | .RevertInstruction io_gas output => reverts io_gas output
  | _ => True

def rules (c : Context) (reverts : Nat → Bytes → Prop) : Asks.Terms HostCall HostCall.Reply VMException :=
  ⟨Honest, Allowed c, Fails reverts⟩

/-- A revert leaves no more gas than the run started with. -/
abbrev terms (c : Context) : Asks.Terms HostCall HostCall.Reply VMException :=
  rules c fun io_gas _ => io_gas ≤ c.message.gas.toNat

variable {c : Context} {vm : VM} {reverts : Nat → Bytes → Prop}

@[simp] theorem rules_answer : (rules c reverts).answer = Honest := rfl
@[simp] theorem rules_question : (rules c reverts).question = Allowed c := rfl
@[simp] theorem rules_error : (rules c reverts).error = Fails reverts := rfl

/-- What the host answers, whatever it is. -/
theorem all_asked {q : HostCall} {post : q.Reply → Prop} (hq : Allowed c q) (hp : ∀ r, Honest q r → post r) :
    (Asks.ask q Asks.ret : Prog q.Reply).All (rules c reverts) post :=
  (Asks.all_ask ..).2 ⟨hq, fun r hr => (Asks.all_ret _).2 (hp r hr)⟩

/-! ## Arrays -/

theorem all_sp {post : Word → Prop} {i : Nat} (h : vm.SP + i < 1024) :
    (vm.sp i).All (rules c reverts) post ↔ post (vm.stack (vm.SP + i)) := by
  rw [sp, stackLimit, if_pos h, Asks.all_ret]

theorem all_sp_top {post : Word → Prop} (h : vm.SP < 1024) :
    (vm.sp 0).All (rules c reverts) post ↔ post (vm.stack vm.SP) := all_sp h

theorem all_set_sp {post : VM → Prop} {i : Nat} {w : Word} (h : vm.SP + i < 1024) :
    (vm.set_sp i w).All (rules c reverts) post ↔
      post (vm.setStack (vm.SP + i) w) := by
  rw [set_sp, stackLimit, if_pos h, Asks.all_ret]

theorem all_set_spp {post : VM → Prop} {w : Word} (h : vm.SPP < 1024) :
    (vm.set_spp w).All (rules c reverts) post ↔ post (vm.setStack vm.SPP w) := by
  rw [set_spp, stackLimit, if_pos h, Asks.all_ret]

theorem all_sps {post : List Word → Prop} {i n : Nat} (h : vm.SP + i + n ≤ 1024) (hp : ∀ ws, post ws) :
    (vm.sps i n).All (rules c reverts) post := by
  induction n generalizing i post with
  | zero => exact (Asks.all_ret _).2 (hp [])
  | succ n ih =>
    rw [sps, Asks.all_bind, all_sp (by omega), Asks.all_bind]
    exact ih (by omega) fun ws => (Asks.all_ret _).2 (hp _)

theorem all_load {post : Bytes → Prop} {b : Bytes} {offset n : Nat} (h : n = 0 ∨ offset + n ≤ b.length) :
    (load b offset n).All (rules c reverts) post ↔ post ((b.drop offset).take n) := by
  rw [load, if_pos h, Asks.all_ret]

/-- The memory after bytes were written. -/
def written (mem : Bytes) (offset : Nat) (b : Bytes) : Bytes :=
  mem.take offset ++ b ++ mem.drop (offset + b.length)

theorem length_written {mem b : Bytes} {offset : Nat} (h : b = [] ∨ offset + b.length ≤ mem.length) :
    (written mem offset b).length = mem.length := by
  simp only [written, List.length_append, List.length_take, List.length_drop]
  rcases h with rfl | h
  · simp
    omega
  · omega

theorem all_store {post : VM → Prop} {b : Bytes} {offset : Nat}
    (h : b = [] ∨ offset + b.length ≤ vm.mem.length) :
    (vm.store offset b).All (rules c reverts) post ↔ post (vm.setMem (written vm.mem offset b)) := by
  rw [store, if_pos h, Asks.all_ret]
  rfl

/-- The memory keeps its length. -/
theorem store_all {post : VM → Prop} {b : Bytes} {offset : Nat}
    (h : b = [] ∨ offset + b.length ≤ vm.mem.length)
    (hp : ∀ mem, mem.length = vm.mem.length → post (vm.setMem mem)) :
    (vm.store offset b).All (rules c reverts) post :=
  (all_store h).2 (hp _ (length_written h))

/-! ## Gas -/

/-- What a memory of a size has cost. -/
def memGas (size : Nat) : Nat := 3 * (size / 32) + size / 32 * (size / 32) / 512

theorem memGas_mono {a b : Nat} (h : a ≤ b) : memGas a ≤ memGas b := by
  have h32 : a / 32 ≤ b / 32 := Nat.div_le_div_right h
  have := Nat.div_le_div_right (c := 512) (Nat.mul_le_mul h32 h32)
  unfold memGas
  omega

theorem all_toInt63 {post : Nat → Prop} {v : Nat} :
    (toInt63 v).All (rules c reverts) post ↔ (v < 2 ^ 63 → post v) := by
  unfold toInt63
  split
  · exact iff_of_true ((Asks.all_stop _).2 trivial) fun h => by omega
  · exact (Asks.all_ret _).trans ⟨fun h _ => h, fun h => h (by omega)⟩

/-- Where an access of the memory ends. -/
def need (offset size : Word) : Nat := if size ≠ 0 then offset.toNat + size.toNat else 0

theorem all_memNeed {post : Nat → Prop} {offset size : Word} :
    (memNeed offset size).All (rules c reverts) post ↔ (need offset size < 2 ^ 63 → post (need offset size)) :=
  all_toInt63

theorem all_updateIOGas {post : VM → Prop} : (updateIOGas vm).All (rules c reverts) post ↔
    (vm.runGas ≤ vm.io_gas → post (vm.setGas (vm.io_gas - vm.runGas))) := by
  unfold updateIOGas
  split
  · exact iff_of_true ((Asks.all_stop _).2 trivial) fun h => by omega
  · exact (Asks.all_ret _).trans ⟨fun h _ => h, fun h => h (by omega)⟩

/-- The memory has grown by `k` bytes, and there is `runGas` to be paid. -/
@[simps! -fullyApplied] def grow (vm : VM) (runGas newMemSize k : Nat) : VM :=
  ((vm.setNewMemSize newMemSize).setRunGas runGas).setMem (vm.mem ++ List.replicate k 0)

/-- The words that hold `n` bytes. -/
def words (n : Nat) : Nat := (n + 31) / 32 * 32

/-- A memory that has grown by `k` bytes to hold `newMem`, and what is to be paid for it. -/
structure Grown (vm : VM) (newMem runGas k : Nat) : Prop where
  paid : vm.runGas + memGas (vm.mem.length + k) ≤ runGas + memGas vm.mem.length
  size : vm.mem.length + k = max vm.mem.length (words newMem)

section
variable {newMem runGas k : Nat}

theorem Grown.least (h : Grown vm newMem runGas k) : vm.runGas ≤ runGas := by
  have := h.paid
  have := memGas_mono (Nat.le_add_right vm.mem.length k)
  omega

theorem Grown.room (h : Grown vm newMem runGas k) : newMem ≤ vm.mem.length + k := by
  have := h.size
  unfold words at this
  omega

theorem Grown.words (h : Grown vm newMem runGas k) (hw : 32 ∣ vm.mem.length) : 32 ∣ vm.mem.length + k := by
  have := h.size
  unfold VM.words at this
  omega

end

theorem all_updateMem {post : VM → Prop} {newMem : Nat} (hnew : newMem < 2 ^ 63 + 32)
    (hcopy : vm.copyMemSize < 2 ^ 63) (hrun : vm.runGas + 3 * ((vm.copyMemSize + 31) / 32) ≤ 2 ^ 63)
    (hp : ∀ runGas n k, Grown vm newMem runGas k →
      post (vm.grow runGas n k)) :
    (updateMem vm newMem).All (rules c reverts) post := by
  have hsize : u64 (newMem + 31) = newMem + 31 := Nat.mod_eq_of_lt (by omega)
  have hcopy' : u64 (vm.copyMemSize + 31) = vm.copyMemSize + 31 := Nat.mod_eq_of_lt (by omega)
  -- no sum wraps: the growth is below 2 ^ 63 and the rest at most that
  have hsum : ∀ growth, growth < 2 ^ 63 →
      u64 (u64 (vm.runGas + growth) + copyGas * ((vm.copyMemSize + 31) / 32)) =
        vm.runGas + growth + 3 * ((vm.copyMemSize + 31) / 32) := by
    intro growth hg
    unfold u64 copyGas
    rw [Nat.mod_eq_of_lt (a := vm.runGas + growth) (by omega), Nat.mod_eq_of_lt (by omega)]
  have hgas : ∀ s, gasForMem s = toInt63 (memGas s) := fun s => rfl
  unfold updateMem updateGas growthGas
  simp only [Asks.all_bind, hsize, hcopy', Asks.all_ret, setNewMemSize_newMemSize, setNewMemSize_mem,
    setNewMemSize_runGas, setNewMemSize_copyMemSize, setNewMemSize_io_gas]
  have hsize : vm.mem.length + ((newMem + 31) / 32 * 32 - vm.mem.length) = max vm.mem.length (words newMem) := by
    unfold words
    omega
  split
  · next hlt =>
    simp only [Asks.all_bind, hgas, all_toInt63]
    intro hn ho
    have hmono := memGas_mono (Nat.le_of_lt hlt)
    have hsub : sub64 (memGas ((newMem + 31) / 32 * 32)) (memGas vm.mem.length) =
        memGas ((newMem + 31) / 32 * 32) - memGas vm.mem.length := by
      unfold sub64
      omega
    rw [hsub]
    intro hg
    rw [hsum _ hg]
    split
    · exact (Asks.all_stop _).2 trivial
    · refine (Asks.all_ret _).2 (hp _ ((newMem + 31) / 32 * 32) ((newMem + 31) / 32 * 32 - vm.mem.length) ⟨?_, hsize⟩)
      rw [Nat.add_sub_cancel' (Nat.le_of_lt hlt)]
      omega
  · next hge =>
    simp only [Asks.all_ret]
    rw [hsum 0 (by decide)]
    split
    · exact (Asks.all_stop _).2 trivial
    · refine (Asks.all_ret _).2 (hp _ ((newMem + 31) / 32 * 32) ((newMem + 31) / 32 * 32 - vm.mem.length) ⟨?_, hsize⟩)
      rw [Nat.sub_eq_zero_of_le (by omega), Nat.add_zero]
      omega

end Diode.L4.VM
