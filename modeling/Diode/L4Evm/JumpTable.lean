import Diode.Core.Strides
import Diode.L4Evm.Interpreter

/-!
# The table of jump destinations

`optimize` goes over the code once and skips what the pushes carry. `Boundary`
says where an instruction starts. The table holds, in order and once, the
boundaries with a `JUMPDEST`; the copy differs from the code only where a
synthetic instruction stood at a boundary, never in what a push carries.

* `verifyJumpDest_iff`: a jump goes through exactly when it is to a boundary
  with a `JUMPDEST`.
-/
namespace Diode.L4.VM
open Diode.Core

/-- Where the instruction at `p` ends. -/
def after (code : Bytes) (p : Nat) : Nat := p + pushBytes (code.getD p 0) + 1

/-- An instruction starts here, or the code has ended. -/
def Boundary (code : Bytes) : Nat → Prop := Reached (after code) code.length

theorem lt_after (code : Bytes) (p : Nat) : p < after code p := by
  unfold after
  omega

theorem pushBytes_le (op : UInt8) : pushBytes op ≤ 32 := by
  unfold pushBytes
  split
  · next h =>
    have := h.2
    rw [UInt8.le_iff_toNat_le] at this
    have h7 : (0x7F : UInt8).toNat = 127 := rfl
    omega
  · exact Nat.zero_le _

theorem Boundary.le {code : Bytes} {p : Nat} (h : Boundary code p) : p ≤ code.length + 32 := by
  have := Reached.lt_add (w := 33) (fun p => by have := pushBytes_le (code.getD p 0); unfold after; omega)
    (by decide) h
  omega

/-- The bytes only the optimiser may write. -/
def Synthetic (op : UInt8) : Prop := op = 0xAC ∨ op = 0xAD ∨ op = 0xAE

instance (op : UInt8) : Decidable (Synthetic op) := inferInstanceAs (Decidable (_ ∨ _))

theorem getD_copyCode (pCode : Bytes) (i : Nat) : (copyCode pCode 33).getD i 0 = pCode.getD i 0 := by
  simp only [copyCode, List.getD_eq_getElem?_getD]
  by_cases h : i < pCode.length
  · rw [List.getElem?_append_left h]
  · have hnone : pCode[i]? = none := List.getElem?_eq_none (by omega)
    rw [List.getElem?_append_right (by omega), hnone, List.getElem?_replicate]
    split <;> rfl

/-- What the scan has done when it is at `pc`. -/
structure Scanned (pCode : Bytes) (pc : Nat) (code : Bytes) (jumpDests : List Nat) : Prop where
  boundary : Boundary pCode pc
  length : code.length = pCode.length + 33
  ahead : ∀ i, pc ≤ i → code.getD i 0 = pCode.getD i 0
  cleaned : ∀ i, i < pc → Boundary pCode i → Synthetic (pCode.getD i 0) → code.getD i 0 = 0xAF
  kept : ∀ i, ¬(Boundary pCode i ∧ Synthetic (pCode.getD i 0)) → code.getD i 0 = pCode.getD i 0
  mem_iff : ∀ i, i ∈ jumpDests ↔ i < pc ∧ Boundary pCode i ∧ i < pCode.length ∧ pCode.getD i 0 = 0x5B
  sorted : jumpDests.Pairwise (· < ·)

section
variable {pCode code : Bytes} {pc : Nat} {jumpDests : List Nat}

theorem Scanned.start (pCode : Bytes) : Scanned pCode 0 (copyCode pCode 33) [] where
  boundary := .zero
  length := by simp [copyCode]
  ahead i _ := getD_copyCode pCode i
  cleaned i h := absurd h (Nat.not_lt_zero i)
  kept i _ := getD_copyCode pCode i
  mem_iff i := by simp
  sorted := .nil

/-- A round of the loop. -/
theorem Scanned.round (h : Scanned pCode pc code jumpDests) (hpc : pc < pCode.length) :
    Scanned pCode (after pCode pc)
      (if Synthetic (pCode.getD pc 0) then code.set pc 0xAF else code)
      (if pCode.getD pc 0 = 0x5B then jumpDests ++ [pc] else jumpDests) := by
  have hlt := lt_after pCode pc
  have hlen := h.length
  -- a boundary below the end of this instruction is this one or was met before
  have hback : ∀ i, Boundary pCode i → i < after pCode pc → i ≤ pc := fun i hi hlt =>
    Reached.le_of_lt_next (lt_after pCode) hi h.boundary hlt
  have hset : ∀ i, i ≠ pc →
      (if Synthetic (pCode.getD pc 0) then code.set pc 0xAF else code).getD i 0 = code.getD i 0 := by
    intro i hi
    split
    · simp [List.getD_eq_getElem?_getD, List.getElem?_set_ne (Ne.symm hi)]
    · rfl
  constructor
  case boundary => exact .step h.boundary hpc
  case length => split <;> simp [hlen]
  case ahead =>
    intro i hi
    rw [hset i (by omega), h.ahead i (by omega)]
  case cleaned =>
    intro i hi hb hs
    by_cases hip : i = pc
    · subst hip
      rw [if_pos hs, List.getD_eq_getElem?_getD, List.getElem?_set_self (by omega), Option.getD_some]
    · rw [hset i hip]
      have := hback i hb hi
      exact h.cleaned i (by omega) hb hs
  case kept =>
    intro i hi
    by_cases hip : i = pc
    · subst hip
      rw [if_neg fun hs => hi ⟨h.boundary, hs⟩, h.ahead i (Nat.le_refl i)]
    · rw [hset i hip, h.kept i hi]
  case mem_iff =>
    intro i
    have hold := h.mem_iff i
    have hne := fun (hb : Boundary pCode i) (hi : i < after pCode pc) => hback i hb hi
    split
    · next hop =>
      rw [List.mem_append, List.mem_singleton, hold]
      constructor
      · rintro (⟨hi, hr⟩ | rfl)
        · exact ⟨by omega, hr⟩
        · exact ⟨hlt, h.boundary, hpc, hop⟩
      · rintro ⟨hi, hb, hr⟩
        rcases Nat.lt_or_eq_of_le (hne hb hi) with hi | hi
        · exact .inl ⟨hi, hb, hr⟩
        · exact .inr hi
    · next hop =>
      rw [hold]
      constructor
      · rintro ⟨hi, hr⟩
        exact ⟨by omega, hr⟩
      · rintro ⟨hi, hb, hl, hd⟩
        rcases Nat.lt_or_eq_of_le (hne hb hi) with hi | rfl
        · exact ⟨hi, hb, hl, hd⟩
        · exact absurd hd hop
  case sorted =>
    split
    · refine List.pairwise_append.2 ⟨h.sorted, List.pairwise_singleton .., fun a ha b hb => ?_⟩
      rw [List.mem_singleton.1 hb]
      exact ((h.mem_iff a).1 ha).1
    · exact h.sorted

theorem scan_succ (fuel : Nat) (h : Scanned pCode pc code jumpDests) (hpc : pc < pCode.length) :
    scan pCode.length (fuel + 1) pc code jumpDests = scan pCode.length fuel (after pCode pc)
      (if Synthetic (pCode.getD pc 0) then code.set pc 0xAF else code)
      (if pCode.getD pc 0 = 0x5B then jumpDests ++ [pc] else jumpDests) := by
  rw [scan, if_pos hpc]
  simp only [h.ahead pc (Nat.le_refl pc)]
  split
  · next hop =>
    rw [after, hop]
    rfl
  · rfl

/-- The whole loop. -/
theorem Scanned.scan (fuel : Nat) (h : Scanned pCode pc code jumpDests) (hfuel : pCode.length ≤ pc + fuel) :
    ∃ pc', pCode.length ≤ pc' ∧
      Scanned pCode pc' (scan pCode.length fuel pc code jumpDests).1 (scan pCode.length fuel pc code jumpDests).2 := by
  induction fuel generalizing pc code jumpDests with
  | zero => exact ⟨pc, hfuel, h⟩
  | succ fuel ih =>
    by_cases hpc : pc < pCode.length
    · rw [scan_succ fuel h hpc]
      have := lt_after pCode pc
      exact ih (h.round hpc) (by omega)
    · rw [VM.scan, if_neg hpc]
      exact ⟨pc, by omega, h⟩

end

/-! ## What comes out -/

/-- The table and the copy, as the interpreter finds them. -/
structure Optimized (pCode code : Bytes) (jumpDests : List Nat) : Prop where
  length : code.length = pCode.length + 33
  cleaned : ∀ i, Boundary pCode i → Synthetic (pCode.getD i 0) → code.getD i 0 = 0xAF
  kept : ∀ i, ¬(Boundary pCode i ∧ Synthetic (pCode.getD i 0)) → code.getD i 0 = pCode.getD i 0
  mem_iff : ∀ i, i ∈ jumpDests ↔ Boundary pCode i ∧ i < pCode.length ∧ pCode.getD i 0 = 0x5B
  sorted : jumpDests.Pairwise (· < ·)

theorem optimized (pCode : Bytes) : Optimized pCode (optimize pCode).1 (optimize pCode).2 := by
  obtain ⟨pc, hpc, h⟩ := (Scanned.start pCode).scan pCode.length (Nat.le_of_eq (Nat.zero_add _).symm)
  have hpast : ∀ i, Synthetic (pCode.getD i 0) → i < pc := by
    intro i hi
    by_contra hc
    rw [List.getD_eq_getElem?_getD, List.getElem?_eq_none (by omega)] at hi
    revert hi
    decide
  exact ⟨h.length, fun i hb hs => h.cleaned i (hpast i hs) hb hs, h.kept,
    fun i => (h.mem_iff i).trans ⟨And.right, fun hi => ⟨by have := hi.2.1; omega, hi⟩⟩, h.sorted⟩

/-- **A jump goes through** exactly when an instruction starts at its destination, in the code, and it
is a `JUMPDEST`. -/
theorem verifyJumpDest_iff (rev : Revision) (message : EvmcMessage) (tx : TxContext) (pCode : Bytes)
    (keccak256 : Bytes → Word) (dest : Word) :
    verifyJumpDest (.new rev message tx pCode keccak256) dest = .ret dest.toNat ↔
      dest.toNat < 2 ^ 63 ∧ Boundary pCode dest.toNat ∧ dest.toNat < pCode.length ∧
        pCode.getD dest.toNat 0 = 0x5B := by
  have hmem : dest.toNat ∈ (Context.new rev message tx pCode keccak256).jumpDests ↔ _ :=
    (optimized pCode).mem_iff dest.toNat
  unfold verifyJumpDest
  constructor
  · intro h
    split at h
    · next hd => exact ⟨by omega, hmem.1 hd.2⟩
    · cases h
  · rintro ⟨hlt, hd⟩
    rw [if_pos ⟨by omega, hmem.2 hd⟩]

end Diode.L4.VM
