import Diode.Core.Bytes

/-!
# Block trees

A block names its parent by hash, so a block is here what its hash commits to:
its parent, its miner and the rest of its header. A block tree is a set of
blocks with one root; two blocks of it are ordered by `Anc`.
-/
namespace Diode.L5
open Diode.Core

/-- `miner` is the public key recovered from the header's signature; `salt` is
the rest of the header, which tells siblings of one miner apart. -/
inductive Block where
  | genesis (miner : Bytes)
  | child (parent : Block) (miner salt : Bytes)
  deriving DecidableEq

namespace Block

def number : Block → Nat
  | genesis _ => 0
  | child p _ _ => p.number + 1

/-- mirrors lib/chain/block.ex:905-914 -/
def miner_pubkey : Block → Bytes
  | genesis m => m
  | child _ m _ => m

/-- The miners from the block back to the root. -/
def miners : Block → List Bytes
  | genesis m => [m]
  | child p m _ => m :: p.miners

/-- `a.Anc b`: `a` is `b` or an ancestor of `b`. -/
def Anc (a : Block) : Block → Prop
  | genesis m => a = genesis m
  | child p m s => a = child p m s ∨ a.Anc p

instance decAnc (a : Block) : ∀ b, Decidable (a.Anc b)
  | genesis m => inferInstanceAs (Decidable (a = genesis m))
  | child p m s => @instDecidableOr (a = child p m s) (a.Anc p) _ (decAnc a p)

variable {a b c : Block}

theorem Anc.refl : ∀ a : Block, a.Anc a
  | genesis _ => rfl
  | child _ _ _ => .inl rfl

theorem Anc.parent {p : Block} {m s : Bytes} : p.Anc (child p m s) := .inr (Anc.refl p)

theorem Anc.trans (h : a.Anc b) : ∀ {c : Block}, b.Anc c → a.Anc c
  | genesis _, hc => by
    unfold Anc at hc
    exact hc ▸ h
  | child p m s, hc => by
    rcases hc with rfl | hc
    · exact h
    · exact .inr (h.trans hc)

theorem Anc.number_le : ∀ {b : Block}, a.Anc b → a.number ≤ b.number
  | genesis _, h => by
    unfold Anc at h
    exact h ▸ Nat.le_refl _
  | child p m s, h => by
    rcases h with rfl | h
    · exact Nat.le_refl _
    · exact Nat.le_succ_of_le h.number_le

/-- The ancestors of a block form a line. -/
theorem Anc.linear : ∀ {c : Block}, a.Anc c → b.Anc c → a.Anc b ∨ b.Anc a
  | genesis _, ha, hb => by
    unfold Anc at ha hb
    rw [ha, hb]
    exact .inl (Anc.refl _)
  | child p m s, ha, hb => by
    rcases ha with rfl | ha
    · exact .inr hb
    · rcases hb with rfl | hb
      · exact .inl (.inr ha)
      · exact ha.linear hb

theorem Anc.eq_of_number (h : a.Anc b) (hn : b.number ≤ a.number) : a = b := by
  cases b with
  | genesis m => exact h
  | child p m s =>
    rcases h with h | h
    · exact h
    · have h1 := h.number_le
      have h2 : p.number + 1 ≤ a.number := hn
      omega

theorem Anc.antisymm (h : a.Anc b) (h' : b.Anc a) : a = b := h.eq_of_number h'.number_le

/-- Two blocks with a common ancestor have a last one. -/
theorem exists_fork {T : Block} : ∀ {a b : Block}, T.Anc a → T.Anc b →
    ∃ P : Block, P.Anc a ∧ P.Anc b ∧ ∀ x : Block, x.Anc a → x.Anc b → x.Anc P
  | genesis m, b, ha, hb => ⟨T, ha, hb, fun x hx _ => by
      unfold Anc at ha hx
      rw [ha, hx]
      exact Anc.refl _⟩
  | child p m s, b, ha, hb => by
    by_cases hab : (child p m s).Anc b
    · exact ⟨child p m s, Anc.refl _, hab, fun x hx _ => hx⟩
    · have hp : T.Anc p := by
        rcases ha with rfl | ha
        · exact absurd hb hab
        · exact ha
      obtain ⟨P, h1, h2, h3⟩ := exists_fork hp hb
      refine ⟨P, .inr h1, h2, fun x hx hxb => ?_⟩
      rcases hx with rfl | hx
      · exact absurd hxb hab
      · exact h3 x hx hxb

/-- The last `k` miners are those of the last `k` blocks. -/
theorem mem_take_miners {m : Bytes} : ∀ {b : Block} {k : Nat},
    m ∈ b.miners.take k ↔ ∃ x : Block, x.Anc b ∧ b.number < x.number + k ∧ x.miner_pubkey = m
  | b, 0 => by
    simp only [List.take_zero, List.not_mem_nil, Nat.add_zero, false_iff, not_exists]
    intro x h
    obtain ⟨hx, hlt, -⟩ := h
    exact absurd hlt (Nat.not_lt.2 hx.number_le)
  | genesis n, k + 1 => by
    simp only [miners, List.take_succ_cons, List.take_nil, List.mem_singleton]
    refine ⟨?_, ?_⟩
    · rintro rfl
      exact ⟨genesis m, rfl, by simp [number], rfl⟩
    · intro h
      obtain ⟨x, hx, -, hm⟩ := h
      unfold Anc at hx
      rw [hx] at hm
      exact hm.symm
  | child p n s, k + 1 => by
    rw [miners, List.take_succ_cons, List.mem_cons, mem_take_miners]
    refine ⟨?_, ?_⟩
    · rintro (rfl | ⟨x, hx, hlt, hm⟩)
      · exact ⟨child p m s, Anc.refl _, by omega, rfl⟩
      · refine ⟨x, .inr hx, ?_, hm⟩
        show p.number + 1 < x.number + (k + 1)
        omega
    · intro h
      obtain ⟨x, hx, hlt, hm⟩ := h
      rcases hx with rfl | hx
      · exact .inl hm.symm
      · refine .inr ⟨x, hx, ?_, hm⟩
        have : p.number + 1 < x.number + (k + 1) := hlt
        omega

theorem miners_length : ∀ b : Block, b.miners.length = b.number + 1
  | genesis _ => rfl
  | child p _ _ => by rw [miners, List.length_cons, miners_length p, number]

/-! ## The ancestor at a height -/

def parent : Block → Option Block
  | genesis _ => none
  | child p _ _ => some p

/-- The block of number `n` on the line that ends in `b`. -/
def ancestor : Block → Nat → Option Block
  | genesis m, n => if n = 0 then some (genesis m) else none
  | child p m s, n => if n = p.number + 1 then some (child p m s) else p.ancestor n

theorem ancestor_eq_some {n : Nat} : ∀ {b : Block}, b.ancestor n = some a ↔ a.Anc b ∧ a.number = n
  | genesis m => by
    simp only [ancestor, Option.ite_none_right_eq_some, Option.some.injEq]
    refine ⟨?_, ?_⟩
    · intro hx
      obtain ⟨rfl, rfl⟩ := hx
      exact ⟨rfl, rfl⟩
    · intro hx
      obtain ⟨rfl, rfl⟩ := hx
      exact ⟨rfl, rfl⟩
  | child p m s => by
    unfold ancestor
    split
    case isTrue h =>
      rw [Option.some.injEq]
      refine ⟨?_, ?_⟩
      · rintro rfl
        exact ⟨Anc.refl _, h.symm⟩
      · intro hx
        obtain ⟨ha, hn⟩ := hx
        have hle : (child p m s).number ≤ a.number := by
          rw [hn, h]
          exact Nat.le_refl _
        exact (ha.eq_of_number hle).symm
    case isFalse h =>
      rw [ancestor_eq_some]
      refine ⟨?_, ?_⟩
      · intro hx
        obtain ⟨ha, hn⟩ := hx
        exact ⟨.inr ha, hn⟩
      · rintro ⟨rfl | ha, hn⟩
        · exact absurd hn.symm h
        · exact ⟨ha, hn⟩

theorem ancestor_number (b : Block) : b.ancestor b.number = some b :=
  ancestor_eq_some.2 ⟨Anc.refl b, rfl⟩

theorem ancestor_above {n : Nat} (h : b.number < n) : b.ancestor n = none := by
  cases hb : b.ancestor n with
  | none => rfl
  | some a =>
    obtain ⟨ha, hn⟩ := ancestor_eq_some.1 hb
    have := ha.number_le
    omega

theorem exists_ancestor {n : Nat} : ∀ {b : Block}, n ≤ b.number → ∃ a, b.ancestor n = some a
  | genesis m, h => ⟨genesis m, if_pos (Nat.le_zero.1 h)⟩
  | child p m s, h => by
    unfold ancestor
    split
    case isTrue => exact ⟨_, rfl⟩
    case isFalse hn =>
      have h1 : n ≤ p.number + 1 := h
      exact exists_ancestor (by omega)

/-- Below a block of a line the line is the block's own. -/
theorem Anc.ancestor_eq {n : Nat} (h : a.Anc b) (hn : n ≤ a.number) :
    b.ancestor n = a.ancestor n := by
  obtain ⟨x, hx⟩ := exists_ancestor hn
  obtain ⟨hxa, hxn⟩ := ancestor_eq_some.1 hx
  rw [hx]
  exact ancestor_eq_some.2 ⟨hxa.trans h, hxn⟩

theorem anc_of_parent (h : b.parent = some a) : a.Anc b := by
  cases b with
  | genesis _ => cases h
  | child p m s =>
    cases h
    exact Anc.parent

theorem number_of_parent (h : b.parent = some a) : b.number = a.number + 1 := by
  cases b with
  | genesis _ => cases h
  | child p m s =>
    cases h
    rfl

end Block
end Diode.L5
