import Diode.L5Chain.Finality

/-!
# The threshold of finality

What `last_final` decides against what it is for. The window of the previous
final block `F` weighs the miners of the gap, each counted once; a block that
more than half of the weight stands behind is final. `outweighs` compares
before it adds, so the oldest entry of the gap is never heard.

* `decides_iff`: a block is decided as it should be exactly when the threshold
  is not crossed by the oldest entry of its gap.
-/
namespace Diode.L5.Block
open Diode.Core

/-- The last `gap` entries of the window of `b`, newest first. -/
def gap_miners (F b : Block) : List Bytes := b.blockquick_window.reverse.take (b.number - F.number)

/-- More than half of the window of `F` stands behind the miners, each counted once. -/
def Outweighs (F : Block) (miners : List Bytes) : Prop := window_size / 2 < ∑ m ∈ miners.toFinset, F.weight m

/-- `last_final` as it is meant: the block itself if the miners since the final
block `F` before it outweigh, else `F`. -/
structure Decides (F b : Block) : Prop where
  final : b.last_final = b ↔ Outweighs F (gap_miners F b)
  prev : ¬Outweighs F (gap_miners F b) → b.last_final = F

variable {F p : Block} {m s : Bytes}

theorem Outweighs.mono {l k : List Bytes} (h : Outweighs F l) (hs : l ⊆ k) : Outweighs F k := by
  refine Nat.lt_of_lt_of_le h (Finset.sum_le_sum_of_subset fun x hx => ?_)
  rw [List.mem_toFinset] at hx ⊢
  exact hs hx

/-- The block on top of `p` is not the final block before it. -/
theorem ne_last_final (p : Block) (m s : Bytes) : p.last_final ≠ child p m s := by
  intro h
  have hle := (last_final_max p).1.number_le
  rw [h] at hle
  exact absurd hle (Nat.not_le.2 (Nat.lt_succ_self _))

theorem gap_miners_ne_nil (p : Block) (m s : Bytes) : gap_miners p.last_final (child p m s) ≠ [] := by
  have hle := (last_final_max p).1.number_le
  have hn : (child p m s).number = p.number + 1 := rfl
  have hlen := window_length (child p m s)
  intro h
  have h0 := congrArg List.length h
  rw [gap_miners, List.length_take, List.length_reverse, hlen, List.length_nil] at h0
  omega

/-- What the loop decides: the gap without its oldest entry has to outweigh. -/
theorem final_iff (p : Block) (m s : Bytes) :
    (child p m s).last_final = child p m s ↔ Outweighs p.last_final
      (gap_miners p.last_final (child p m s)).dropLast := by
  have ho := @outweighs_iff _ _ (scores_get (b := p.last_final)) (window_size / 2)
    (gap_miners p.last_final (child p m s)) .empty (by simp)
  have hsum : outweighs p.last_final.blockquick_scores (window_size / 2)
    (gap_miners p.last_final (child p m s)) .empty = true ↔
      Outweighs p.last_final (gap_miners p.last_final (child p m s)).dropLast := by
    rw [ho]
    simp [SMap.empty, Outweighs, gap_miners_ne_nil]
  rw [last_final, ← hsum]
  unfold gap_miners
  split
  · rename_i hw
    exact iff_of_true rfl hw
  · rename_i hw
    exact iff_of_false (ne_last_final p m s) hw

/-- The first block after a final one is not final, whoever mined it. -/
theorem first_not_final (h : p.last_final = p) : (child p m s).last_final = p := by
  have h1 : (gap_miners p.last_final (child p m s)).length ≤ 1 := by
    have hn : (child p m s).number = p.number + 1 := rfl
    rw [gap_miners, List.length_take, h, hn]
    omega
  have hnil : (gap_miners p.last_final (child p m s)).dropLast = [] := by
    rw [List.dropLast_eq_take, List.take_eq_nil_iff]
    exact .inl (by omega)
  refine ((last_final_cases p m s).resolve_right fun he => ?_).trans h
  have ho := (final_iff p m s).1 he
  rw [hnil] at ho
  exact absurd ho (by simp [Outweighs])

/-- **The oldest entry is not heard.** The block on top of `p` is decided as it
should be exactly when the gap outweighs without its oldest entry if it
outweighs at all. -/
theorem decides_iff (p : Block) (m s : Bytes) :
    Decides p.last_final (child p m s) ↔
      (Outweighs p.last_final (gap_miners p.last_final (child p m s)) →
        Outweighs p.last_final (gap_miners p.last_final (child p m s)).dropLast) := by
  have hf := final_iff p m s
  refine ⟨?_, ?_⟩
  · intro h ho
    exact hf.1 (h.final.2 ho)
  · intro h
    refine ⟨⟨fun he => (hf.1 he).mono (List.dropLast_subset _), fun ho => hf.2 (h ho)⟩, fun ho => ?_⟩
    refine (last_final_cases p m s).resolve_right fun he => ho ?_
    exact (hf.1 he).mono (List.dropLast_subset _)

/-- The second block: two miners of weight 34 and 33 stand behind it, and the
genesis block stays the final one. -/
theorem second_block_not_final :
    (trunk 2).number - (trunk 1).last_final.number ≤ 100 ∧ Outweighs (trunk 1).last_final
      (gap_miners (trunk 1).last_final (trunk 2)) ∧
      (trunk 2).last_final = genesis [] ∧ ¬Decides (trunk 1).last_final (trunk 2) := by
  have ho : Outweighs (trunk 1).last_final (gap_miners (trunk 1).last_final (trunk 2)) := by
    unfold Outweighs
    decide +kernel
  have hl : (trunk 2).last_final = genesis [] := by decide +kernel
  refine ⟨by decide +kernel, ho, hl, fun h => ?_⟩
  have he := h.final.2 ho
  rw [hl] at he
  cases he

end Diode.L5.Block
