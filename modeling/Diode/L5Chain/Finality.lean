import Diode.Core.Quorum
import Diode.Core.SMap
import Diode.L5Chain.BlockTree

/-!
# BlockQuick finality

A block is final when the miners of the blocks since the previous final block,
each counted once, have more than half of that block's window of 100.

* `last_final_max`: `last_final` is the highest final block of a branch.
* `finality_accountable`: two final blocks on different branches convict a miner
  of positive weight, unless the miners of the blocks both branches share after
  the last common final block weigh 2 or more.
-/
namespace Diode.L5
open Diode.Core Block

/-- mirrors lib/chain.ex:57-59 -/
def window_size : Nat := 100

/-- The keys of the static window, blocks 0 to 100.
mirrors lib/chain/block.ex:804-816 -/
def staticWindow : List Bytes :=
  ((List.replicate 34 [
    [3, 148, 23, 91, 79, 138, 28, 245, 73, 136, 199, 215, 247, 142, 240, 133, 137, 173, 14,
      210, 218, 55, 250, 211, 79, 43, 122, 202, 182, 93, 96, 110, 70],
    [3, 109, 85, 243, 145, 33, 204, 3, 12, 2, 124, 186, 34, 192, 20, 132, 64, 56, 9, 228, 124,
      166, 99, 6, 3, 93, 238, 1, 221, 114, 3, 23, 12],
    [2, 16, 7, 173, 199, 233, 211, 63, 236, 90, 171, 49, 248, 131, 41, 48, 193, 96, 27, 100,
      154, 108, 160, 134, 72, 154, 69, 198, 231, 107, 60, 184, 50]]).flatten).take 100

namespace Block

/-- The miners of the last 100 blocks, oldest first, as the parent links in the
database give them.
mirrors lib/model/chainsql.ex:499-513 -/
def query_blockquick_window (b : Block) : List Bytes := (b.miners.take window_size).reverse

/-- mirrors lib/chain/block.ex:804-827 -/
def blockquick_window (b : Block) : List Bytes :=
  if b.number ≤ 100 then staticWindow
  else match b with
    | genesis _ => staticWindow
    | child p m _ => (query_blockquick_window p).tail ++ [m]

/-- mirrors lib/chain/block.ex:829-834 -/
def blockquick_scores (b : Block) : SMap Bytes Nat := SMap.tally b.blockquick_window

/-- The `Enum.reduce_while` of `last_final`; the sum is compared before the next
miner is added, so the oldest miner of the gap never counts.
mirrors lib/chain/block.ex:880-887 -/
def outweighs (window : SMap Bytes Nat) (threshold : Nat) : List Bytes → SMap Bytes Nat → Bool
  | [], _ => false
  | miner :: miners, scores =>
    if threshold < (scores.entries.map Prod.snd).sum then true
    else outweighs window threshold miners (scores.put miner ((window.get miner).getD 0))

/-- mirrors lib/chain/block.ex:863-891 -/
def last_final : Block → Block
  | genesis m => genesis m
  | child p m s =>
    let block := child p m s
    let prev_final := last_final p
    let gap := block.number - prev_final.number
    let miners := block.blockquick_window.reverse.take gap
    if outweighs prev_final.blockquick_scores (window_size / 2) miners .empty then block else prev_final

/-- A block that is declared final. -/
def Final (b : Block) : Prop := b.last_final = b

instance (b : Block) : Decidable b.Final := inferInstanceAs (Decidable (b.last_final = b))

/-- The weight of a miner in the window of `b`. -/
def weight (b : Block) (m : Bytes) : Nat := b.blockquick_window.count m

variable {a b c F P : Block}

/-! ## Windows -/

theorem staticWindow_length : staticWindow.length = 100 := by decide

/-- Above block 100 the window holds the miners of the last 100 blocks. -/
theorem window_reverse (h : 100 < b.number) : b.blockquick_window.reverse = b.miners.take
    window_size := by
  cases b with
  | genesis m => cases h
  | child p m s =>
    have hn : ¬(child p m s).number ≤ 100 := Nat.not_le.2 h
    unfold blockquick_window
    rw [if_neg hn]
    have hp : 100 ≤ p.number := Nat.le_of_lt_succ h
    have hlen : window_size < p.miners.length := by
      rw [miners_length]
      exact Nat.lt_succ_of_le hp
    dsimp only
    rw [query_blockquick_window, List.tail_reverse, List.dropLast_take hlen, List.reverse_append,
      List.reverse_reverse,
      List.reverse_singleton, List.singleton_append, miners]
    rfl

theorem window_length (b : Block) : b.blockquick_window.length = 100 := by
  by_cases h : b.number ≤ 100
  · unfold blockquick_window
    rw [if_pos h, staticWindow_length]
  · rw [← List.length_reverse, window_reverse (Nat.not_le.1 h), List.length_take, miners_length]
    unfold window_size
    omega

/-- The scores of a block are the weights in its window. -/
theorem scores_get (m : Bytes) : (b.blockquick_scores.get m).getD 0 = b.weight m := SMap.getD_tally _ m

theorem weight_le (b : Block) (s : Finset Bytes) : ∑ m ∈ s, b.weight m ≤ 100 := by
  rw [← window_length b]
  exact Quorum.sum_count_le b.blockquick_window s

/-! ## The rule -/

/-- A map of weights adds up to the weight of its keys. -/
theorem sum_scores {w : Bytes → Nat} {scores : SMap Bytes Nat}
    (h : ∀ m v, scores.get m = some v → v = w m) :
    (scores.entries.map Prod.snd).sum = ∑ m ∈ (scores.entries.map Prod.fst).toFinset, w m := by
  rw [List.sum_toFinset w scores.keys_nodup, List.map_map]
  congr 1
  refine List.map_congr_left fun p hp => ?_
  exact h p.1 p.2 ((scores.mem_iff p.1 p.2).1 hp)

theorem keys_put (scores : SMap Bytes Nat) (x : Bytes) (v : Nat) :
    ((scores.put x v).entries.map Prod.fst).toFinset = insert x
      (scores.entries.map Prod.fst).toFinset := by
  ext m
  simp only [Finset.mem_insert, List.mem_toFinset, List.mem_map, Prod.exists, exists_and_right,
    exists_eq_right, SMap.mem_iff]
  by_cases h : x = m
  · simp [h]
  · simp [SMap.get_put_ne _ _ h, Ne.symm h]

/-- The sum outweighs when the miners before the last one do: each comparison
comes before the next miner is added, and none comes after the last. -/
theorem outweighs_iff {window : SMap Bytes Nat} {w : Bytes → Nat}
    (hw : ∀ m, (window.get m).getD 0 = w m) {threshold : Nat} :
    ∀ {miners : List Bytes} {scores : SMap Bytes Nat}, (∀ m v, scores.get m = some v → v = w m) →
      (outweighs window threshold miners scores = true ↔
        miners ≠ [] ∧ threshold < ∑ m ∈ (scores.entries.map Prod.fst).toFinset ∪
          miners.dropLast.toFinset, w m)
  | [], _, _ => by simp [outweighs]
  | x :: miners, scores, h => by
    have hput : ∀ m v, (scores.put x ((window.get x).getD 0)).get m = some v → v = w m := by
      intro m v hm
      rw [SMap.get_put] at hm
      split at hm
      · rename_i e
        cases hm
        rw [← e, hw]
      · exact h m v hm
    rw [outweighs, sum_scores h]
    by_cases hlt : threshold < ∑ m ∈ (scores.entries.map Prod.fst).toFinset, w m
    · rw [if_pos hlt]
      refine iff_of_true rfl ⟨List.cons_ne_nil _ _, hlt.trans_le ?_⟩
      exact Finset.sum_le_sum_of_subset Finset.subset_union_left
    · rw [if_neg hlt, outweighs_iff hw hput, keys_put]
      cases miners with
      | nil => simpa using hlt
      | cons y miners => simp [Finset.insert_union]

/-- What outweighs is among the miners gone through. -/
theorem outweighs_sum {window : SMap Bytes Nat} {w : Bytes → Nat}
    (hw : ∀ m, (window.get m).getD 0 = w m) {threshold : Nat}
    {miners : List Bytes} {scores : SMap Bytes Nat} (h : ∀ m v, scores.get m = some v → v = w m)
    (ho : outweighs window threshold miners scores = true) :
    threshold < ∑ m ∈ (scores.entries.map Prod.fst).toFinset ∪ miners.toFinset, w m := by
  refine ((outweighs_iff hw h).1 ho).2.trans_le (Finset.sum_le_sum_of_subset ?_)
  refine Finset.union_subset_union_right fun m hm => ?_
  rw [List.mem_toFinset] at hm ⊢
  exact List.dropLast_subset _ hm

/-- `last_final` gives the block itself or goes on to its parent. -/
theorem last_final_cases (p : Block) (m s : Bytes) :
    (child p m s).last_final = p.last_final ∨ (child p m s).Final := by
  unfold Final
  rw [last_final]
  split
  · exact .inr rfl
  · exact .inl rfl

/-- `last_final` is the highest final block of the branch. -/
theorem last_final_max : ∀ b : Block, b.last_final.Anc b ∧ b.last_final.Final ∧ ∀ a :
    Block, a.Anc b → a.Final → a.Anc b.last_final
  | genesis m => ⟨rfl, rfl, fun a ha _ => ha⟩
  | child p m s => by
    obtain ⟨h1, h2, h3⟩ := last_final_max p
    by_cases hf : (child p m s).Final
    · have he : (child p m s).last_final = child p m s := hf
      rw [he]
      exact ⟨Anc.refl _, hf, fun a ha _ => ha⟩
    · have he := (last_final_cases p m s).resolve_right hf
      rw [he]
      refine ⟨.inr h1, h2, fun a ha hfa => ?_⟩
      rcases ha with rfl | ha
      · exact absurd hfa hf
      · exact h3 a ha hfa

/-- The miners since the previous final block outweigh half of its window. -/
theorem Final.quorum {p : Block} {m s : Bytes} (h : (child p m s).Final) (hn : 100 ≤ p.number) :
    50 < ∑ x ∈ (((child p m s).miners.take window_size).take
      ((child p m s).number - p.last_final.number)).toFinset,
      p.last_final.weight x := by
  have hlt : 100 < (child p m s).number := Nat.lt_succ_of_le hn
  unfold Final at h
  rw [last_final] at h
  split at h
  · rename_i ho
    have := outweighs_sum (scores_get (b := p.last_final)) (by simp) ho
    rw [window_reverse hlt] at this
    simpa [SMap.empty, window_size] using this
  · have := (last_final_max p).1.number_le
    rw [h] at this
    exact absurd this (Nat.not_le.2 (Nat.lt_succ_self _))

/-! ## Accountability -/

/-- The first final block after `P` on a branch follows the last final block before `P`. -/
theorem exists_next_final {P : Block} : ∀ {n : Nat} {a : Block}, a.number ≤ n → P.Anc a →
    P ≠ a → a.Final →
    ∃ q m s, (child q m s).Anc a ∧ (child q m s).Final ∧ P.Anc q ∧ q.last_final = P.last_final
  | n, genesis m, _, hP, hne, _ => absurd hP hne
  | 0, child q m s, hn, _, _, _ => absurd hn (Nat.not_succ_le_zero _)
  | n + 1, child q m s, hn, hP, hne, hf => by
    have hPq : P.Anc q := by
      rcases hP with rfl | hP
      · exact absurd rfl hne
      · exact hP
    by_cases he : q.last_final = P.last_final
    · exact ⟨q, m, s, Anc.refl _, hf, hPq, he⟩
    obtain ⟨h1, h2, h3⟩ := last_final_max q
    obtain ⟨hP1, hP2, hP3⟩ := last_final_max P
    -- another final block lies between
    have hnot : ¬q.last_final.Anc P := fun h => he ((hP3 _ h h2).antisymm (h3 _ (hP1.trans hPq) hP2))
    have hPG : P.Anc q.last_final := by
      rcases hPq.linear h1 with h | h
      · exact h
      · exact absurd h hnot
    have hneG : P ≠ q.last_final := fun e => hnot (e ▸ Anc.refl _)
    have hlen : q.last_final.number ≤ n := h1.number_le.trans (Nat.le_of_succ_le_succ hn)
    obtain ⟨q', m', s', h4, h5, h6, h7⟩ := exists_next_final hlen hPG hneG h2
    exact ⟨q', m', s', .inr (h4.trans h1), h5, h6, h7⟩

/-- The quorum of a final block: miners of blocks shared with the other branch,
and miners of blocks past the fork. -/
theorem exists_quorum {P a : Block} (hP : 100 ≤ P.number) (ha : P.Anc a) (hne : P ≠ a) (hf : a.Final) :
    ∃ S U : Finset Bytes, 50 < ∑ x ∈ S, P.last_final.weight x ∧
      S ⊆ (P.miners.take (P.number - P.last_final.number)).toFinset ∪ U ∧
      ∀ m ∈ U, ∃ x : Block, x.Anc a ∧ ¬x.Anc P ∧ x.miner_pubkey = m := by
  obtain ⟨q, m, s, hqa, hqf, hPq, hlast⟩ := exists_next_final (le_refl _) ha hne hf
  have hsum := hqf.quorum (hP.trans hPq.number_le)
  rw [hlast, List.take_take] at hsum
  have hPc : P.Anc (child q m s) := .inr hPq
  have hle := hPc.number_le
  refine ⟨_, ((child q m s).miners.take ((child q m s).number - P.number)).toFinset, hsum,
    fun y hy => ?_, fun y hy => ?_⟩
  · rw [List.mem_toFinset, mem_take_miners] at hy
    obtain ⟨x, hx, hlt, rfl⟩ := hy
    rw [Finset.mem_union, List.mem_toFinset, List.mem_toFinset, mem_take_miners, mem_take_miners]
    rcases hx.linear hPc with h | h
    · have := h.number_le
      exact .inl ⟨x, h, by omega, rfl⟩
    · rcases Nat.lt_or_ge P.number x.number with hn | hn
      · exact .inr ⟨x, hx, by omega, rfl⟩
      · obtain rfl := h.eq_of_number hn
        exact .inl ⟨P, Anc.refl _, by omega, rfl⟩
  · rw [List.mem_toFinset, mem_take_miners] at hy
    obtain ⟨x, hx, hlt, rfl⟩ := hy
    refine ⟨x, hx.trans hqa, fun h => ?_, rfl⟩
    have := h.number_le
    omega

/-- `F` is the last final block on both branches. -/
structure LastCommonFinal (F a b : Block) : Prop where
  final : F.Final
  left : F.Anc a
  right : F.Anc b
  last : ∀ G : Block, G.Final → G.Anc a → G.Anc b → G.Anc F

/-- A miner of the window of `F` mined a block on each branch, neither of them
an ancestor of the other. -/
def DoubleMined (F a b : Block) : Prop :=
  ∃ x y : Block, x.Anc a ∧ y.Anc b ∧ ¬x.Anc y ∧ ¬y.Anc x ∧ x.miner_pubkey = y.miner_pubkey ∧
    0 < F.weight x.miner_pubkey

/-- The last block on both branches. -/
structure Fork (P a b : Block) : Prop where
  left : P.Anc a
  right : P.Anc b
  last : ∀ x : Block, x.Anc a → x.Anc b → x.Anc P

/-- The weight in the window of `F` of the miners of the blocks after `F` up to `P`. -/
def gapWeight (F P : Block) : Nat := ∑ m ∈ (P.miners.take (P.number - F.number)).toFinset, F.weight m

/-- **Accountable finality.** Of two final blocks on different branches above
block 100, some miner of the window of their last common final block has mined
conflicting blocks, or the miners of the blocks both branches share after it
weigh at least 2. -/
theorem finality_accountable {T a b : Block} (hT : 100 ≤ T.number) (hTa : T.Anc a)
    (hTb : T.Anc b) (ha : a.Final)
    (hb : b.Final) (hab : ¬a.Anc b) (hba : ¬b.Anc a) :
    ∃ F P : Block, LastCommonFinal F a b ∧ Fork P a b ∧ (DoubleMined F a b ∨ 2 ≤ gapWeight F P) := by
  obtain ⟨P, hPa, hPb, hlast⟩ := exists_fork hTa hTb
  have hP : 100 ≤ P.number := hT.trans (hlast T hTa hTb).number_le
  obtain ⟨h1, h2, h3⟩ := last_final_max P
  refine ⟨P.last_final, P, ⟨h2, h1.trans hPa, h1.trans hPb, fun G hG hGa hGb => h3 G (hlast G hGa hGb) hG⟩,
    ⟨hPa, hPb, hlast⟩, ?_⟩
  obtain ⟨S, U, hS, hc, hU⟩ := exists_quorum hP hPa (fun e => hab (e ▸ hPb)) ha
  obtain ⟨S', U', hS', hc', hU'⟩ := exists_quorum hP hPb (fun e => hba (e ▸ hPa)) hb
  by_cases hd : DoubleMined P.last_final a b
  · exact .inl hd
  right
  have := Quorum.common_weight (weight_le P.last_final) hS hS' hc hc' fun m hm hm' => by
    obtain ⟨x, hx, hxP, rfl⟩ := hU m hm
    obtain ⟨y, hy, hyP, hxy⟩ := hU' _ hm'
    by_contra hw
    refine hd ⟨x, y, hx, hy, fun h => hxP ?_, fun h => hyP ?_, hxy.symm, Nat.pos_of_ne_zero hw⟩
    · exact hlast x hx (h.trans hy)
    · exact hlast y (h.trans hx) hy
  unfold gapWeight
  omega

/-- `n` blocks that the three static miners take turns to mine. -/
def trunk (n : Nat) : Block := Nat.rec (genesis [])
    (fun k b => child b (staticWindow.getD (k % 3) []) []) n

/-- Two blocks after the final block 102. -/
def shared : Block := child (child (trunk 102) (staticWindow.getD 0 []) []) (staticWindow.getD 1 []) []

/-- Two blocks on top of them, by different miners. -/
def left : Block := child shared (staticWindow.getD 2 []) []

def right : Block := child shared (staticWindow.getD 0 []) []

theorem finality_accountable_shared :
    ∃ F P : Block, LastCommonFinal F left right ∧ Fork P left right ∧
      (DoubleMined F left right ∨ 2 ≤ gapWeight F P) :=
  finality_accountable (show 100 ≤ shared.number by decide +kernel) Anc.parent Anc.parent
    (by decide +kernel)
    (by decide +kernel) (by decide +kernel) (by decide +kernel)

/-- **Final without a culprit.** Both blocks are final on the strength of the
shared block 104, and no miner has mined on both branches. -/
theorem conflicting_finals :
    100 < shared.last_final.number ∧ shared.Anc left ∧ shared.Anc right ∧ left.Final ∧ right.Final ∧
      ¬left.Anc right ∧ ¬right.Anc left ∧
      ∀ x y : Block, x.Anc left → y.Anc right → ¬x.Anc y → ¬y.Anc x →
        x.miner_pubkey ≠ y.miner_pubkey := by
  refine ⟨by decide +kernel, Anc.parent, Anc.parent, by decide +kernel, by decide +kernel, by decide +kernel,
    by decide +kernel, fun x y hx hy hxy hyx => ?_⟩
  rcases hx with rfl | hx
  · rcases hy with rfl | hy
    · decide
    · exact absurd (.inr hy) hyx
  · rcases hy with rfl | hy
    · exact absurd (.inr hx) hxy
    · rcases hx.linear hy with h | h
      · exact absurd h hxy
      · exact absurd h hyx

end Block
end Diode.L5
