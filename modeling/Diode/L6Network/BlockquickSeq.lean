import Mathlib.Algebra.BigOperators.Group.Finset.Basic
import Mathlib.Data.List.Sort
import Mathlib.Data.Nat.Cast.WithTop
import Diode.Core.Bytes
import Diode.Core.Median
import Diode.Core.SMap

/-!
# The proof search of `getblockquick`

From the window of the client's last block the server finds the shortest run of
late blocks by miners that make up more than half of it, and starts again from
its first block. Where the walk goes is the median of the last activities of
the window's miners (`next_reached`), so `Core.Median` bounds it.

* `blockquick_seq_rests`: the search ends, and has no cycles, for every window
  size but 0.
-/
namespace Diode.L6
open Diode.Core

/-- The blocks 0 to `peak` of the main chain by their miner. -/
structure Chain where
  miner : Nat → Bytes
  peak : Nat

/-- A block number a query returns; `nil` is above every number. -/
abbrev Number := WithTop Nat

namespace Chain
variable (c : Chain)

/-- `Chain.Block.blockquick_window(hash)` of block `n`, oldest first.
mirrors lib/model/chainsql.ex:499-513 -/
def blockquick_window (n : Nat) : List Bytes :=
    ((List.range (min 100 (n + 1))).map fun i => c.miner (n - i)).reverse

/-- The recursion of `get_blockquick_window`; there is no block past the peak,
and none below 0.
mirrors lib/network/edge_v2.ex:214-229 -/
def get_blockquick_window : Nat → Int → Nat → Option (List Bytes)
  | 0, _, _ => none
  | fuel + 1, last_block, window_size =>
    if last_block < 0 ∨ c.peak < last_block then none
    else
      let window := (c.blockquick_window last_block.toNat).reverse.take window_size
      if window.length < window_size then do
        let rest ← get_blockquick_window fuel (last_block - window.length) (window_size - window.length)
        some (window ++ rest)
      else some window

/-- mirrors lib/network/edge_v2.ex:303-306 -/
def get_counts (last_block window_size : Nat) : Option (SMap Bytes Nat) :=
  (c.get_blockquick_window (window_size + 1) last_block window_size).map SMap.tally

/-- The blocks of a miner between two numbers. -/
def mined (min_block : Nat) (max_block : Int) (miner : Bytes) : List Nat :=
  (List.range (c.peak + 1)).filter fun n => c.miner n = miner ∧ min_block ≤ n ∧ (n : Int) ≤ max_block

/-- mirrors lib/model/chainsql.ex:442-451 -/
def query_last_blocks_by_miners (min_block : Nat) (max_block : Int) (miners : List Bytes) :
    List (Number × Bytes) :=
  miners.map fun miner => ((c.mined min_block max_block miner).max?, miner)

/-- mirrors lib/model/chainsql.ex:453-462 -/
def query_last_blocks_by_miners_forward (min_block : Nat) (max_block : Int) (miners : List Bytes) :
    List (Number × Bytes) :=
  miners.map fun miner => ((c.mined min_block max_block miner).min?, miner)

end Chain

/-- The `Enum.reduce_while` of both searches: the first number at which the
counts so far exceed the threshold. -/
def crossing (counts : SMap Bytes Nat) (threshold : Nat) : List (Number × Bytes) → Nat → Option Number
  | [], _ => none
  | (number, miner) :: rest, score =>
    let score := score + (counts.get miner).getD 0
    if threshold < score then some number else crossing counts threshold rest score

namespace Chain
variable (c : Chain)

/-- mirrors lib/network/edge_v2.ex:286-301 -/
def find_sequence_forward (min_block : Nat) (max_block : Int) (counts : SMap Bytes Nat)
    (threshold : Nat) : Option Number :=
  crossing counts threshold
    ((c.query_last_blocks_by_miners_forward min_block max_block (counts.entries.map Prod.fst)).insertionSort fun a b => a.1 ≤ b.1) 0

/-- The range `last_block..first_block`; a search that fails, or ends at `nil`, raises.
mirrors lib/network/edge_v2.ex:247-284 -/
def find_sequence (counts : SMap Bytes Nat) (threshold : Nat) (max_block : Int) : Option (List Nat) :=
  match crossing counts threshold
    ((c.query_last_blocks_by_miners 0 max_block (counts.entries.map Prod.fst)).insertionSort fun a b => b.1 ≤ a.1) 0 with
  | some (some last_block) =>
    match c.find_sequence_forward last_block max_block counts threshold with
    | some (some first_block) => some (List.range' last_block (first_block + 1 - last_block))
    | _ => none
  | _ => none

/-- Old clients do not accept the most recent peaks. -/
def max_block (window_size : Nat) : Int :=
    if 100 < window_size then (c.peak : Int) - (window_size - 100) else c.peak

/-- The sequence of one step.
mirrors lib/network/edge_v2.ex:308-326 -/
def provable_range (last_block window_size : Nat) : Option (List Nat) := do
  let counts ← c.get_counts last_block window_size
  c.find_sequence counts (window_size / 2) (c.max_block window_size)

/-- `hd(provable_range)`, the block the search goes on from. -/
def next_candidate (window_size last_block : Nat) : Option Nat := do
  let range ← c.provable_range last_block window_size
  range.head?

/-- mirrors lib/network/edge_v2.ex:308-338 -/
def get_blockquick_seq (window_size : Nat) : Nat → Nat → Option (List Int)
  | 0, _ => none
  | fuel + 1, last_block => do
    let range ← c.provable_range last_block window_size
    let next_candidate ← range.head?
    let before := (List.range window_size).map fun (i : Nat) => (next_candidate : Int) - window_size + i
    if next_candidate = last_block then some ((before ++ range.map Int.ofNat).dedup.insertionSort (· ≤ ·))
    else do
      let rest ← get_blockquick_seq window_size fuel next_candidate
      some ((before ++ range.map Int.ofNat ++ rest).dedup.insertionSort (· ≤ ·))

/-! ## Windows -/

variable {c} {W b s : Nat}

theorem window_eq : ∀ {fuel W n : Nat}, W < fuel → W ≤ n + 1 → n ≤ c.peak →
    c.get_blockquick_window fuel n W = some ((List.range W).map fun i => c.miner (n - i))
  | fuel + 1, W, n, hf, hW, hn => by
    unfold get_blockquick_window
    rw [if_neg (by omega)]
    have htake : (c.blockquick_window (n : Int).toNat).reverse.take W =
        (List.range (min W (min 100 (n + 1)))).map fun i => c.miner (n - i) := by
      rw [blockquick_window, List.reverse_reverse, Int.toNat_natCast, ← List.map_take, List.take_range]
    dsimp only
    rw [htake, List.length_map, List.length_range]
    split
    · rename_i hlt
      have h100 : min W (min 100 (n + 1)) = 100 := by omega
      rw [h100, show (n : Int) - (100 : Nat) = ((n - 100 : Nat) : Int) by omega,
        window_eq (by omega) (by omega) (by omega), Option.bind_eq_bind, Option.bind_some]
      conv_rhs => rw [show W = 100 + (W - 100) by omega, List.range_add, List.map_append, List.map_map]
      congr 2
      refine List.map_congr_left fun i _ => ?_
      rw [Function.comp, Nat.sub_sub]
    · rename_i hge
      rw [show min W (min 100 (n + 1)) = W by omega]

/-- Positions of a window counted in the list of its miners. -/
theorem countP_window (P : Nat → Bool) : ∀ {W : Nat}, W ≤ b →
    ((List.range W).countP fun i => P (b - i)) = ((Median.window W b).filter fun i => P i = true).card
  | 0, _ => by simp [Median.window]
  | W + 1, hW => by
    have hins : Median.window (W + 1) b = insert (b - W) (Median.window W b) := by
      ext i
      simp only [Median.window, Finset.mem_insert, Finset.mem_Ioc]
      omega
    have hnot : b - W ∉ (Median.window W b).filter fun i => P i = true := by
      simp [Median.window]
    rw [List.range_succ, List.countP_append, countP_window P (by omega), hins, Finset.filter_insert]
    cases hp : P (b - W) with
    | true => simp [hp, Finset.card_insert_of_notMem hnot]
    | false => simp [hp]

/-! ## Activity -/

theorem mem_mined {lo n : Nat} {M : Int} {m : Bytes} :
    n ∈ c.mined lo M m ↔ n ≤ c.peak ∧ c.miner n = m ∧ lo ≤ n ∧ (n : Int) ≤ M := by
  simp only [mined, List.mem_filter, List.mem_range, Nat.lt_succ_iff, decide_eq_true_eq]

/-- The last block of the miner of block `i`. -/
def lastBlock (c : Chain) (M : Int) (i : Nat) : Nat := ((c.mined 0 M (c.miner i)).max?).getD 0

theorem max_eq {M : Int} {i : Nat} (h : c.mined 0 M (c.miner i) ≠ []) :
    (c.mined 0 M (c.miner i)).max? = some (c.lastBlock M i) := by
  unfold lastBlock
  cases hm : (c.mined 0 M (c.miner i)).max? with
  | none => exact absurd (List.max?_eq_none_iff.1 hm) h
  | some v => rfl

theorem le_lastBlock {M : Int} {i : Nat} (hi : i ≤ c.peak) (hM : (i : Int) ≤ M) :
    i ≤ c.lastBlock M i := by
  have hmem : i ∈ c.mined 0 M (c.miner i) := mem_mined.2 ⟨hi, rfl, Nat.zero_le i, hM⟩
  have hmax := max_eq (List.ne_nil_of_mem hmem)
  exact (List.max?_eq_some_iff.1 hmax).2 i hmem

theorem lastBlock_mem {M : Int} {i : Nat} (h : c.mined 0 M (c.miner i) ≠ []) :
    c.lastBlock M i ∈ c.mined 0 M (c.miner i) :=
  (List.max?_eq_some_iff.1 (max_eq h)).1

end Chain

/-! ## The search in a sorted list -/

section
variable {counts : SMap Bytes Nat} {T : Nat} {l : List (Number × Bytes)} {v : Number}

/-- The counts of the miners in a list. -/
def total (counts : SMap Bytes Nat) (l : List (Number × Bytes)) : Nat :=
    (l.map fun e => (counts.get e.2).getD 0).sum

theorem total_append (l m : List (Number × Bytes)) : total counts (l ++ m) = total counts l +
    total counts m := by
  simp [total]

theorem total_filter_le (P : Number × Bytes → Bool) : ∀ l : List (Number × Bytes), total counts
    (l.filter P) ≤ total counts l
  | [] => le_refl _
  | e :: l => by
    have := total_filter_le P l
    rw [List.filter_cons]
    split
    · simp only [total, List.map_cons, List.sum_cons] at this ⊢
      omega
    · simp only [total, List.map_cons, List.sum_cons] at this ⊢
      omega

/-- The search stops at the first entry that brings the counts over the threshold. -/
theorem crossing_split : ∀ {l : List (Number × Bytes)} {score : Nat}, score ≤ T →
    crossing counts T l score = some v →
    ∃ l₁ m l₂, l = l₁ ++ (v, m) :: l₂ ∧ score + total counts l₁ ≤ T ∧
      T < score + total counts l₁ + (counts.get m).getD 0
  | (n, m) :: l, score, hs, h => by
    unfold crossing at h
    dsimp only at h
    split at h
    · rename_i hlt
      cases h
      exact ⟨[], m, l, rfl, hs, hlt⟩
    · rename_i hge
      obtain ⟨l₁, m', l₂, rfl, h1, h2⟩ := crossing_split (Nat.not_lt.1 hge) h
      refine ⟨(n, m) :: l₁, m', l₂, rfl, ?_, ?_⟩
      · simp only [total, List.map_cons, List.sum_cons] at h1 ⊢
        omega
      · simp only [total, List.map_cons, List.sum_cons] at h2 ⊢
        omega

theorem crossing_some : ∀ {l : List (Number × Bytes)} {score : Nat}, T < score + total counts l → score ≤ T →
    ∃ v, crossing counts T l score = some v
  | [], score, h, hs => absurd h (Nat.not_lt.2 hs)
  | (n, m) :: l, score, h, hs => by
    unfold crossing
    dsimp only
    split
    · exact ⟨n, rfl⟩
    · rename_i hge
      refine crossing_some ?_ (Nat.not_lt.1 hge)
      simp only [total, List.map_cons, List.sum_cons] at h ⊢
      omega

/-- What a crossing says of the entries up to it (`P`) and of those before it (`Q`). -/
theorem crossing_filter {P Q : Number × Bytes → Bool} (h : crossing counts T l 0 = some v)
    (hcut : ∀ l₁ m l₂, l = l₁ ++ (v, m) :: l₂ →
      (∀ e ∈ l₁, P e) ∧ P (v, m) ∧ ∀ e ∈ (v, m) :: l₂, ¬Q e) :
    T < total counts (l.filter P) ∧ total counts (l.filter Q) ≤ T := by
  obtain ⟨l₁, m, l₂, rfl, h1, h2⟩ := crossing_split (Nat.zero_le T) h
  obtain ⟨hall, hv, hnone⟩ := hcut l₁ m l₂ rfl
  refine ⟨?_, ?_⟩
  · rw [List.filter_append, total_append, List.filter_eq_self.2 hall, List.filter_cons_of_pos hv]
    simp only [total, List.map_cons, List.sum_cons] at h2 ⊢
    omega
  · rw [List.filter_append, total_append, List.filter_eq_nil_iff.2 hnone]
    have : total counts (l₁.filter Q) ≤ total counts l₁ := total_filter_le _ l₁
    simp only [total, List.map_nil, List.sum_nil] at h1 this ⊢
    omega

/-- Latest first: the entries from `v` on exceed the threshold, those after `v` do not. -/
theorem crossing_desc (hl : l.Pairwise fun x y => y.1 ≤ x.1) (h : crossing counts T l 0 = some v) :
    T < total counts (l.filter fun e => v ≤ e.1) ∧ total counts (l.filter fun e => v < e.1) ≤ T := by
  refine crossing_filter h fun l₁ m l₂ hcut => ?_
  rw [hcut, List.pairwise_append] at hl
  obtain ⟨-, hl2, hl12⟩ := hl
  refine ⟨fun e he => decide_eq_true (hl12 e he (v, m) List.mem_cons_self), by simp, fun e he => ?_⟩
  rw [decide_eq_true_eq, not_lt]
  rcases List.mem_cons.1 he with rfl | he
  · exact le_refl _
  · exact (List.pairwise_cons.1 hl2).1 e he

/-- Earliest first: the entries up to `v` exceed the threshold, those before `v` do not. -/
theorem crossing_asc (hl : l.Pairwise fun x y => x.1 ≤ y.1) (h : crossing counts T l 0 = some v) :
    T < total counts (l.filter fun e => e.1 ≤ v) ∧ total counts (l.filter fun e => e.1 < v) ≤ T := by
  refine crossing_filter h fun l₁ m l₂ hcut => ?_
  rw [hcut, List.pairwise_append] at hl
  obtain ⟨-, hl2, hl12⟩ := hl
  refine ⟨fun e he => decide_eq_true (hl12 e he (v, m) List.mem_cons_self), by simp, fun e he => ?_⟩
  rw [decide_eq_true_eq, not_lt]
  rcases List.mem_cons.1 he with rfl | he
  · exact le_refl _
  · exact (List.pairwise_cons.1 hl2).1 e he

/-- The entries of a window's miners count its positions. -/
theorem total_tally {window : List Bytes} {q : Bytes → Number} (P : Number × Bytes → Bool)
    (hl : l.Perm (((SMap.tally window).entries.map Prod.fst).map fun m => (q m, m))) :
    total (SMap.tally window) (l.filter P) = window.countP fun m => P (q m, m) := by
  have hkeys : ((SMap.tally window).entries.map Prod.fst).Perm window.dedup :=
    (List.perm_ext_iff_of_nodup (SMap.keys_nodup _) window.nodup_dedup).2 fun m => by
      rw [SMap.mem_keys_tally, List.mem_dedup]
  calc total (SMap.tally window) (l.filter P)
      = ((((window.dedup.map fun m => (q m, m)).filter P)).map fun e =>
        ((SMap.tally window).get e.2).getD 0).sum :=
        (((hl.trans (hkeys.map _)).filter P).map _).sum_eq
    _ = ((window.dedup.filter fun m => P (q m, m)).map fun m =>
      @List.count Bytes instBEqOfDecidableEq m window).sum := by
        rw [List.filter_map, List.map_map]
        exact congrArg List.sum (List.map_congr_left fun m _ =>
          @SMap.getD_tally Bytes _ instBEqOfDecidableEq _ window m)
    _ = window.countP fun m => P (q m, m) := List.sum_map_count_dedup_filter_eq_countP _ _

end

/-! ## One step -/

namespace Chain
variable {c : Chain} {W b s : Nat}

/-- The window of `b` lies above the first 100 blocks, and its miners have a
block up to the highest one that is served. -/
structure Searchable (c : Chain) (W b : Nat) : Prop where
  low : 100 + W ≤ b
  active : ∀ n, b - W < n → n ≤ b → ∃ k : Nat, (k : Int) ≤ c.max_block W ∧ c.miner k = c.miner n

/-- The values the walk goes by. -/
abbrev value (c : Chain) (W : Nat) (i : Nat) : Nat := c.lastBlock (c.max_block W) i

theorem max_block_le (c : Chain) (W : Nat) : c.max_block W ≤ c.peak := by
  unfold max_block
  split <;> omega

theorem Searchable.mined_ne (h : Searchable c W b) {n : Nat} (h1 : b - W < n) (h2 : n ≤ b) :
    c.mined 0 (c.max_block W) (c.miner n) ≠ [] := by
  obtain ⟨k, hk, hm⟩ := h.active n h1 h2
  have hp := max_block_le c W
  exact List.ne_nil_of_mem (mem_mined.2 ⟨by omega, hm, Nat.zero_le k, hk⟩)

/-- The last blocks of the miners of a window. -/
theorem max_window (h : Searchable c W b) {n : Nat} (h1 : b - W < n) (h2 : n ≤ b) :
    (c.mined 0 (c.max_block W) (c.miner n)).max? = (c.value W n : Number) := max_eq (h.mined_ne h1 h2)

theorem sorted_desc (l : List (Number × Bytes)) : (l.insertionSort fun a b => b.1 ≤ a.1).Pairwise
    fun x y => y.1 ≤ x.1 :=
  have : Std.Total fun a b : Number × Bytes => b.1 ≤ a.1 := ⟨fun x y => le_total y.1 x.1⟩
  have : IsTrans (Number × Bytes) fun a b => b.1 ≤ a.1 := ⟨fun _ _ _ h1 h2 => h2.trans h1⟩
  List.pairwise_insertionSort _ l

theorem sorted_asc (l : List (Number × Bytes)) : (l.insertionSort fun a b => a.1 ≤ b.1).Pairwise
    fun x y => x.1 ≤ y.1 :=
  have : Std.Total fun a b : Number × Bytes => a.1 ≤ b.1 := ⟨fun x y => le_total x.1 y.1⟩
  have : IsTrans (Number × Bytes) fun a b => a.1 ≤ b.1 := ⟨fun _ _ _ h1 h2 => h1.trans h2⟩
  List.pairwise_insertionSort _ l

/-- Where the backward search stops. -/
theorem backward_reached (hW : 0 < W) (h : Searchable c W b) :
    ∃ v : Nat, crossing (SMap.tally ((List.range W).map fun i => c.miner (b - i))) (W / 2)
        ((c.query_last_blocks_by_miners 0 (c.max_block W)
          ((SMap.tally ((List.range W).map fun i => c.miner (b - i))).entries.map Prod.fst)).insertionSort fun a b => b.1 ≤ a.1) 0 =
        some (v : Number) ∧ Median.Reached (c.value W) W (W / 2) b v ∧ (v : Int) ≤ c.max_block W := by
  have hlow := h.low
  set window := (List.range W).map fun i => c.miner (b - i) with hwin
  set l := (c.query_last_blocks_by_miners 0 (c.max_block W)
    ((SMap.tally window).entries.map Prod.fst)).insertionSort
    fun a b => b.1 ≤ a.1 with hl
  have hperm : l.Perm (((SMap.tally window).entries.map Prod.fst).map fun m =>
      (((c.mined 0 (c.max_block W) m).max? : Number), m)) := List.perm_insertionSort _ _
  -- counting entries is counting positions
  have hcount : ∀ P : Number → Bool, total (SMap.tally window) (l.filter fun e => P e.1) =
      ((Median.window W b).filter fun i => P (c.value W i) = true).card := by
    intro P
    rw [total_tally (fun e => P e.1) hperm, hwin, List.countP_map, ← countP_window
      (fun i => P (c.value W i)) (by omega)]
    refine List.countP_congr fun i hi => ?_
    rw [List.mem_range] at hi
    dsimp only [Function.comp]
    rw [max_window h (by omega) (by omega)]
  have hall : total (SMap.tally window) l = W := by
    have := total_tally (fun _ => true) hperm
    rw [List.filter_true, List.countP_true, hwin, List.length_map, List.length_range] at this
    exact this
  have hsome : ∃ v, crossing (SMap.tally window) (W / 2) l 0 = some v :=
    crossing_some (by rw [hall]; omega) (Nat.zero_le _)
  obtain ⟨v, hv⟩ := hsome
  obtain ⟨h1, h2⟩ := crossing_desc (sorted_desc _) hv
  have h1' := hcount fun n => v ≤ n
  have h2' := hcount fun n => v < n
  simp only [decide_eq_true_eq] at h1' h2'
  rw [← hl] at h1 h2
  rw [h1'] at h1
  rw [h2'] at h2
  -- the number is the last block of a position of the window
  obtain ⟨l₁, m, l₂, hsplit, -, -⟩ := crossing_split (Nat.zero_le _) hv
  have hmem : (v, m) ∈ l := by
    rw [hsplit]
    exact List.mem_append_right _ List.mem_cons_self
  rw [hperm.mem_iff, List.mem_map] at hmem
  obtain ⟨m', hm', he⟩ := hmem
  rw [SMap.mem_keys_tally, hwin, List.mem_map] at hm'
  obtain ⟨i, hi, rfl⟩ := hm'
  rw [List.mem_range] at hi
  rw [max_window h (by omega) (by omega), Prod.mk.injEq] at he
  obtain ⟨rfl, -⟩ := he
  refine ⟨c.value W (b - i), hv, ⟨?_, ?_⟩, ?_⟩
  · simpa only [Nat.cast_withTop, WithTop.coe_le_coe] using h1
  · simpa only [Nat.cast_withTop, WithTop.coe_lt_coe] using h2
  · exact (mem_mined.1 (lastBlock_mem (h.mined_ne (by omega) (by omega)))).2.2.2

/-- The forward search from there succeeds. -/
theorem forward_found (hW : 0 < W) (h : Searchable c W b) {v : Nat}
    (hv : Median.Reached (c.value W) W (W / 2) b v) :
    ∃ first : Nat, v ≤ first ∧ c.find_sequence_forward v (c.max_block W)
      (SMap.tally ((List.range W).map fun i => c.miner (b - i))) (W / 2) = some (first : Number) := by
  have hlow := h.low
  set window := (List.range W).map fun i => c.miner (b - i) with hwin
  set l := (c.query_last_blocks_by_miners_forward v (c.max_block W)
    ((SMap.tally window).entries.map Prod.fst)).insertionSort
    fun a b => a.1 ≤ b.1 with hl
  have hperm : l.Perm (((SMap.tally window).entries.map Prod.fst).map fun m =>
      (((c.mined v (c.max_block W) m).min? : Number), m)) := List.perm_insertionSort _ _
  have hall : total (SMap.tally window) l = W := by
    have := total_tally (fun _ => true) hperm
    rw [List.filter_true, List.countP_true, hwin, List.length_map, List.length_range] at this
    exact this
  have hsome : ∃ n, crossing (SMap.tally window) (W / 2) l 0 = some n :=
    crossing_some (by rw [hall]; omega) (Nat.zero_le _)
  obtain ⟨n, hn⟩ := hsome
  obtain rfl | ⟨first, rfl⟩ : n = ⊤ ∨ ∃ k : Nat, n = (k : Number) := by
    cases n with
    | none => exact .inl rfl
    | some k => exact .inr ⟨k, rfl⟩
  · -- the miners that have reached `v` come before `nil`, and exceed the threshold
    exfalso
    have h1 := (crossing_asc (sorted_asc _) hn).2
    rw [← hl, total_tally (fun e => e.1 < ⊤) hperm, hwin, List.countP_map] at h1
    have h2 := hv.enough
    have h3 := countP_window (fun i => decide (v ≤ c.value W i)) (show W ≤ b by omega)
    simp only [decide_eq_true_eq] at h3
    rw [← h3] at h2
    refine absurd (h2.trans_le (List.countP_mono_left fun i hi hle => ?_)) (Nat.not_lt.2 h1)
    rw [List.mem_range] at hi
    have hle' : v ≤ c.value W (b - i) := of_decide_eq_true hle
    have hmem := mem_mined.1 (lastBlock_mem (h.mined_ne (n := b - i) (by omega) (by omega)))
    have hne : c.mined v (c.max_block W) (c.miner (b - i)) ≠ [] :=
      List.ne_nil_of_mem (mem_mined.2 ⟨hmem.1, hmem.2.1, hle', hmem.2.2.2⟩)
    dsimp only [Function.comp]
    cases hm : (c.mined v (c.max_block W) (c.miner (b - i))).min? with
    | none => exact absurd (List.min?_eq_none_iff.1 hm) hne
    | some k =>
      show decide ((k : Number) < ⊤) = true
      exact decide_eq_true (WithTop.coe_lt_top k)
  · refine ⟨first, ?_, hn⟩
    obtain ⟨l₁, m, l₂, hsplit, -, -⟩ := crossing_split (Nat.zero_le _) hn
    have hmem : ((first : Number), m) ∈ l := by
      rw [hsplit]
      exact List.mem_append_right _ List.mem_cons_self
    rw [hperm.mem_iff, List.mem_map] at hmem
    obtain ⟨m', -, he⟩ := hmem
    have hmin : (c.mined v (c.max_block W) m').min? = some first := congrArg Prod.fst he
    exact (mem_mined.1 (List.min?_eq_some_iff.1 hmin).1).2.2.1

/-- Both searches end at a number. -/
theorem find_sequence_of {M : Int} {v f : Nat}
    (hv : crossing counts T
      ((c.query_last_blocks_by_miners 0 M (counts.entries.map Prod.fst)).insertionSort fun a b =>
        b.1 ≤ a.1) 0 = some (some v))
    (hf : c.find_sequence_forward v M counts T = some (some f)) :
    c.find_sequence counts T M = some (List.range' v (f + 1 - v)) := by
  unfold find_sequence
  rw [hv]
  dsimp only
  rw [hf]

/-- **One step.** The search finds a sequence; it starts at the block that the
miners of just more than half of the window have reached. -/
theorem next_reached (hW : 0 < W) (hb : b ≤ c.peak) (h : Searchable c W b) :
    ∃ range v, c.provable_range b W = some range ∧ range.head? = some v ∧
      c.next_candidate W b = some v ∧
      Median.Reached (c.value W) W (W / 2) b v ∧ (v : Int) ≤ c.max_block W := by
  have hlow := h.low
  obtain ⟨v, hv, hr, hle⟩ := backward_reached hW h
  obtain ⟨first, hfirst, hf⟩ := forward_found hW h hr
  have hcounts : c.get_counts b W = some
    (SMap.tally ((List.range W).map fun i => c.miner (b - i))) := by
    rw [get_counts, window_eq (Nat.lt_succ_self W) (by omega) hb, Option.map_some]
  have hrange : c.provable_range b W = some (List.range' v (first + 1 - v)) := by
    simp only [provable_range, hcounts, Option.bind_eq_bind, Option.bind_some]
    exact find_sequence_of hv hf
  have hhead : (List.range' v (first + 1 - v)).head? = some v := by
    rw [show first + 1 - v = (first - v) + 1 by omega, List.range'_succ, List.head?_cons]
  refine ⟨_, v, hrange, hhead, ?_, hr, hle⟩
  simp only [next_candidate, hrange, Option.bind_eq_bind, Option.bind_some, hhead]

/-! ## The walk -/

/-- The blocks the search from `s` starts again from. -/
inductive Met (c : Chain) (W s : Nat) : Nat → Prop
  | start : Met c W s s
  | next {b v : Nat} (h : Met c W s b) (hn : c.next_candidate W b = some v) : Met c W s v

/-- The block after `k` more searches. -/
def walk (c : Chain) (W b : Nat) : Nat → Nat
  | 0 => b
  | k + 1 => (c.next_candidate W (c.walk W b k)).getD (c.walk W b k)

theorem walk_succ (b k : Nat) : c.walk W b (k + 1) = (c.next_candidate W (c.walk W b k)).getD
    (c.walk W b k) := rfl

theorem walk_one {v : Nat} (hv : c.next_candidate W b = some v) : c.walk W b 1 = v := by
  show (c.next_candidate W b).getD b = v
  rw [hv]
  rfl

/-- Where every window that is met can be searched, from a block of the chain. -/
structure Walkable (c : Chain) (W s : Nat) : Prop where
  peak : s ≤ c.peak
  met : ∀ b, Met c W s b → Searchable c W b

theorem Met.peak (hW : 0 < W) (h : Walkable c W s) (hm : Met c W s b) : b ≤ c.peak := by
  induction hm with
  | start => exact h.peak
  | next hb hn ih =>
    obtain ⟨-, v, -, -, hv, -, hle⟩ := next_reached hW ih (h.met _ hb)
    rw [hn, Option.some.injEq] at hv
    subst hv
    have := max_block_le c W
    omega

/-- One step of the walk. -/
theorem Met.step (hW : 0 < W) (h : Walkable c W s) (hm : Met c W s b) :
    ∃ range v, c.provable_range b W = some range ∧ range.head? = some v ∧
      c.next_candidate W b = some v ∧
      Median.Reached (c.value W) W (W / 2) b v ∧ (v : Int) ≤ c.max_block W :=
  next_reached hW (hm.peak hW h) (h.met b hm)

theorem walk_next (hW : 0 < W) (h : Walkable c W s) (hm : Met c W s b) :
    ∀ k, Met c W s (c.walk W b k) ∧ c.next_candidate W (c.walk W b k) = some (c.walk W b (k + 1))
  | 0 => by
    obtain ⟨-, v, -, -, hv, -⟩ := hm.step hW h
    exact ⟨hm, by rw [walk_one hv]; exact hv⟩
  | k + 1 => by
    obtain ⟨hm', hk⟩ := walk_next hW h hm k
    have hmet := hm'.next hk
    obtain ⟨-, v, -, -, hv, -⟩ := hmet.step hW h
    refine ⟨hmet, ?_⟩
    have hv' : c.walk W b (k + 1 + 1) = v := by
      rw [walk_succ b (k + 1), hv]
      rfl
    rw [hv', hv]

/-- The walk comes to rest. -/
theorem walk_rest (hW : 0 < W) (h : Walkable c W s) (hm : Met c W s b) :
    ∃ n, c.walk W b (n + 1) = c.walk W b n := by
  have hstep : ∀ k, Median.Reached (c.value W) W (W / 2) (c.walk W b k) (c.walk W b (k + 1)) ∧
      (c.walk W b (k + 1) : Int) ≤ c.max_block W := by
    intro k
    obtain ⟨hm', hk⟩ := walk_next hW h hm k
    obtain ⟨-, v, -, -, hv, hr, hle⟩ := hm'.step hW h
    rw [hk, Option.some.injEq] at hv
    subst hv
    exact ⟨hr, hle⟩
  refine Median.exists_rest (M := (c.max_block W).toNat)
    (fun k => by have := (hstep k).2; omega) fun k hlt => ?_
  refine Median.no_ascent (fun i hi => ?_) (hstep (k + 1)).1 hlt (hstep (k + 2)).1
  have h1 := (hstep k).2
  have h2 := max_block_le c W
  exact le_lastBlock (by omega) (by omega)

/-- The recursion returns once the walk has come to rest. -/
theorem seq_of_rest (hW : 0 < W) (h : Walkable c W s) : ∀ {n b : Nat}, Met c W s b →
    c.walk W b (n + 1) = c.walk W b n →
    ∃ seq, c.get_blockquick_seq W (n + 1) b = some seq := by
  have hshift : ∀ k b, c.walk W (c.walk W b 1) k = c.walk W b (k + 1) := by
    intro k b
    induction k with
    | zero => rfl
    | succ k ih => rw [walk_succ, ih, ← walk_succ]
  intro n
  induction n with
  | zero =>
    intro b hm hr
    obtain ⟨range, v, h1, h2, h3, -⟩ := hm.step hW h
    have hv : v = b := (walk_one h3).symm.trans hr
    unfold get_blockquick_seq
    simp only [h1, h2, hv, Option.bind_eq_bind, Option.bind_some, if_true]
    exact ⟨_, rfl⟩
  | succ n ih =>
    intro b hm hr
    obtain ⟨range, v, h1, h2, h3, -⟩ := hm.step hW h
    have hv := walk_one h3
    obtain ⟨seq, hs⟩ := ih (hm.next h3) (by rw [← hv, hshift, hshift]; exact hr)
    unfold get_blockquick_seq
    simp only [h1, h2, hs, Option.bind_eq_bind, Option.bind_some]
    split
    · exact ⟨_, rfl⟩
    · exact ⟨_, rfl⟩

/-- **The proof search ends.** For every chain and window size but 0, from every
block of it such that the windows met lie above the first 100 blocks and their
miners have been active up to `max_block`: the search meets a block that is its
own successor, the recursion returns, and no block met comes back to itself but
at once. -/
theorem blockquick_seq_rests (c : Chain) {W s : Nat} (hW : 0 < W) (h : Walkable c W s) :
    (∃ b, Met c W s b ∧ c.next_candidate W b = some b) ∧
      (∃ fuel seq, c.get_blockquick_seq W fuel s = some seq) ∧
      ∀ b k, Met c W s b → 0 < k → c.walk W b k = b → c.next_candidate W b = some b := by
  obtain ⟨n, hn⟩ := walk_rest hW h .start
  obtain ⟨hm, hk⟩ := walk_next hW h .start n
  refine ⟨⟨_, hm, by rw [hk, hn]⟩, ⟨n + 1, seq_of_rest hW h .start hn⟩, fun b k hb hk hc => ?_⟩
  obtain ⟨i, hi⟩ := walk_rest hW h hb
  have hone := Median.rest_of_cycle (f := fun b => (c.next_candidate W b).getD b)
    (fun _ => rfl) hi hk hc
  have hnext : c.next_candidate W b = some (c.walk W b 1) := (walk_next hW h hb 0).2
  rw [hnext, hone]
  rfl

/-- The first miner works up to block 112 and mines 115, the second the rest up to
118: the search climbs from 110 to 115 and to 118, where it stays. -/
theorem blockquick_seq_rests_climb :
    let c : Chain := ⟨fun n => [if n ≤ 112 ∨ n = 115 then 1 else if n ≤ 118 then 2 else 3], 120⟩
    (c.next_candidate 3 110 = some 115 ∧ c.next_candidate 3 115 = some 118) ∧
      (∃ b, Met c 3 110 b ∧ c.next_candidate 3 b = some b) ∧
      (∃ fuel seq, c.get_blockquick_seq 3 fuel 110 = some seq) ∧
      ∀ b k, Met c 3 110 b → 0 < k → c.walk 3 b k = b → c.next_candidate 3 b = some b := by
  intro c
  have h1 : c.next_candidate 3 110 = some 115 := by decide +kernel
  have h2 : c.next_candidate 3 115 = some 118 := by decide +kernel
  have h3 : c.next_candidate 3 118 = some 118 := by decide +kernel
  have hmet : ∀ b, Met c 3 110 b → b = 110 ∨ b = 115 ∨ b = 118 := by
    intro b hm
    induction hm with
    | start => exact .inl rfl
    | next _ hn ih =>
      rcases ih with rfl | rfl | rfl
      · exact .inr (.inl (Option.some.inj (hn.symm.trans h1)))
      · exact .inr (.inr (Option.some.inj (hn.symm.trans h2)))
      · exact .inr (.inr (Option.some.inj (hn.symm.trans h3)))
  refine ⟨⟨h1, h2⟩, blockquick_seq_rests c (by decide) ⟨by decide, fun b hm => ?_⟩⟩
  have hb := hmet b hm
  have hle : b ≤ 120 := by omega
  exact ⟨by omega, fun n _ hn => ⟨n, Int.ofNat_le.2 (hn.trans hle), rfl⟩⟩

/-- **A window of size 0** has no miners, and no sequence; the search raises. -/
theorem empty_window_raises :
    ∃ (c : Chain) (s : Nat), Walkable c 0 s ∧ (∀ b, Met c 0 s b → c.next_candidate 0 b = none) ∧
      c.provable_range s 0 = none := by
  have hnone : (⟨fun _ => [], 200⟩ : Chain).next_candidate 0 150 = none := by decide +kernel
  have hmet : ∀ b, Met ⟨fun _ => [], 200⟩ 0 150 b → b = 150 := by
    intro b hm
    induction hm with
    | start => rfl
    | next _ hn ih =>
      rw [ih, hnone] at hn
      cases hn
  refine ⟨⟨fun _ => [], 200⟩, 150, ⟨by decide, fun b hm => ?_⟩, fun b hm => ?_, by decide +kernel⟩
  · rw [hmet b hm]
    exact ⟨by decide, fun n h1 h2 => absurd h2 (Nat.not_le.2 h1)⟩
  · rw [hmet b hm]
    exact hnone

end Chain
end Diode.L6
