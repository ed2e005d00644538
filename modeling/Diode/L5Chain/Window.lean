import Diode.L5Chain.Finality
import Diode.L5Chain.Writer

/-!
# The window of a block

The miners of the last 100 blocks come from SQL by a recursive query. For a block
that is still in the writer's buffer the window of its parent is shifted by one,
and each window computed is cached. A shift keeps the length, but SQL has one miner
more for a block than for its parent as long as there are less than 100: it also
holds the block before the genesis block. So the window of a block below 99 comes
out short while the block is in the buffer, and it is cached. Above 98 a walk through
the buffer is never too long: blocks up to 500 leave it two at a time.

* `windows_agree`: as long as no window of a block below 99 was asked for while it
  was in the buffer, the three computations agree for every block above 100.
* `short_window`: every window of the other kind is short of one miner.
-/
namespace Diode.L5
open Diode.Core Block

/-- Windows by block hash. -/
abbrev Cache := Block → Option (List Bytes)

/-- The writer and the LRU cache. -/
structure Windows extends Writer where
  cache : Cache

namespace Windows

/-- The rows of `parents_of`. A hash that is not in `blocks` is a row without a
block and ends the recursion; `origin` is the miner of the block before the genesis
block. -/
def parents_of (origin : Bytes) (stored : List Block) : Block → List (Option Bytes)
  | genesis m => if genesis m ∈ stored then [some m, some origin, none] else [none]
  | child p m s => if child p m s ∈ stored then some m :: parents_of origin stored p else [none]

/-- mirrors lib/model/chainsql.ex:499-513 -/
def do_query_blockquick_window (origin : Bytes) (stored : List Block) (b : Block) : List Bytes :=
  (((parents_of origin stored b).take window_size).filterMap id).reverse

/-- `[_ | window] = w; window ++ [miner]`, which raises on an empty list. -/
def shift (w : List Bytes) (miner : Bytes) : Option (List Bytes) :=
  match w with
  | [] => none
  | _ :: window => some (window ++ [miner])

/-- `EtsLru.fetch`, where the value leaves a cache of its own. -/
def fetch (cache : Cache) (b : Block) (value : Option (List Bytes × Cache)) :
    Option (List Bytes × Cache) :=
  match cache b with
  | some w => some (w, cache)
  | none => value.map fun v => (v.1, Function.update v.2 b (some v.1))

/-- The window with the cache after. The window of the block before the genesis
block is its miner alone.
mirrors lib/model/chainsql.ex:484-497 -/
def blockquick_window (origin : Bytes) (s : Windows) : Block → Option (List Bytes × Cache)
  | genesis m =>
    let window := if genesis m ∈ s.buffer then [m] else do_query_blockquick_window origin s.stored (genesis m)
    fetch s.cache (genesis m) (some (window, s.cache))
  | child p m x =>
    fetch s.cache (child p m x)
      (if child p m x ∈ s.buffer then do
        let (window, cache) ← blockquick_window origin s p
        let window ← shift window m
        some (window, cache)
      else some (do_query_blockquick_window origin s.stored (child p m x), s.cache))

/-- `Block.blockquick_window(block)`. mirrors lib/chain/block.ex:804-827 -/
def block_window (origin : Bytes) (s : Windows) (b : Block) : Option (List Bytes × Cache) :=
  if b.number ≤ 100 then some (staticWindow, s.cache)
  else match b with
    | genesis _ => some (staticWindow, s.cache)
    | child p m _ => do
      let (window, cache) ← blockquick_window origin s p
      let window ← shift window m
      some (window, cache)

/-- Windows are asked for with blocks the chain knows: the block of a number, or the
parent of a block to validate. -/
inductive Op where
  | writer (op : Writer.Op)
  | window (b : Block)
  | block_window (b : Block)
  | evict (b : Block)

/-- A window that raises leaves the cache as it is. -/
def step (origin : Bytes) (s : Windows) : Op → Windows
  | .writer .restart => ⟨s.toWriter.step .restart, fun _ => none⟩
  | .writer op => { s with toWriter := s.toWriter.step op }
  | .window b =>
    if b ∈ s.known then { s with cache := ((s.blockquick_window origin b).map Prod.snd).getD s.cache }
    else s
  | .block_window b =>
    match b.parent with
    | none => s
    | some p =>
      if p ∈ s.known then { s with cache := ((s.block_window origin b).map Prod.snd).getD s.cache }
      else s
  | .evict b => { s with cache := Function.update s.cache b none }

/-- The database with the genesis block. -/
def seed (m : Bytes) : Windows := ⟨Writer.seed m, fun _ => none⟩

def run (origin : Bytes) (s : Windows) : List Op → Windows
  | [] => s
  | op :: ops => run origin (s.step origin op) ops

/-! ## The right windows -/

/-- The miners from a block down to the one before the genesis block. -/
def line (origin : Bytes) (b : Block) : List Bytes := b.miners ++ [origin]

/-- What SQL gives when it has all blocks. -/
def full (origin : Bytes) (b : Block) : List Bytes := ((line origin b).take window_size).reverse

/-- The miners of the block and its 99 nearest ancestors, oldest first. -/
def right (b : Block) : List Bytes := (b.miners.take 100).reverse

variable {origin m : Bytes} {s s' : Windows} {b p : Block} {stored buffer : List Block} {n : Nat}

@[simp] theorem line_length (origin : Bytes) (b : Block) : (line origin b).length = b.number + 2 := by
  simp [line, miners_length]

theorem line_child (origin : Bytes) (p : Block) (m x : Bytes) : line origin (child p m x) = m ::
    line origin p := rfl

theorem take_line (h : n ≤ b.number + 1) : (line origin b).take n = b.miners.take n := by
  rw [line, List.take_append_of_le_length (by rw [miners_length]; exact h)]

theorem full_of_high (h : 99 ≤ b.number) : full origin b = right b := by
  rw [full, right, window_size, take_line (by omega)]

/-- What is in the table has its line in the table. -/
theorem parents_of_eq (hcl : ∀ b ∈ stored, ∀ p ∈ b.parent, p ∈ stored) : ∀ {b : Block}, b ∈ stored →
    parents_of origin stored b = (line origin b).map some ++ [none]
  | genesis m, hb => by simp [parents_of, hb, line, miners]
  | child p m x, hb => by
    rw [parents_of, if_pos hb, parents_of_eq hcl (hcl _ hb p rfl), line_child]
    rfl

theorem do_query_eq (hcl : ∀ b ∈ stored, ∀ p ∈ b.parent, p ∈ stored) (hb : b ∈ stored) :
    do_query_blockquick_window origin stored b = full origin b := by
  rw [do_query_blockquick_window, full, parents_of_eq hcl hb, List.take_append, List.filterMap_append]
  have hnone : (List.take (window_size - ((line origin b).map some).length)
    [(none : Option Bytes)]).filterMap id = [] := by
    rw [List.filterMap_eq_nil_iff]
    intro x hx
    exact List.mem_singleton.1 (List.mem_of_mem_take hx)
  rw [hnone, List.append_nil, ← List.map_take, List.filterMap_map]
  simp

/-! ## Where the walk ends -/

/-- The block is in SQL or in the buffer. -/
def Present (s : Windows) (b : Block) : Prop := b ∈ s.stored ∨ b ∈ s.buffer

/-- The first block on the way down that is cached, or not in the buffer. -/
def stop (s : Windows) : Block → Block
  | genesis m => genesis m
  | child p m x => if (s.cache (child p m x)).isSome ∨
      child p m x ∉ s.buffer then child p m x else stop s p

/-- The walk ends at once, or high enough for a full window. -/
def Deep (s : Windows) (b : Block) : Prop := s.stop b = b ∨ 98 ≤ (s.stop b).number

/-- The writer keeps its own order, and all cached windows are right. -/
structure Inv (origin : Bytes) (s : Windows) : Prop where
  writer : s.toWriter.Inv
  served : s.toWriter.Served 0
  cached : ∀ b w, s.cache b = some w → w = full origin b

theorem Inv.known_parent {x : Bytes} (h : Inv origin s) (hb : s.Present (child p m x)) : p ∈ s.known := by
  refine h.writer.parents (child p m x) ?_ p rfl
  rcases hb with hb | hb
  · exact .inr (.inr (.inr (.inr hb)))
  · exact .inr (.inr (.inr (.inl hb)))

theorem Inv.present_parent {x : Bytes} (h : Inv origin s) (hb : s.Present (child p m x)) : s.Present p :=
  h.writer.known (h.known_parent hb)

theorem Inv.seed (origin m : Bytes) : Inv origin (seed m) :=
  ⟨Writer.Inv.seed m, Writer.Served.seed m, nofun⟩

theorem stop_of_not_mem (hb : b ∉ s.buffer) : s.stop b = b := by
  cases b with
  | genesis m => rfl
  | child p m x => exact if_pos (.inr hb)

/-- The walk from a block that the chain knows ends at the block or its parent, unless
the block is above 500: a block up to 500 is only submitted when its parent's parent
is written. -/
theorem Inv.stop_high (h : Inv origin s) : ∀ {b : Block}, b ∈ s.known →
    s.stop b = b ∨ (s.stop b).number + 1 = b.number ∨ 499 ≤ (s.stop b).number
  | genesis m, _ => .inl rfl
  | child p m x, hb => by
    have hnum : (child p m x).number = p.number + 1 := rfl
    by_cases hstop : (s.cache (child p m x)).isSome ∨ child p m x ∉ s.buffer
    · exact .inl (if_pos hstop)
    · have heq : s.stop (child p m x) = s.stop p := if_neg hstop
      by_cases hn : (child p m x).number ≤ jump_size
      · have hp : p ∉ s.buffer := h.writer.apart _ (.inr hb) hn p rfl
        rw [heq, stop_of_not_mem hp]
        exact .inr (.inl rfl)
      · have hlate : 500 < p.number + 1 := Nat.lt_of_not_le hn
        have hpk : p ∈ s.known := h.writer.parents _ (.inl (.inr hb)) p rfl
        rw [heq]
        rcases h.stop_high hpk with hself | hpar | hhigh
        · rw [hself]
          omega
        · omega
        · omega

/-- Above 98 a window is as wide as it should be. -/
theorem Inv.deep (h : Inv origin s) (hb : b ∈ s.known) (hn : 99 ≤ b.number) : s.Deep b := by
  rcases h.stop_high hb with hself | hpar | hhigh
  · exact .inl hself
  · exact .inr (by omega)
  · exact .inr (by omega)

theorem stop_number_le (s : Windows) : ∀ b : Block, (s.stop b).number ≤ b.number
  | genesis m => Nat.le_refl _
  | child p m x => by
    unfold stop
    split
    · exact Nat.le_refl _
    · exact Nat.le_succ_of_le (stop_number_le s p)

/-! ## What a window is -/

/-- How many miners SQL has for a block. -/
def width (b : Block) : Nat := min window_size (b.number + 2)

theorem shift_eq {w : List Bytes} (h : w ≠ []) (m : Bytes) : shift w m = some (w.tail ++ [m]) := by
  cases w with
  | nil => exact absurd rfl h
  | cons a w => rfl

theorem full_eq (origin : Bytes) (b : Block) :
    full origin b = ((line origin b).take (width b)).reverse := by
  unfold full width
  rcases Nat.le_total window_size (b.number + 2) with h | h
  · rw [min_eq_left h]
  · have hlen := line_length origin b
    rw [min_eq_right h, List.take_of_length_le (by omega), List.take_of_length_le (by omega)]

/-- A shifted window of the parent's line is one of the block's, as wide. -/
theorem shift_line (x : Bytes) (h0 : 0 < n) (hn : n ≤ p.number + 2) :
    shift ((line origin p).take n).reverse m = some ((line origin (child p m x)).take n).reverse := by
  have hlen : ((line origin p).take n).length = n := by
    rw [List.length_take, line_length]
    omega
  rw [shift_eq (by rw [ne_eq, List.reverse_eq_nil_iff, ← List.length_eq_zero_iff]; omega),
    List.tail_reverse, line_child]
  obtain ⟨k, rfl⟩ : ∃ k, n = k + 1 := ⟨n - 1, by omega⟩
  rw [List.take_succ_cons, List.reverse_cons, List.dropLast_eq_take, hlen, List.take_take]
  congr 4
  omega

/-- The window is as wide as SQL's for the block where the walk ends. What the
walk adds to the cache is right if it ends at once or high enough. -/
theorem blockquick_window_spec (h : Inv origin s) : ∀ {b : Block}, s.Present b →
    ∃ cache, s.blockquick_window origin b = some
      (((line origin b).take (width (s.stop b))).reverse, cache) ∧
      (s.Deep b → ∀ b w, cache b = some w → w = full origin b)
  | genesis m, hb => by
    have hbuf : genesis m ∉ s.buffer := fun hm => h.writer.rooted _ hm rfl
    have hst := hb.resolve_right hbuf
    have hfull := full_eq origin (genesis m)
    unfold blockquick_window fetch
    cases hc : s.cache (genesis m) with
    | some w => exact ⟨s.cache, by rw [h.cached _ w hc, hfull, stop], fun _ => h.cached⟩
    | none =>
      simp only [if_neg hbuf, Option.map_some, do_query_eq h.writer.closed hst]
      refine ⟨_, by rw [hfull, stop], fun _ b w hw => ?_⟩
      rw [Function.update_apply] at hw
      split at hw
      · rename_i heq
        rw [heq, ← Option.some.inj hw, hfull]
      · exact h.cached b w hw
  | child p m x, hb => by
    have hself := full_eq origin (child p m x)
    unfold blockquick_window fetch
    cases hc : s.cache (child p m x) with
    | some w =>
      have hstop : s.stop (child p m x) = child p m x := by simp [stop, hc]
      exact ⟨s.cache, by rw [h.cached _ w hc, hstop, hself], fun _ => h.cached⟩
    | none =>
      by_cases hbuf : child p m x ∈ s.buffer
      · have hstop : s.stop (child p m x) = s.stop p := by simp [stop, hc, hbuf]
        obtain ⟨cache, hw, hcache⟩ := blockquick_window_spec h (h.present_parent hb)
        have hle := stop_number_le s p
        have hwidth : 0 < width (s.stop p) ∧ width (s.stop p) ≤ p.number + 2 := by
          unfold width window_size
          omega
        simp only [if_pos hbuf, hw, Option.bind_eq_bind, Option.bind_some,
          shift_line x hwidth.1 hwidth.2, Option.map_some]
        refine ⟨_, by rw [hstop], fun hdeep b w hbw => ?_⟩
        have hhigh : 98 ≤ (s.stop p).number := by
          rcases hdeep with heq | hhigh
          · rw [hstop] at heq
            have : (child p m x).number = p.number + 1 := rfl
            have := congrArg Block.number heq
            omega
          · rwa [hstop] at hhigh
        rw [Function.update_apply] at hbw
        split at hbw
        · rename_i heq
          rw [heq, ← Option.some.inj hbw, full]
          congr 2
          unfold width window_size
          omega
        · exact hcache (.inr hhigh) b w hbw
      · have hstop : s.stop (child p m x) = child p m x := by simp [stop, hbuf]
        simp only [if_neg hbuf, Option.map_some, do_query_eq h.writer.closed (hb.resolve_right hbuf)]
        refine ⟨_, by rw [hstop, hself], fun _ b w hw => ?_⟩
        rw [Function.update_apply] at hw
        split at hw
        · rename_i heq
          rw [heq, ← Option.some.inj hw, hself]
        · exact h.cached b w hw

/-! ## Runs -/

/-- No window of a block below 99 is computed while the block is in the buffer. -/
def Meets (s : Windows) : Op → Prop
  | .window b => b ∈ s.known → b ∈ s.buffer → s.cache b = none → 99 ≤ b.number
  | _ => True

/-- Every step of the run meets it in the state it starts from. -/
inductive MeetsAll (origin : Bytes) : Windows → List Op → Prop where
  | nil (s : Windows) : MeetsAll origin s []
  | cons {s : Windows} {op : Op} {ops : List Op} :
      s.Meets op → MeetsAll origin (s.step origin op) ops → MeetsAll origin s (op :: ops)

theorem Inv.cache {cache : Cache} (h : Inv origin s) (hc : ∀ b w, cache b = some w →
    w = full origin b) :
    Inv origin { s with cache } := { h with cached := hc }

/-- The windows up to 500 that are asked for as the condition says. -/
theorem Inv.deep_of_meets (h : Inv origin s) (hb : b ∈ s.known) (hop : s.Meets (.window b)) : s.Deep b := by
  by_cases hbuf : b ∈ s.buffer
  · cases hc : s.cache b with
    | some w =>
      refine .inl ?_
      cases b with
      | genesis m => rfl
      | child p m x => exact if_pos (.inl (by rw [hc]; rfl))
    | none => exact h.deep hb (hop hb hbuf hc)
  · exact .inl (stop_of_not_mem hbuf)

/-- A window of a known block is asked for: the cache after is right. -/
theorem Inv.window (h : Inv origin s) (hop : s.Meets (.window b)) : Inv origin (s.step origin (.window b)) := by
  unfold Windows.step
  dsimp only
  split
  · rename_i hb
    obtain ⟨cache, hw, hcache⟩ := blockquick_window_spec h (h.writer.known hb)
    refine h.cache ?_
    simpa [hw] using hcache (h.deep_of_meets hb hop)
  · exact h

theorem block_window_child (s : Windows) (p : Block) (m x : Bytes) (hn : 100 < p.number + 1) :
    s.block_window origin (child p m x) =
      (s.blockquick_window origin p).bind fun v => (shift v.1 m).map fun w => (w, v.2) := by
  unfold block_window
  rw [if_neg (by change ¬p.number + 1 ≤ 100; omega)]
  simp only [Option.bind_eq_bind]
  congr 1
  funext v
  cases shift v.1 m <;> rfl

theorem Inv.block_window (h : Inv origin s) : ∀ b : Block, Inv origin (s.step origin (.block_window b))
  | genesis m => h
  | child p m x => by
    unfold Windows.step
    dsimp only [Block.parent]
    split
    · rename_i hp
      refine h.cache ?_
      by_cases hn : 100 < p.number + 1
      · obtain ⟨cache, hw, hcache⟩ := blockquick_window_spec h (h.writer.known hp)
        rw [block_window_child s p m x hn, hw, Option.bind_some]
        cases shift _ m with
        | none => exact h.cached
        | some w => exact hcache (h.deep hp (by omega))
      · unfold Windows.block_window
        rw [if_pos (by change p.number + 1 ≤ 100; omega)]
        exact h.cached
    · exact h

theorem Inv.step (h : Inv origin s) {op : Op} (hop : s.Meets op) : Inv origin (s.step origin op) := by
  cases op with
  | writer op =>
    obtain ⟨hw, hs⟩ := h.writer.step h.served op
    cases op with
    | restart => exact ⟨hw, hs, nofun⟩
    | _ => exact ⟨hw, hs, h.cached⟩
  | window b => exact h.window hop
  | block_window b => exact h.block_window b
  | evict b =>
    refine h.cache fun a w ha => ?_
    rw [Function.update_apply] at ha
    split at ha
    · cases ha
    · exact h.cached a w ha

theorem Inv.run {ops : List Op} (h : Inv origin s) (hm : MeetsAll origin s ops) :
    Inv origin (s.run origin ops) := by
  induction hm with
  | nil s => exact h
  | cons hop _ ih => exact ih (h.step hop)

/-! ## The three computations -/

/-- What `Block.blockquick_window`, the buffered path and SQL with all blocks written
give for the block is its right window. -/
def Agree (origin : Bytes) (s : Windows) (b : Block) : Prop :=
  (s.block_window origin b).map Prod.fst = some (right b) ∧
    (s.blockquick_window origin b).map Prod.fst = some (right b) ∧
    do_query_blockquick_window origin (s.stored ++ s.buffer) b = right b

theorem Deep.width (h : s.Deep b) (hn : 98 ≤ b.number) : width (s.stop b) = 100 := by
  unfold Windows.width window_size
  rcases h with heq | hhigh
  · rw [heq]
    omega
  · omega

/-- A window that is as wide as SQL's is the right one. -/
theorem take_line_right (hn : 99 ≤ b.number) : ((line origin b).take 100).reverse = right b :=
  full_of_high hn

/-- The window of a block above 100 from its parent's. -/
theorem Inv.block_window_eq {x : Bytes} (h : Inv origin s) (hp : p ∈ s.known) (hn : 100 < p.number + 1) :
    (s.block_window origin (child p m x)).map Prod.fst = some (right (child p m x)) := by
  have hhigh : 99 ≤ (child p m x).number := by
    change 99 ≤ p.number + 1
    omega
  obtain ⟨cache, hw, _⟩ := blockquick_window_spec h (h.writer.known hp)
  have hwidth : width (s.stop p) = 100 := (h.deep hp (by omega)).width (by omega)
  rw [block_window_child s p m x hn, hw, Option.bind_some, hwidth, shift_line x (by omega) (by omega),
    take_line_right hhigh]
  rfl

/-- The walk from a block over its parent, or no walk at all. -/
theorem Inv.width_present {x : Bytes} (h : Inv origin s) (hb : s.Present (child p m x))
    (hn : 100 < p.number + 1) : width (s.stop (child p m x)) = 100 := by
  have hp := h.known_parent hb
  rw [stop]
  split
  · unfold Windows.width window_size
    change min 100 (p.number + 1 + 2) = 100
    omega
  · exact (h.deep hp (by omega)).width (by omega)

theorem Inv.agree (h : Inv origin s) (hb : s.Present b) (hn : 100 < b.number) : Agree origin s b := by
  cases b with
  | genesis m => exact absurd hn (by change ¬100 < 0; omega)
  | child p m x =>
    have hhigh : 99 ≤ (child p m x).number := Nat.le_trans (by decide) (Nat.le_of_lt hn)
    refine ⟨h.block_window_eq (h.known_parent hb) hn, ?_, ?_⟩
    · obtain ⟨cache, hw, _⟩ := blockquick_window_spec h hb
      rw [hw, Option.map_some, h.width_present hb hn, take_line_right hhigh]
    · rw [do_query_eq h.writer.closed_all (List.mem_append.2 hb), full_of_high hhigh]

/-- Whatever of a block's ancestors is in the buffer, the three computations give the
block's right window, in every state of a run in which no window of a block below 99
was asked for while this block was in the buffer. -/
theorem windows_agree (origin m : Bytes) (ops : List Op) (h : MeetsAll origin (seed m) ops) :
    ∀ b, ((seed m).run origin ops).Present b → 100 < b.number →
      Agree origin ((seed m).run origin ops) b :=
  fun _ hb hn => ((Inv.seed origin m).run h).agree hb hn

/-- The window of a known block below 99 that is in the buffer is the parent's line
shifted: one miner less than SQL has for the block once it is written. -/
theorem short_window {x : Bytes} (h : Inv origin s) (hb : child p m x ∈ s.known)
    (hbuf : child p m x ∈ s.buffer) (hc : s.cache (child p m x) = none) (hn : (child p m x).number < 99) :
    ∃ w, (s.blockquick_window origin (child p m x)).map Prod.fst = some w ∧
      w.length + 1 = (do_query_blockquick_window origin (s.stored ++ s.buffer) (child p m x)).length := by
  have hnum : (child p m x).number = p.number + 1 := rfl
  obtain ⟨cache, hw, _⟩ := blockquick_window_spec h (h.writer.known hb)
  have hpbuf : p ∉ s.buffer := h.writer.apart _ (.inr hb) (by unfold jump_size; omega) p rfl
  have hstop : s.stop (child p m x) = p := by
    rw [stop, if_neg (by simp [hc, hbuf]), stop_of_not_mem hpbuf]
  refine ⟨_, by rw [hw]; rfl, ?_⟩
  rw [do_query_eq h.writer.closed_all (List.mem_append_right _ hbuf), full, hstop]
  simp only [List.length_reverse, List.length_take, line_length]
  unfold width window_size
  omega

/-! ## A writer that lags behind -/

def tower : Nat → Block
  | 0 => genesis []
  | n + 1 => child (tower n) [] []

@[simp] theorem tower_number : ∀ n, (tower n).number = n
  | 0 => rfl
  | n + 1 => congrArg Nat.succ (tower_number n)

variable {j k : Nat}

theorem tower_inj (h : tower j = tower k) : j = k := by
  simpa using congrArg Block.number h

/-- The blocks below `k`. -/
def towers (k : Nat) : List Block := (List.range k).reverse.map tower

theorem towers_succ (k : Nat) : towers (k + 1) = tower k :: towers k := by
  simp [towers, List.range_succ]

@[simp] theorem mem_towers : tower j ∈ towers k ↔ j < k := by
  refine List.mem_map.trans ⟨?_, fun h => ⟨j, by simpa using h, rfl⟩⟩
  rintro ⟨i, hi, heq⟩
  rw [tower_inj heq] at hi
  simpa using hi

/-- All blocks below `k` are written. -/
def idle (k : Nat) : Windows := ⟨⟨towers k, [], [], [], towers k, [], []⟩, fun _ => none⟩

/-- The chain knows block `k`, which is at the head of the queue with four `:write`
messages on the way. -/
def lag (k : Nat) (returned : List Block) (cache : Cache) : Windows :=
  ⟨⟨towers k, [tower k], [.hash (tower k)], List.replicate 4 .write, towers (k + 1), [], returned⟩, cache⟩

theorem run_append (origin : Bytes) : ∀ (l l' : List Op) (s : Windows),
    s.run origin (l ++ l') = (s.run origin l).run origin l'
  | [], _, _ => rfl
  | op :: l, l', s => run_append origin l l' (s.step origin op)

/-- Block `k + 1` goes into the table and its call on the way. -/
def announce (k : Nat) : List Op := [.writer (.put (tower (k + 1))), .writer (.submit (tower (k + 1)))]

theorem run_announce {w : Writer} {cache : Cache} (hw : w.known = towers (k + 1)) (hs : w.submitting = [])
    (hb : tower (k + 1) ∉ w.buffer) (hk : k + 1 ≤ 500) :
    run origin ⟨w, cache⟩ (announce k) =
      ⟨{ w with buffer := w.buffer ++ [tower (k + 1)]
                mailbox := w.mailbox ++ [.call (tower (k + 1))]
                returned := w.returned.filter (· ≠ tower (k + 1)) }, cache⟩ := by
  have hjump : is_jumpblock (tower (k + 1)).number = true :=
    Bool.or_eq_true_iff.2 (.inl (decide_eq_true (by rw [tower_number]; exact hk)))
  have hput : w.put (tower (k + 1)) =
      { w with buffer := w.buffer ++ [tower (k + 1)]
               submitting := tower (k + 1) :: w.submitting
               returned := w.returned.filter (· ≠ tower (k + 1)) } := by
    have hknown : tower k ∈ w.known ∧ tower (k + 1) ∉ w.known := by
      rw [hw, mem_towers, mem_towers]
      omega
    have hpar : (tower (k + 1)).parent = some (tower k) := rfl
    unfold Writer.put
    rw [hpar]
    simp only [if_pos hknown, if_neg hb]
  simp only [announce, run, step, Writer.step, hput, Writer.submit, List.mem_cons_self, if_true, hjump,
    or_true, List.erase_cons_head, hs]

/-- Block `k + 1` is submitted and written by its own call, and the node restarted. -/
theorem run_written (hk : k + 1 ≤ 500) :
    (idle (k + 1)).run origin (announce k ++ [.writer .handle, .writer .restart]) = idle (k + 2) := by
  have hann := @run_announce origin k (idle (k + 1)).toWriter (fun _ => none) rfl rfl (by simp [idle]) hk
  rw [run_append, show idle (k + 1) = ⟨(idle (k + 1)).toWriter, fun _ => none⟩ from rfl, hann]
  have hnew : tower (k + 1) ∉ towers (k + 1) := by simp
  simp [run, step, Writer.step, Writer.handle, Writer.write, Writer.do_write, Cmd.block, idle,
    towers_succ (k + 1), hnew]

/-- The number of block `k` and the call of block `k + 1` reach the writer together,
which handles six messages before the chain knows block `k + 1`. -/
def follow (k : Nat) : List Op :=
  .writer (.put_block_number (tower k)) :: announce k ++ List.replicate 6 (.writer .handle) ++
    [.writer (.ets_add_alt (tower (k + 1)))]

theorem follow_eq (k : Nat) : follow k = [.writer (.put_block_number (tower k))] ++
    (announce k ++ (List.replicate 6 (.writer .handle) ++ [.writer (.ets_add_alt (tower (k + 1)))])) := rfl

/-- Two more numbers are on the way before the call: its answer comes after the write
of the first of the three. -/
theorem run_lag (hk : k + 1 ≤ 500) :
    (idle (k + 1)).run origin
      (List.replicate 2 (.writer (.put_block_number (tower k))) ++ follow k) =
      lag (k + 1) [tower (k + 1)] (fun _ => none) := by
  have hann := @run_announce origin k
    { (idle (k + 1)).toWriter with mailbox := List.replicate 3 (.cast (.num (tower k))) } (fun _ => none)
    rfl rfl (by simp [idle]) hk
  have hfirst : ((idle (k + 1)).run origin (List.replicate 2 (.writer (.put_block_number (tower k))))).run
      origin [.writer (.put_block_number (tower k))] =
      ⟨{ (idle (k + 1)).toWriter with mailbox := List.replicate 3 (.cast (.num (tower k))) }, fun _ => none⟩ := rfl
  rw [follow_eq, run_append, run_append, hfirst, run_append, hann]
  simp [run, step, Writer.step, Writer.handle, Writer.write, Writer.do_write, Cmd.block, idle, lag,
    Writer.ets_add_alt, towers_succ (k + 1), List.replicate]

/-- The next block is submitted while the writer is busy with block `k`, which is
written before the call is handled. -/
theorem run_follow {returned : List Block} {cache : Cache} (hk : k + 1 ≤ 500) :
    (lag k returned cache).run origin (follow k) =
      lag (k + 1) (tower (k + 1) :: returned.filter (· ≠ tower (k + 1))) cache := by
  have hne : tower (k + 1) ≠ tower k := fun h => by
    have := tower_inj h
    omega
  have hann := @run_announce origin k
    { (lag k returned cache).toWriter with
      mailbox := List.replicate 4 .write ++ [.cast (.num (tower k))] } cache
    rfl rfl (by simp [lag, hne]) hk
  have hfirst : (lag k returned cache).run origin [.writer (.put_block_number (tower k))] =
      ⟨{ (lag k returned cache).toWriter with
        mailbox := List.replicate 4 .write ++ [.cast (.num (tower k))] }, cache⟩ := rfl
  rw [follow_eq, run_append, hfirst, run_append, hann]
  simp [run, step, Writer.step, Writer.handle, Writer.write, Writer.do_write, Cmd.block, lag,
    Writer.ets_add_alt, towers_succ (k + 1), towers_succ k, List.replicate, hne, hne.symm]

/-- The blocks below `k + 1` are written one after the other. -/
def sync : Nat → List Op
  | 0 => []
  | k + 1 => sync k ++ (announce k ++ [.writer .handle, .writer .restart])

theorem run_sync : ∀ k : Nat, k ≤ 500 → (seed []).run origin (sync k) = idle (k + 1)
  | 0, _ => rfl
  | k + 1, hk => by
    rw [sync, run_append, run_sync k (by omega), run_written hk]

/-! ### Windows asked for meanwhile -/

/-- The cached window of block `k` has 99 miners, later blocks have none. -/
def Short (cache : Cache) (k : Nat) : Prop :=
  (∃ w, cache (tower k) = some w ∧ w.length = 99) ∧ ∀ j, k < j → cache (tower j) = none

theorem Short.update {cache : Cache} {w : List Bytes} (hc : ∀ j, k < j → cache (tower j) = none)
    (hw : w.length = 99) : Short (Function.update cache (tower k) (some w)) k := by
  refine ⟨⟨w, Function.update_self .., hw⟩, fun j hj => ?_⟩
  rw [Function.update_of_ne]
  · exact hc j hj
  · intro heq
    have := tower_inj heq
    omega

theorem shift_length {w w' : List Bytes} (h : shift w m = some w') : w'.length = w.length := by
  cases w with
  | nil => cases h
  | cons a w =>
    cases h
    simp

theorem shift_some {w : List Bytes} (h : w.length = 99) (m : Bytes) : ∃ w', shift w m = some w' ∧
    w'.length = 99 := by
  have hne : w ≠ [] := by
    rintro rfl
    cases h
  exact ⟨_, shift_eq hne m, (shift_length (shift_eq hne m)).trans h⟩

/-- A block in the buffer has its parent's window shifted. -/
theorem window_of_parent {cache : Cache} {w w' : List Bytes} (hb : tower (k + 1) ∈ s.buffer)
    (hc : s.cache (tower (k + 1)) = none) (hp : s.blockquick_window origin (tower k) = some (w, cache))
    (hw : shift w [] = some w') :
    s.blockquick_window origin (tower (k + 1)) =
      some (w', Function.update cache (tower (k + 1)) (some w')) := by
  unfold tower at hb hc ⊢
  unfold blockquick_window fetch
  simp only [hc, if_pos hb, hp, Option.bind_eq_bind, Option.bind_some, hw, Option.map_some]

theorem window_cached {w : List Bytes} (hc : s.cache b = some w) :
    s.blockquick_window origin b = some (w, s.cache) := by
  cases b <;> simp only [blockquick_window, fetch, hc]

theorem closed_towers : ∀ b ∈ towers k, ∀ p ∈ b.parent, p ∈ towers k := by
  intro b hb p hp
  obtain ⟨j, hj, rfl⟩ := List.mem_map.1 hb
  rw [List.mem_reverse, List.mem_range] at hj
  cases j with
  | zero => cases hp
  | succ j =>
    obtain rfl : tower j = p := Option.some.inj hp
    exact mem_towers.2 (by omega)

/-- SQL has 99 miners for block 97. -/
theorem window_stored (returned : List Block) : ∃ w, w.length = 99 ∧
    (lag 98 returned fun _ => none).blockquick_window origin (tower 97) =
      some (w, Function.update (fun _ => none) (tower 97) (some w)) := by
  refine ⟨full origin (tower 97), ?_, ?_⟩
  · rw [full, List.length_reverse, List.length_take, line_length, tower_number]
    rfl
  · have hbuf : tower 97 ∉ (lag 98 returned fun _ => none).buffer := fun h => by
      have := tower_inj (List.mem_singleton.1 h)
      omega
    have hq : do_query_blockquick_window origin (lag 98 returned fun _ => none).stored (tower 97) =
        full origin (tower 97) := do_query_eq closed_towers (mem_towers.2 (by decide))
    generalize hs : (lag 98 returned fun _ => none) = s at hbuf hq
    have hc : s.cache (tower 97) = none := by rw [← hs]; rfl
    have hcache : s.cache = fun _ => none := by rw [← hs]; rfl
    unfold tower at hbuf hq hc ⊢
    unfold blockquick_window fetch
    simp only [hc, if_neg hbuf, hq, Option.map_some, hcache]

theorem step_window {returned : List Block} {cache : Cache} {v : List Bytes × Cache}
    (h : (lag k returned cache).blockquick_window origin (tower k) = some v) :
    (lag k returned cache).step origin (.window (tower k)) = lag k returned v.2 := by
  have hk : tower k ∈ (lag k returned cache).known := mem_towers.2 (Nat.lt_succ_self k)
  unfold step
  simp only [if_pos hk, h, Option.map_some, Option.getD_some]
  rfl

theorem short_first (returned : List Block) : ∃ cache, Short cache 98 ∧
    (lag 98 returned fun _ => none).step origin (.window (tower 98)) = lag 98 returned cache := by
  obtain ⟨w, hlen, hw⟩ := @window_stored origin returned
  obtain ⟨w', hw', hlen'⟩ := shift_some hlen []
  have hwin := @window_of_parent origin _ 97 _ w w' (List.mem_singleton.2 rfl) rfl hw hw'
  refine ⟨_, Short.update (fun j hj => ?_) hlen', step_window hwin⟩
  rw [Function.update_of_ne]
  intro heq
  have := tower_inj heq
  omega

theorem short_next {cache : Cache} (h : Short cache k) (returned : List Block) : ∃ cache',
    Short cache' (k + 1) ∧
    (lag (k + 1) returned cache).step origin (.window (tower (k + 1))) = lag (k + 1) returned cache' := by
  obtain ⟨⟨w, hc, hlen⟩, hlate⟩ := h
  obtain ⟨w', hw', hlen'⟩ := shift_some hlen []
  have hp : (lag (k + 1) returned cache).blockquick_window origin (tower k) = some (w, cache) :=
    window_cached hc
  have hwin := window_of_parent (List.mem_singleton.2 rfl) (hlate _ (Nat.lt_succ_self k)) hp hw'
  exact ⟨_, Short.update (fun j hj => hlate j (by omega)) hlen', step_window hwin⟩

/-- The blocks up to 97 are written, 98 and 99 follow closely and their windows are
asked for before they are written, then block 100 follows and block 101 is submitted. -/
def race (late : Bool) : List Op :=
  let ask b := if late then [Op.window b] else []
  sync 97 ++ (List.replicate 2 (.writer (.put_block_number (tower 97))) ++ follow 97) ++ ask (tower 98) ++
    follow 98 ++ ask (tower 99) ++ follow 99 ++ announce 100

theorem run_race {returned : List Block} {cache : Cache} :
    ((lag 100 returned cache).run origin (announce 100)).buffer = [tower 100, tower 101] ∧
      ((lag 100 returned cache).run origin (announce 100)).cache = cache := by
  have hann := @run_announce origin 100 (lag 100 returned cache).toWriter cache rfl rfl
    (fun h => absurd (tower_inj (List.mem_singleton.1 h)) (by decide)) (by decide)
  rw [show lag 100 returned cache = ⟨(lag 100 returned cache).toWriter, cache⟩ from rfl, hann]
  exact ⟨rfl, rfl⟩

theorem step_window_writer (origin : Bytes) (s : Windows) (b : Block) :
    (s.step origin (.window b)).toWriter = s.toWriter := by
  unfold step
  dsimp only
  split <;> rfl

theorem run_race_first : ((seed []).run [7] (sync 97)).run [7]
    (List.replicate 2 (.writer (.put_block_number (tower 97))) ++ follow 97) =
      lag 98 [tower 98] fun _ => none := by
  rw [run_sync 97 (by decide), run_lag (by decide)]

/-- No request for a block below 99. -/
def Op.late : Op → Bool
  | .window b => 99 ≤ b.number
  | _ => true

theorem meetsAll_of_late (origin : Bytes) : ∀ (ops : List Op) (s : Windows), ops.all Op.late = true →
    MeetsAll origin s ops
  | [], s, _ => .nil s
  | op :: ops, s, h => by
    rw [List.all_cons, Bool.and_eq_true] at h
    refine .cons ?_ (meetsAll_of_late origin ops _ h.2)
    cases op with
    | window b => exact fun _ _ _ => of_decide_eq_true h.1
    | _ => trivial

theorem sync_late : ∀ k : Nat, (sync k).all Op.late = true
  | 0 => rfl
  | k + 1 => by
    rw [sync, List.all_append, sync_late k]
    rfl

/-- With the requests left out the windows agree, with blocks 100 and 101 in the buffer. -/
theorem windows_agree_buffered :
    Agree [7] ((seed []).run [7] (race false ++ [.window (tower 100)])) (tower 101) := by
  have hlate : (race false ++ [Op.window (tower 100)]).all Op.late = true := by
    simp only [race, List.all_append, sync_late, Bool.false_eq_true, if_false, Bool.true_and]
    simp [follow, announce, Op.late]
  have hmeets := meetsAll_of_late [7] (race false ++ [Op.window (tower 100)]) (seed []) hlate
  have hn : 100 < (tower 101).number := by
    rw [tower_number]
    decide
  refine windows_agree [7] [] (race false ++ [Op.window (tower 100)]) hmeets (tower 101) ?_ hn
  have hrun : ∃ returned cache, (seed []).run [7] (race false) =
      (lag 100 returned cache).run [7] (announce 100) := by
    have hfin : (seed []).run [7] (race false) =
        ((lag 99 (tower 99 :: [tower 98].filter (· ≠ tower 99)) fun _ => none).run [7] (follow 99)).run [7]
          (announce 100) := by
      simp only [race, Bool.false_eq_true, if_false, List.append_nil]
      rw [run_append, run_append, run_append, run_append, run_race_first, run_follow (by decide)]
    exact ⟨_, _, hfin.trans (congrArg (run [7] · (announce 100)) (run_follow (by decide)))⟩
  obtain ⟨returned, cache, hrun⟩ := hrun
  have hbuf := (@run_race [7] returned cache).1
  rw [← hrun] at hbuf
  rw [run_append]
  change Present (((seed []).run [7] (race false)).step [7] (.window (tower 100))) (tower 101)
  unfold Present
  rw [step_window_writer, hbuf]
  exact .inr (List.mem_cons_of_mem _ List.mem_cons_self)

/-- The window of block 101 misses a miner after the two requests. -/
theorem short_window_kept :
    ((seed []).run [7] (race true)).Present (tower 101) ∧ 100 < (tower 101).number ∧
      ¬ Agree [7] ((seed []).run [7] (race true)) (tower 101) := by
  have hrun : ∃ returned cache, Short cache 99 ∧
      (seed []).run [7] (race true) = (lag 100 returned cache).run [7] (announce 100) := by
    obtain ⟨c, hc, hwin⟩ := @short_first [7] [tower 98]
    obtain ⟨c', hc', hwin'⟩ := @short_next [7] 98 c hc (tower 99 :: [tower 98].filter (· ≠ tower 99))
    have hfin : (seed []).run [7] (race true) =
        ((lag 99 (tower 99 :: [tower 98].filter (· ≠ tower 99)) c').run [7] (follow 99)).run [7]
          (announce 100) := by
      simp only [race, if_true]
      rw [run_append, run_append, run_append, run_append, run_append, run_append, run_race_first]
      change run [7] (run [7] (step [7] (run [7] (step [7] (lag 98 [tower 98] fun _ => none)
        (.window (tower 98))) (follow 98)) (.window (tower 99))) (follow 99)) (announce 100) = _
      rw [hwin, run_follow (by decide), hwin']
    exact ⟨_, c', hc', hfin.trans (congrArg (run [7] · (announce 100)) (run_follow (by decide)))⟩
  obtain ⟨returned, cache, ⟨⟨w, hw, hlen⟩, hlate⟩, hrun⟩ := hrun
  obtain ⟨hbuf, hcache⟩ := @run_race [7] returned cache
  rw [← hrun] at hbuf hcache
  generalize (seed []).run [7] (race true) = s at hbuf hcache
  refine ⟨.inr (hbuf ▸ List.mem_cons_of_mem _ List.mem_cons_self), by rw [tower_number]; decide, fun h => ?_⟩
  obtain ⟨w₁, hw₁, hlen₁⟩ := shift_some hlen []
  obtain ⟨w₂, hw₂, hlen₂⟩ := shift_some hlen₁ []
  have h100 := @window_of_parent [7] s 99 _ w w₁ (hbuf ▸ List.mem_cons_self)
    (hcache ▸ hlate 100 (by decide)) (window_cached (hcache ▸ hw)) hw₁
  have hblock : s.block_window [7] (tower 101) = some (w₂, Function.update s.cache (tower 100) (some w₁)) := by
    have hchild := @block_window_child [7] s (tower 100) [] [] (by rw [tower_number]; decide)
    rw [h100, Option.bind_some, hw₂] at hchild
    exact hchild
  have heq := h.1
  rw [hblock] at heq
  have hr : (right (tower 101)).length = 100 := by
    rw [right, List.length_reverse, List.length_take, miners_length, tower_number]
    rfl
  rw [← Option.some.inj heq, hlen₂] at hr
  exact absurd hr (by decide)

end Windows
end Diode.L5
