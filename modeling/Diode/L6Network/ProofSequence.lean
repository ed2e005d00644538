import Mathlib.Order.Bounds.Basic
import Diode.L6Network.BlockquickSeq

/-!
# The sequence that proves a window

`find_sequence` wants the latest height from which on miners of more than the
threshold have a block, and from there the first height at which they have.
Miners without a block up to `max_block` come as `nil`, which is sorted before
all numbers when the order is descending: their weight is counted first, though
they prove nothing. The backward search then stops too late, and the forward
search from there ends at `nil`.

* `find_sequence_iff`: the search is right exactly if there is nothing to find,
  or the weight of these miners makes no difference at any height.
-/
namespace Diode.L6.Chain
open Diode.Core

/-- The weight of the miners that have a block from `lo` to `hi`. -/
def weight (c : Chain) (counts : SMap Bytes Nat) (lo : Nat) (hi : Int) : Nat :=
  ((counts.entries.filter fun e => c.mined lo hi e.1 ≠ []).map Prod.snd).sum

/-- The weight of the miners without a block up to `max_block`. -/
def missing (c : Chain) (counts : SMap Bytes Nat) (max_block : Int) : Nat :=
  ((counts.entries.filter fun e => c.mined 0 max_block e.1 = []).map Prod.snd).sum

/-- The list `n..m` the search is for. -/
def Proves (c : Chain) (counts : SMap Bytes Nat) (threshold : Nat) (max_block : Int)
    (range : List Nat) : Prop :=
  ∃ n m, range = List.range' n (m + 1 - n) ∧
    IsGreatest {n | threshold < c.weight counts n max_block} n ∧
    IsLeast {m : Nat | threshold < c.weight counts n m} m

/-- The search finds the sequence, and raises when no height has enough weight. -/
def Sufficient (c : Chain) (counts : SMap Bytes Nat) (threshold : Nat) (max_block : Int) : Prop :=
  match c.find_sequence counts threshold max_block with
  | some range => c.Proves counts threshold max_block range
  | none => ∀ n, c.weight counts n max_block ≤ threshold

variable {c : Chain} {counts : SMap Bytes Nat} {T lo v f : Nat} {M : Int}

/-! ## Weights -/

theorem sum_filter_mono {l : List (Bytes × Nat)} {P Q : Bytes × Nat → Bool}
    (h : ∀ e ∈ l, P e = true → Q e = true) :
    ((l.filter P).map Prod.snd).sum ≤ ((l.filter Q).map Prod.snd).sum := by
  induction l with
  | nil => exact Nat.le_refl _
  | cons e l ih =>
    have hl := ih fun e he => h e (List.mem_cons_of_mem _ he)
    have he := h e List.mem_cons_self
    by_cases hP : P e
    · simp [hP, he hP, hl]
    · by_cases hQ : Q e
      · simp [hP, hQ]
        omega
      · simp [hP, hQ, hl]

theorem sum_filter_or (l : List (Bytes × Nat)) {P Q : Bytes × Nat → Bool}
    (h : ∀ e, P e = true → Q e = false) :
    ((l.filter fun e => P e || Q e).map Prod.snd).sum =
      ((l.filter P).map Prod.snd).sum + ((l.filter Q).map Prod.snd).sum := by
  induction l with
  | nil => rfl
  | cons e l ih =>
    by_cases hP : P e
    · simp [hP, h e hP, ih]
      omega
    · by_cases hQ : Q e
      · simp [hP, hQ, ih]
        omega
      · simp [hP, hQ, ih]

theorem mined_ne_iff {hi : Int} {m : Bytes} :
    c.mined lo hi m ≠ [] ↔ ∃ n, n ≤ c.peak ∧ c.miner n = m ∧ lo ≤ n ∧ (n : Int) ≤ hi := by
  refine ⟨?_, ?_⟩
  · intro h
    obtain ⟨n, hn⟩ := List.exists_mem_of_ne_nil _ h
    exact ⟨n, mem_mined.1 hn⟩
  · intro hx
    obtain ⟨n, hn⟩ := hx
    exact List.ne_nil_of_mem (mem_mined.2 hn)

theorem weight_mono {lo' : Nat} {hi hi' : Int} (hl : lo' ≤ lo) (hh : hi ≤ hi') :
    c.weight counts lo hi ≤ c.weight counts lo' hi' := by
  refine sum_filter_mono fun e _ he => ?_
  rw [decide_eq_true_eq, mined_ne_iff] at he ⊢
  obtain ⟨n, hp, hm, h1, h2⟩ := he
  exact ⟨n, hp, hm, by omega, by omega⟩

theorem weight_past_peak (h : c.peak < lo) : c.weight counts lo M = 0 := by
  have hnone : (counts.entries.filter fun e => c.mined lo M e.1 ≠ []) = [] := by
    refine List.filter_eq_nil_iff.2 fun e _ he => ?_
    rw [decide_eq_true_eq, mined_ne_iff] at he
    obtain ⟨n, hp, -, h1, -⟩ := he
    omega
  rw [weight, hnone]
  rfl

/-- The entries of a query weigh what their miners do. -/
theorem total_query {l : List (Number × Bytes)} {q : Bytes → Number} (P : Number → Bool)
    (hl : l.Perm ((counts.entries.map Prod.fst).map fun m => (q m, m))) :
    total counts (l.filter fun e => P e.1) =
      ((counts.entries.filter fun e => P (q e.1)).map Prod.snd).sum := by
  have hperm := ((hl.filter fun e => P e.1).map fun e => (counts.get e.2).getD 0).sum_eq
  rw [total, hperm, List.map_map, List.filter_map, List.map_map]
  refine congrArg List.sum (List.map_congr_left fun e he => ?_)
  have hget := (SMap.mem_iff counts e.1 e.2).1 (List.mem_filter.1 he).1
  simp only [Function.comp, hget, Option.getD_some]

/-! ## The backward search -/

/-- The number a query lists for a miner. -/
abbrev last (c : Chain) (M : Int) (m : Bytes) : Number := (c.mined 0 M m).max?

/-- A miner is listed at or above `v` if it has a block there, or none at all. -/
theorem le_last_iff (m : Bytes) : (v : Number) ≤ c.last M m ↔ c.mined 0 M m = [] ∨
    c.mined v M m ≠ [] := by
  rw [mined_ne_iff]
  unfold last
  cases h : (c.mined 0 M m).max? with
  | none => exact ⟨fun _ => .inl (List.max?_eq_none_iff.1 h), fun _ => (le_top : (v : Number) ≤ ⊤)⟩
  | some k =>
    obtain ⟨hmem, hmax⟩ := List.max?_eq_some_iff.1 h
    have hk := mem_mined.1 hmem
    change (WithTop.some v : Number) ≤ WithTop.some k ↔ _
    rw [WithTop.coe_le_coe]
    refine ⟨?_, ?_⟩
    · exact fun hv => .inr ⟨k, hk.1, hk.2.1, hv, hk.2.2.2⟩
    · rintro (h0 | ⟨n, hp, hm, h1, h2⟩)
      · exact absurd h0 (List.ne_nil_of_mem hmem)
      · exact h1.trans (hmax n (mem_mined.2 ⟨hp, hm, Nat.zero_le n, h2⟩))

theorem top_le_last_iff (m : Bytes) : ⊤ ≤ c.last M m ↔ c.mined 0 M m = [] := by
  unfold last
  cases h : (c.mined 0 M m).max? with
  | none => exact ⟨fun _ => List.max?_eq_none_iff.1 h, fun _ => le_refl (⊤ : Number)⟩
  | some k =>
    refine ⟨fun hk => ?_, fun h0 => absurd h0 (List.ne_nil_of_mem (List.max?_eq_some_iff.1 h).1)⟩
    exact absurd (WithTop.coe_lt_top k) (not_lt.2 hk)

theorem total_backward (counts : SMap Bytes Nat) (M : Int) (v : Nat) {l : List (Number × Bytes)}
    (hl : l.Perm (c.query_last_blocks_by_miners 0 M (counts.entries.map Prod.fst))) :
    total counts (l.filter fun e => (v : Number) ≤ e.1) = c.missing counts M + c.weight counts v M := by
  rw [@total_query counts l (c.last M) (fun n => (v : Number) ≤ n) hl, missing, weight, ← sum_filter_or]
  · congr 3
    funext e
    rw [Bool.eq_iff_iff, decide_eq_true_eq, Bool.or_eq_true, decide_eq_true_eq, decide_eq_true_eq]
    exact le_last_iff e.1
  · intro e he
    rw [decide_eq_true_eq] at he
    rw [decide_eq_false_iff_not, not_not]
    by_contra hne
    obtain ⟨n, hp, hm, h1, h2⟩ := mined_ne_iff.1 hne
    exact List.ne_nil_of_mem (mem_mined.2 ⟨hp, hm, Nat.zero_le n, h2⟩) he

theorem total_nil (counts : SMap Bytes Nat) (M : Int) {l : List (Number × Bytes)}
    (hl : l.Perm (c.query_last_blocks_by_miners 0 M (counts.entries.map Prod.fst))) :
    total counts (l.filter fun e => ⊤ ≤ e.1) = c.missing counts M := by
  rw [@total_query counts l (c.last M) (fun n => ⊤ ≤ n) hl, missing]
  congr 3
  funext e
  exact decide_eq_decide.2 (top_le_last_iff e.1)

theorem succ_le_iff (v : Nat) (x : Number) : ((v + 1 : Nat) : Number) ≤ x ↔ (v : Number) < x := by
  cases x with
  | none => exact ⟨fun _ => WithTop.coe_lt_top v, fun _ => (le_top : _ ≤ (⊤ : Number))⟩
  | some k =>
    change ((v + 1 : Nat) : Number) ≤ (k : Number) ↔ (v : Number) < (k : Number)
    simp only [Nat.cast_withTop, WithTop.coe_le_coe, WithTop.coe_lt_coe]
    exact Nat.succ_le_iff

variable (c counts T M) in
/-- The backward search. -/
def backward : Option Number :=
  crossing counts T ((c.query_last_blocks_by_miners 0 M (counts.entries.map Prod.fst)).insertionSort fun a b => b.1 ≤ a.1) 0

/-- It stops where the weight, with that of the miners without a block, first exceeds the threshold. -/
theorem backward_some (h : c.backward counts T M = some (v : Number)) :
    T < c.missing counts M + c.weight counts v M ∧ c.missing counts M + c.weight counts
      (v + 1) M ≤ T := by
  obtain ⟨h1, h2⟩ := crossing_desc (sorted_desc _) h
  have hperm := List.perm_insertionSort (fun a b : Number × Bytes => b.1 ≤ a.1)
    (c.query_last_blocks_by_miners 0 M (counts.entries.map Prod.fst))
  rw [total_backward counts M v hperm] at h1
  have hsucc := total_backward counts M (v + 1) hperm
  simp only [succ_le_iff] at hsucc
  exact ⟨h1, hsucc ▸ h2⟩

theorem backward_nil (h : c.backward counts T M = some ⊤) : T < c.missing counts M := by
  obtain ⟨h1, -⟩ := crossing_desc (sorted_desc _) h
  rwa [total_nil counts M (List.perm_insertionSort _ _)] at h1

/-- It stops if all miners together exceed the threshold. -/
theorem exists_backward (h : T < c.missing counts M + c.weight counts 0 M) :
    ∃ n, c.backward counts T M = some n := by
  refine crossing_some ?_ (Nat.zero_le T)
  rw [Nat.zero_add]
  refine lt_of_lt_of_le h ?_
  rw [← total_backward counts M 0 (List.perm_insertionSort (fun a b : Number × Bytes => b.1 ≤ a.1) _)]
  exact total_filter_le _ _

/-! ## The forward search -/

abbrev first (c : Chain) (v : Nat) (M : Int) (m : Bytes) : Number := (c.mined v M m).min?

theorem first_le_iff (hf : (f : Int) ≤ M) (m : Bytes) : c.first v M m ≤ (f : Number) ↔
    c.mined v f m ≠ [] := by
  rw [mined_ne_iff]
  unfold first
  cases h : (c.mined v M m).min? with
  | none =>
    have hnil := List.min?_eq_none_iff.1 h
    refine ⟨fun hle => absurd (WithTop.coe_lt_top f) (not_lt.2 hle), ?_⟩
    intro hx
    obtain ⟨n, hp, hm, h1, h2⟩ := hx
    exact absurd hnil (List.ne_nil_of_mem (mem_mined.2 ⟨hp, hm, h1, h2.trans hf⟩))
  | some k =>
    obtain ⟨hmem, hmin⟩ := List.min?_eq_some_iff.1 h
    have hk := mem_mined.1 hmem
    change (WithTop.some k : Number) ≤ WithTop.some f ↔ _
    rw [WithTop.coe_le_coe]
    refine ⟨?_, ?_⟩
    · exact fun hle => ⟨k, hk.1, hk.2.1, hk.2.2.1, by omega⟩
    · intro hx
      obtain ⟨n, hp, hm, h1, h2⟩ := hx
      have := hmin n (mem_mined.2 ⟨hp, hm, h1, h2.trans hf⟩)
      omega

theorem first_lt_top_iff (m : Bytes) : c.first v M m < ⊤ ↔ c.mined v M m ≠ [] := by
  unfold first
  cases h : (c.mined v M m).min? with
  | none => exact ⟨fun hlt => absurd hlt (lt_irrefl (⊤ : Number)), fun hne =>
      absurd (List.min?_eq_none_iff.1 h) hne⟩
  | some k => exact ⟨fun _ => List.ne_nil_of_mem (List.min?_eq_some_iff.1 h).1, fun _ =>
      WithTop.coe_lt_top k⟩

variable (c v M counts T) in
/-- The list the forward search goes through. -/
def forwardList : List (Number × Bytes) :=
  (c.query_last_blocks_by_miners_forward v M (counts.entries.map Prod.fst)).insertionSort fun a b => a.1 ≤ b.1

theorem forwardList_perm : (c.forwardList counts v M).Perm
    ((counts.entries.map Prod.fst).map fun m => (c.first v M m, m)) :=
  List.perm_insertionSort _ _

theorem forward_mem {n : Nat} (h : c.find_sequence_forward v M counts T = some (n : Number)) :
    v ≤ n ∧ (n : Int) ≤ M := by
  obtain ⟨l₁, m, l₂, hsplit, -, -⟩ := crossing_split (Nat.zero_le _) h
  have hmem : ((n : Number), m) ∈ c.forwardList counts v M := by
    rw [forwardList, hsplit]
    simp
  rw [forwardList_perm.mem_iff, List.mem_map] at hmem
  obtain ⟨m', -, he⟩ := hmem
  have hmin : (c.mined v M m').min? = some n := congrArg Prod.fst he
  have hk := mem_mined.1 (List.min?_eq_some_iff.1 hmin).1
  exact ⟨hk.2.2.1, hk.2.2.2⟩

/-- It stops at the first height with enough weight. -/
theorem forward_some {n : Nat} (h : c.find_sequence_forward v M counts T = some (n : Number)) :
    IsLeast {m : Nat | T < c.weight counts v m} n := by
  obtain ⟨hvn, hnM⟩ := forward_mem h
  obtain ⟨h1, h2⟩ := crossing_asc (sorted_asc _) h
  change T < total counts ((c.forwardList counts v M).filter _) at h1
  change total counts ((c.forwardList counts v M).filter _) ≤ T at h2
  have hle : ∀ f : Nat, (f : Int) ≤ M →
      total counts ((c.forwardList counts v M).filter fun e => e.1 ≤ (f : Number)) = c.weight counts
        v f := fun f hf => by
    rw [@total_query counts _ (c.first v M) (fun n => n ≤ (f : Number)) forwardList_perm, weight]
    congr 3
    funext e
    exact decide_eq_decide.2 (first_le_iff hf e.1)
  have henough : T < c.weight counts v n := by rwa [← hle n hnM]
  refine ⟨henough, fun m hm => ?_⟩
  by_contra hlt
  obtain ⟨g, rfl⟩ : ∃ g, n = g + 1 := ⟨n - 1, by omega⟩
  have hlast : total counts ((c.forwardList counts v M).filter fun e =>
    e.1 < ((g + 1 : Nat) : Number)) =
      c.weight counts v g := by
    rw [← hle g (by omega)]
    congr 2
    funext e
    refine decide_eq_decide.2 ?_
    rw [← not_le, succ_le_iff, not_lt]
  rw [hlast] at h2
  have hmono : c.weight counts v m ≤ c.weight counts v g := weight_mono (Nat.le_refl v) (by omega)
  exact absurd (hm.trans_le hmono) (Nat.not_lt.2 h2)

/-- It ends at a number exactly if all blocks from there on have enough weight. -/
theorem forward_number (hT : T < c.weight counts v M) : ∃ n :
    Nat, c.find_sequence_forward v M counts T = some (n : Number) := by
  have htotal : total counts ((c.forwardList counts v M).filter fun e => e.1 < ⊤) =
    c.weight counts v M := by
    rw [@total_query counts _ (c.first v M) (fun n => n < ⊤) forwardList_perm, weight]
    congr 3
    funext e
    exact decide_eq_decide.2 (first_lt_top_iff e.1)
  obtain ⟨n, hn⟩ : ∃ n, c.find_sequence_forward v M counts T = some n := by
    refine crossing_some ?_ (Nat.zero_le T)
    rw [Nat.zero_add]
    exact (htotal ▸ hT).trans_le (total_filter_le _ _)
  cases n with
  | some n => exact ⟨n, hn⟩
  | none =>
    have h := (crossing_asc (sorted_asc _) hn).2
    change total counts ((c.forwardList counts v M).filter fun e => e.1 < ⊤) ≤ T at h
    omega

theorem weight_of_forward {n : Nat} (h : c.find_sequence_forward v M counts T = some (n : Number)) :
    T < c.weight counts v M :=
  (forward_some h).1.trans_le (weight_mono (Nat.le_refl v) (forward_mem h).2)

/-! ## Both -/

theorem find_sequence_eq_some {range : List Nat} (h : c.find_sequence counts T M = some range) :
    ∃ v f : Nat, c.backward counts T M = some (v : Number) ∧ c.find_sequence_forward v M counts T =
      some (f : Number) ∧
      range = List.range' v (f + 1 - v) := by
  unfold find_sequence at h
  split at h
  · rename_i v hv
    split at h
    · rename_i f hf
      exact ⟨v, f, hv, hf, (Option.some.inj h).symm⟩
    · cases h
  · cases h

/-- No height above the one where the backward search stops has enough weight. -/
theorem le_of_backward (hv : c.backward counts T M = some (v : Number)) {n : Nat}
    (hn : T < c.missing counts M + c.weight counts n M) : n ≤ v := by
  have h2 := (backward_some hv).2
  by_contra hlt
  have : c.weight counts n M ≤ c.weight counts (v + 1) M := weight_mono (by omega) (le_refl M)
  omega

theorem find_sequence_iff (c : Chain) (counts : SMap Bytes Nat) (threshold : Nat) (max_block : Int) :
    c.Sufficient counts threshold max_block ↔
      c.weight counts 0 max_block ≤ threshold ∨
        ∀ n, threshold < c.missing counts max_block + c.weight counts n max_block →
          threshold < c.weight counts n max_block := by
  unfold Sufficient
  refine ⟨?_, ?_⟩
  · intro h
    cases hr : c.find_sequence counts threshold max_block with
    | none =>
      rw [hr] at h
      exact .inl (h 0)
    | some range =>
      obtain ⟨v, f, hv, hf, -⟩ := find_sequence_eq_some hr
      refine .inr fun n hn => (weight_of_forward hf).trans_le
        (weight_mono (le_of_backward hv hn) (le_refl _))
  · intro h
    by_cases h0 : c.weight counts 0 max_block ≤ threshold
    · cases hr : c.find_sequence counts threshold max_block with
      | none => exact fun n => (weight_mono (Nat.zero_le n) (le_refl _)).trans h0
      | some range =>
        obtain ⟨v, f, hv, hf, -⟩ := find_sequence_eq_some hr
        have := (weight_of_forward hf).trans_le (weight_mono (Nat.zero_le v) (le_refl max_block))
        omega
    · have h := h.resolve_left h0
      obtain ⟨n, hn⟩ := @exists_backward c counts threshold max_block (by omega)
      cases n with
      | none =>
        have hmissing := backward_nil hn
        have hpast : c.weight counts (c.peak + 1) max_block = 0 := weight_past_peak (Nat.lt_succ_self _)
        have := h (c.peak + 1) (by omega)
        omega
      | some v =>
        have hv := h v (backward_some hn).1
        obtain ⟨f, hf⟩ := forward_number hv
        rw [find_sequence_of hn hf]
        refine ⟨v, f, rfl, ⟨hv, fun n hn' => le_of_backward hn ?_⟩, forward_some hf⟩
        exact lt_of_lt_of_le hn' (Nat.le_add_left ..)

/-- Miner 1 has blocks 0 to 9 and weight 2, so block 9 is enough for threshold 1.
Miner 0 has no block, and its weight of 2 stops the search at `nil`. -/
theorem missing_miner_raises :
    ¬(⟨fun _ => [1], 9⟩ : Chain).Sufficient (.put (.put .empty [1] 2) [0] 2) 1 9 := by
  intro h
  have hnone : (⟨fun _ => [1], 9⟩ : Chain).find_sequence (.put (.put .empty [1] 2) [0] 2) 1 9 =
    none := by decide +kernel
  rw [Sufficient, hnone] at h
  exact absurd (h 9) (by decide +kernel)

end Diode.L6.Chain
