import Mathlib.Order.Bounds.Basic
import Diode.L5Chain.ChainIndex

/-!
# Fork choice

A block becomes the peak when it extends the peak, or when it is heavier. Every
block is heavier than its parent, so after any deliveries the peak is as heavy
as any block delivered (`heaviest_of_delivers`), whatever the order.

* `fork_choice_converges`: two orders of the same blocks end with peaks of the
  same weight, and with the same peak and line when one block is heaviest.
-/
namespace Diode.L5
open Diode.Core Block

/-- Difficulties are positive, for the minimum is. -/
theorem Clock.total_difficulty_lt (c : Clock) {b p : Block} (h : b.parent = some p) :
    c.total_difficulty p < c.total_difficulty b := by
  cases b with
  | genesis m => cases h
  | child q m s =>
    cases h
    have hcap : ∀ d, min_difficulty ≤ if d < min_difficulty then min_difficulty else d := fun d => by
      split <;> omega
    have hmin : min_difficulty ≤ c.do_difficulty (child p m s) := hcap _
    have hpos : 0 < c.difficulty (child p m s) := by
      unfold difficulty
      split
      · exact Nat.one_pos
      · exact Nat.lt_of_lt_of_le (by decide) hmin
    simp only [total_difficulty]
    omega

namespace Chain

variable {c : Clock} {s : Chain} {b start : Block} {D done : List Block} {ops : List Op}

/-- Blocks whose parents are among them, down to a common start. -/
def Above (start : Block) (D : List Block) : Prop := ∀ b ∈ D, ∃ p, b.parent = some p ∧
    (p = start ∨ p ∈ D)

/-- The operations hand the blocks `D` to `add_block`, each after its parent and
when it is known; `done` are those handed over before. Blocks are also stored, and
written to SQL, in between. -/
def Delivers (c : Clock) (start : Block) (D : List Block) : List Block → Chain → List Op → Prop
  | done, _, [] => ∀ b ∈ D, b ∈ done
  | done, s, .add b :: ops =>
    (b ∈ D ∧ b ∈ s.flushed.stored ∧ ∀ p ∈ b.parent, p = start ∨ p ∈ done) ∧
      Delivers c start D (b :: done) (step c s (.add b)) ops
  | done, s, .put b :: ops => Delivers c start D done (step c s (.put b)) ops
  | done, s, .write :: ops => Delivers c start D done (step c s .write) ops

/-- The peak is a block of the list, and none of the list is heavier. -/
def Heaviest (c : Clock) (l : List Block) (b : Block) : Prop :=
  b ∈ l ∧ ∀ x ∈ l, c.total_difficulty x ≤ c.total_difficulty b

/-! ## One delivery -/

theorem Heaviest.cons_of_le {l : List Block} {x : Block} (h : Heaviest c l b)
    (hx : c.total_difficulty x ≤ c.total_difficulty b) : Heaviest c (x :: l) b := by
  refine ⟨List.mem_cons_of_mem _ h.1, fun y hy => ?_⟩
  rcases List.mem_cons.1 hy with rfl | hy
  · exact hx
  · exact h.2 y hy

theorem Heaviest.cons_of_lt {l : List Block} {x : Block} (h : Heaviest c l b)
    (hx : c.total_difficulty b < c.total_difficulty x) : Heaviest c (x :: l) x := by
  refine ⟨List.mem_cons_self, fun y hy => ?_⟩
  rcases List.mem_cons.1 hy with rfl | hy
  · exact Nat.le_refl _
  · exact Nat.le_of_lt (Nat.lt_of_le_of_lt (h.2 y hy) hx)

/-- `add_block` keeps the peak or takes the block, whichever is heavier. -/
theorem peak_add_block (hst : b ∈ s.flushed.stored) (hn : 1 ≤ b.number) :
    (c.total_difficulty b ≤ c.total_difficulty s.peak ∧ (s.add_block c b).2.peak = s.peak) ∨
      (c.total_difficulty s.peak < c.total_difficulty b ∧ (s.add_block c b).2.peak = b) := by
  by_cases hp : b.parent = some s.peak
  · exact .inr ⟨c.total_difficulty_lt hp, by rw [add_block_extend hst hp]⟩
  · by_cases hle : c.total_difficulty b ≤ c.total_difficulty s.peak
    · refine .inl ⟨hle, ?_⟩
      unfold Chain.add_block
      rw [if_neg (not_not.2 hst), if_neg (by omega), if_pos ⟨hp, hle⟩]
    · have hlt := Nat.lt_of_not_le hle
      exact .inr ⟨hlt, by rw [add_block_replace ⟨hst, hn, hp, hlt⟩]⟩

theorem heaviest_add_block {l : List Block} (h : Heaviest c l s.peak) (hst : b ∈ s.flushed.stored)
    (hn : 1 ≤ b.number) :
    Heaviest c (b :: l) (step c s (.add b)).peak := by
  change Heaviest c (b :: l) (s.add_block c b).2.peak
  rcases peak_add_block (c := c) hst hn with ⟨hle, hpeak⟩ | ⟨hlt, hpeak⟩
  · rw [hpeak]
    exact h.cons_of_le hle
  · rw [hpeak]
    exact h.cons_of_lt hlt

/-! ## A run of deliveries -/

theorem number_pos_of_above (hD : Above start D) (hb : b ∈ D) : 1 ≤ b.number := by
  obtain ⟨p, hp, -⟩ := hD b hb
  rw [number_of_parent hp]
  omega

theorem heaviest_of_delivers (hD : Above start D) : ∀ {ops : List Op} {done : List Block} {s : Chain},
    Delivers c start D done s ops → (∀ b ∈ done, b ∈ D) → Heaviest c (done ++ [start]) s.peak →
      ∃ l, (∀ b, b ∈ l ↔ b ∈ D) ∧ Heaviest c (l ++ [start]) (run c s ops).peak
  | [], done, s, h, hsub, hs => ⟨done, fun b => ⟨hsub b, h b⟩, hs⟩
  | .add b :: ops, done, s, h, hsub, hs => by
    obtain ⟨⟨hb, hst, -⟩, h⟩ := h
    have hs' : Heaviest c ((b :: done) ++ [start]) (step c s (.add b)).peak :=
      heaviest_add_block hs hst (number_pos_of_above hD hb)
    refine heaviest_of_delivers hD (s := step c s (.add b)) h (fun x hx => ?_) hs'
    rcases List.mem_cons.1 hx with rfl | hx
    · exact hb
    · exact hsub x hx
  | .put b :: ops, done, s, h, hsub, hs => by
    refine heaviest_of_delivers hD (s := step c s (.put b)) h hsub ?_
    change Heaviest c _ (s.put_new_block b).peak
    rwa [peak_put_new_block]
  | .write :: ops, done, s, h, hsub, hs => by
    refine heaviest_of_delivers hD (s := step c s .write) h hsub ?_
    change Heaviest c _ s.write.peak
    rwa [peak_write]

/-- All blocks above the start are heavier than it. -/
theorem start_lt (hD : Above start D) : ∀ {b : Block}, b ∈ D →
    c.total_difficulty start < c.total_difficulty b
  | genesis m, hb => by
    obtain ⟨p, hp, -⟩ := hD _ hb
    cases hp
  | child q m x, hb => by
    obtain ⟨p, hp, hcase⟩ := hD _ hb
    have hlt := c.total_difficulty_lt hp
    cases hp
    rcases hcase with rfl | hq
    · exact hlt
    · exact Nat.lt_trans (start_lt hD hq) hlt

/-- After the deliveries the peak is a heaviest block of those delivered. -/
theorem heaviest_delivered (hD : Above s.peak D) (hne : D ≠ []) (h : Delivers c s.peak D [] s ops) :
    Heaviest c D (run c s ops).peak := by
  obtain ⟨l, hl, hpeak, hmax⟩ := heaviest_of_delivers hD h nofun (by simp [Heaviest])
  have hle : ∀ x ∈ D, c.total_difficulty x ≤ c.total_difficulty (run c s ops).peak := fun x hx =>
    hmax x (List.mem_append_left _ ((hl x).2 hx))
  refine ⟨?_, hle⟩
  rcases List.mem_append.1 hpeak with hpeak | hpeak
  · exact (hl _).1 hpeak
  · obtain ⟨b, hb⟩ := List.exists_mem_of_ne_nil D hne
    have hlt := start_lt (c := c) hD hb
    have := hle b hb
    rw [List.mem_singleton.1 hpeak] at this
    omega

theorem Heaviest.unique {x : Block} (h : Heaviest c D x) (hb : b ∈ D)
    (huniq : ∀ y ∈ D, y ≠ b → c.total_difficulty y < c.total_difficulty b) : x = b := by
  by_contra hne
  have := huniq x h.1 hne
  have := h.2 b hb
  omega

/-- From any state a node comes to, two deliveries of the same blocks above its
peak end with peaks of the same total difficulty, the greatest of the blocks
delivered. If one block alone has it, it is the peak of both, and the SQL column
of both names its ancestor at every height, and no other block. -/
theorem fork_choice_converges (c : Clock) (m : Bytes) (before : List Op) (D : List Block)
    (ops₁ ops₂ : List Op)
    (hne : D ≠ []) (hD : Above (run c (seed m) before).peak D)
    (h₁ : Delivers c (run c (seed m) before).peak D [] (run c (seed m) before) ops₁)
    (h₂ : Delivers c (run c (seed m) before).peak D [] (run c (seed m) before) ops₂) :
    let s₁ := run c (run c (seed m) before) ops₁
    let s₂ := run c (run c (seed m) before) ops₂
    c.total_difficulty s₁.peak = c.total_difficulty s₂.peak ∧
      IsGreatest {t | ∃ b ∈ D, c.total_difficulty b = t} (c.total_difficulty s₁.peak) ∧
      ∀ b ∈ D, (∀ y ∈ D, y ≠ b → c.total_difficulty y < c.total_difficulty b) →
        s₁.peak = b ∧ s₂.peak = b ∧ ∀ n, s₁.peak.ancestor n = s₂.peak.ancestor n ∧
          s₁.flushed.select n = (b.ancestor n).toList ∧
            s₂.flushed.select n = (b.ancestor n).toList := by
  intro s₁ s₂
  have hmax₁ := heaviest_delivered hD hne h₁
  have hmax₂ := heaviest_delivered hD hne h₂
  have hnorm := (seed_coherent m).toNormative.run (c := c) before
  refine ⟨le_antisymm (hmax₂.2 _ hmax₁.1) (hmax₁.2 _ hmax₂.1), ⟨⟨_, hmax₁.1, rfl⟩, ?_⟩,
    fun b hb huniq => ?_⟩
  · intro t h
    obtain ⟨x, hx, rfl⟩ := h
    exact hmax₁.2 x hx
  · have hp₁ := hmax₁.unique hb huniq
    have hp₂ := hmax₂.unique hb huniq
    refine ⟨hp₁, hp₂, fun n => ⟨by rw [hp₁, hp₂], ?_, ?_⟩⟩
    · rw [(hnorm.run ops₁).sql n, hp₁]
    · rw [(hnorm.run ops₂).sql n, hp₂]

instance decDelivers (c : Clock) (start : Block) (D : List Block) :
    ∀ (ops : List Op) (done : List Block) (s : Chain),
    Decidable (Delivers c start D done s ops)
  | [], done, _ => inferInstanceAs (Decidable (∀ b ∈ D, b ∈ done))
  | .add b :: ops, done, s =>
    @instDecidableAnd _ _ inferInstance (decDelivers c start D ops (b :: done) (step c s (.add b)))
  | .put b :: ops, done, s => decDelivers c start D ops done (step c s (.put b))
  | .write :: ops, done, s => decDelivers c start D ops done (step c s .write)

/-- Two blocks on one branch and one on another, in two orders. -/
theorem fork_choice_converges_branches :
    let c : Clock := ⟨stamp, true, 0⟩
    let a := child (genesis []) [1] []
    let b := child a [1] []
    let x := child (genesis []) [2] []
    let s₁ := run c (seed []) [.put a, .add a, .put b, .add b, .put x, .add x]
    let s₂ := run c (seed []) [.put x, .add x, .put a, .put b, .add a, .write, .add b]
    s₁.peak = b ∧ s₂.peak = b := by
  intro c a b x s₁ s₂
  have h := (fork_choice_converges c [] [] [a, b, x] [.put a, .add a, .put b, .add b, .put x, .add x]
    [.put x, .add x, .put a, .put b, .add a, .write, .add b] (by decide) (by unfold Above; decide)
      (by decide) (by decide)).2.2
    b (by decide) (by decide)
  exact ⟨h.1, h.2.1⟩

end Chain
end Diode.L5
