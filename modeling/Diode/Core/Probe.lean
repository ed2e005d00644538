import Mathlib.Algebra.Ring.Nat
import Mathlib.Data.Nat.ModEq
import Mathlib.Data.Nat.GCD.Basic
import Mathlib.Data.Finset.Card

/-!
# Probing a ring of cells

Open addressing with a fixed stride: a search starts at some cell of a ring and
steps by `stride` until it meets a cell where it stops. `walk` is that loop with
a bound on the steps; as many steps as there are cells are enough
(`walk_ring_eq_none`). The cells it visits are those that agree with its start
modulo the common divisor of stride and size (`exists_visit_iff`), and one of
them is free exactly if they are more than the items they hold
(`Held.exists_free`).
-/
namespace Diode.Core.Probe

variable {stride cap i j n : Nat} {stop : Nat → Bool}

/-- Where a search from `i` is after `n` steps. -/
def visit (stride cap i n : Nat) : Nat := (i + stride * n) % cap

/-- The search, given up after `fuel` cells. -/
def walk (stride cap : Nat) (stop : Nat → Bool) : Nat → Nat → Option Nat
  | 0, _ => none
  | fuel + 1, i => if stop i then some i else walk stride cap stop fuel ((i + stride) % cap)

theorem visit_lt (h : 0 < cap) : visit stride cap i n < cap := Nat.mod_lt _ h

theorem visit_zero (h : i < cap) : visit stride cap i 0 = i := by
  unfold visit
  rw [Nat.mul_zero, Nat.add_zero, Nat.mod_eq_of_lt h]

theorem visit_succ : visit stride cap i (n + 1) = visit stride cap ((i + stride) % cap) n := by
  unfold visit
  rw [Nat.mod_add_mod, Nat.mul_succ]
  congr 1
  omega

/-- A search is back where it was after as many steps as there are cells. -/
theorem visit_mod : visit stride cap i (n % cap) = visit stride cap i n := by
  unfold visit
  rw [Nat.add_mod, Nat.mul_mod_mod, ← Nat.add_mod]

theorem walk_eq_some {fuel : Nat} (hi : i < cap) (h : walk stride cap stop fuel i = some j) :
    ∃ n, j = visit stride cap i n ∧ stop j = true ∧ ∀ m < n, stop (visit stride cap i m) = false := by
  induction fuel generalizing i with
  | zero => simp [walk] at h
  | succ fuel ih =>
    rw [walk] at h
    split at h
    · rename_i hs
      cases h
      exact ⟨0, (visit_zero hi).symm, hs, fun m hm => absurd hm (Nat.not_lt_zero m)⟩
    · rename_i hs
      obtain ⟨n, hj, hst, hb⟩ := ih (Nat.mod_lt _ (by omega)) h
      refine ⟨n + 1, by rw [visit_succ]; exact hj, hst, fun m hm => ?_⟩
      cases m with
      | zero => rw [visit_zero hi]; exact Bool.eq_false_iff.2 hs
      | succ m => rw [visit_succ]; exact hb m (by omega)

theorem walk_eq_none {fuel : Nat} (hi : i < cap) :
    walk stride cap stop fuel i = none ↔ ∀ n < fuel, stop (visit stride cap i n) = false := by
  induction fuel generalizing i with
  | zero => simp [walk]
  | succ fuel ih =>
    rw [walk]
    refine ⟨?_, ?_⟩
    · intro h n hn
      split at h
      · cases h
      · rename_i hs
        cases n with
        | zero => rw [visit_zero hi]; exact Bool.eq_false_iff.2 hs
        | succ n =>
          rw [visit_succ]
          exact (ih (Nat.mod_lt _ (by omega))).1 h n (by omega)
    · intro h
      have h0 := h 0 (by omega)
      rw [visit_zero hi] at h0
      rw [h0, if_neg Bool.false_ne_true, ih (Nat.mod_lt _ (by omega))]
      intro n hn
      rw [← visit_succ]
      exact h (n + 1) (by omega)

/-- A search that has gone round never stops. -/
theorem walk_ring_eq_none (hi : i < cap) :
    walk stride cap stop cap i = none ↔ ∀ n, stop (visit stride cap i n) = false := by
  rw [walk_eq_none hi]
  refine ⟨?_, ?_⟩
  · intro h n
    rw [← visit_mod]
    exact h _ (Nat.mod_lt _ (by omega))
  · exact fun h n _ => h n

theorem exists_walk_ring (hi : i < cap) :
    (∃ j, walk stride cap stop cap i = some j) ↔ ∃ n, stop (visit stride cap i n) = true := by
  rw [← Option.isSome_iff_exists, Option.isSome_iff_ne_none, ne_eq, walk_ring_eq_none hi]
  simp

theorem exists_visit (hc : Nat.Coprime cap stride) (hj : j < cap) : ∃ n, visit stride cap i n = j := by
  have hpos : 0 < cap := by omega
  -- the first `cap` steps visit different cells, and there are only `cap` of them
  have hinj : Set.InjOn (visit stride cap i) (Finset.range cap) := by
    intro n hn m hm h
    have h1 : stride * n ≡ stride * m [MOD cap] := Nat.ModEq.add_left_cancel' i h
    have h2 : n ≡ m [MOD cap] := Nat.ModEq.cancel_left_of_coprime hc h1
    exact Nat.ModEq.eq_of_lt_of_lt h2 (by simpa using hn) (by simpa using hm)
  have hsurj := Finset.surjOn_of_injOn_of_card_le (s := Finset.range cap) (t := Finset.range cap)
    (visit stride cap i) (fun n _ => by simpa using visit_lt hpos) hinj le_rfl
  obtain ⟨n, _, hn⟩ := hsurj (by simpa using hj)
  exact ⟨n, hn⟩

/-- A search visits the cells that agree with its start modulo the common divisor
of stride and size. -/
theorem exists_visit_iff (hj : j < cap) :
    (∃ n, visit stride cap i n = j) ↔ j % Nat.gcd cap stride = i % Nat.gcd cap stride := by
  have hcap : 0 < cap := by omega
  have hg : 0 < Nat.gcd cap stride := Nat.gcd_pos_of_pos_left stride hcap
  obtain ⟨c, hc⟩ := Nat.gcd_dvd_left cap stride
  obtain ⟨s, hs⟩ := Nat.gcd_dvd_right cap stride
  have hco := Nat.coprime_div_gcd_div_gcd hg
  generalize Nat.gcd cap stride = g at *
  subst hc hs
  rw [Nat.mul_div_cancel_left c hg, Nat.mul_div_cancel_left s hg] at hco
  refine ⟨?_, ?_⟩
  · intro h
    obtain ⟨n, rfl⟩ := h
    unfold visit
    rw [Nat.mod_mul_right_mod, Nat.mul_assoc, Nat.add_mul_mod_self_left]
  · intro hr
    obtain ⟨n, hn⟩ := @exists_visit s c (i / g) (j / g) hco (Nat.div_lt_of_lt_mul hj)
    refine ⟨n, ?_⟩
    have hsum : i + g * s * n = g * (i / g + s * n) + i % g := by
      rw [Nat.mul_add, Nat.mul_assoc, Nat.add_right_comm, Nat.div_add_mod]
    unfold visit at hn ⊢
    rw [hsum, Nat.mod_mul, Nat.mul_add_mod, Nat.mod_mod, Nat.mul_add_div hg, Nat.div_eq_of_lt
      (Nat.mod_lt _ hg), Nat.add_zero, hn,
      ← hr, Nat.mod_add_div]

/-- Cells that agree modulo a divisor of the size. -/
theorem card_class {g c r : Nat} (hr : r < g) :
    ((Finset.range (g * c)).filter (· % g = r)).card = c := by
  have hset : (Finset.range (g * c)).filter (· % g = r) = (Finset.range c).image fun t =>
    g * t + r := by
    ext n
    rw [Finset.mem_filter, Finset.mem_range, Finset.mem_image]
    refine ⟨?_, ?_⟩
    · intro hx
      obtain ⟨hn, rfl⟩ := hx
      exact ⟨n / g, Finset.mem_range.2 (Nat.div_lt_of_lt_mul hn), Nat.div_add_mod n g⟩
    · intro hx
      obtain ⟨t, ht, rfl⟩ := hx
      rw [Finset.mem_range] at ht
      refine ⟨?_, by rw [Nat.mul_add_mod, Nat.mod_eq_of_lt hr]⟩
      have hle := Nat.mul_le_mul_left g (Nat.succ_le_of_lt ht)
      rw [Nat.mul_succ] at hle
      omega
  rw [hset, Finset.card_image_of_injective, Finset.card_range]
  intro t t' h
  exact Nat.eq_of_mul_eq_mul_left (by omega) (Nat.add_right_cancel h)

/-- Each item is held by one cell of `C` that is not free. -/
structure Held {α : Type*} (C : Finset Nat) (I : Finset α) (free : Nat → Prop) (item : Nat → α) : Prop where
  mem : ∀ n ∈ C, ¬free n → item n ∈ I
  inj : ∀ n ∈ C, ∀ m ∈ C, ¬free n → ¬free m → item n = item m → n = m
  surj : ∀ a ∈ I, ∃ n ∈ C, ¬free n ∧ item n = a

section
variable {α : Type*} {C : Finset Nat} {I : Finset α} {free : Nat → Prop} [DecidablePred free]
    {item : Nat → α}

theorem Held.card (h : Held C I free item) : (C.filter fun n => ¬free n).card = I.card := by
  refine Finset.card_bij (fun n _ => item n) (fun n hn => ?_) (fun n hn m hm he => ?_) fun a ha => ?_
  · rw [Finset.mem_filter] at hn
    exact h.mem n hn.1 hn.2
  · rw [Finset.mem_filter] at hn hm
    exact h.inj n hn.1 m hm.1 hn.2 hm.2 he
  · obtain ⟨n, hn, hf, hi⟩ := h.surj a ha
    exact ⟨n, Finset.mem_filter.2 ⟨hn, hf⟩, hi⟩

theorem Held.card_le (h : Held C I free item) : I.card ≤ C.card := by
  rw [← h.card]
  exact Finset.card_filter_le _ _

/-- Some cell is free exactly if the cells are more than the items. -/
theorem Held.exists_free (h : Held C I free item) : (∃ n ∈ C, free n) ↔ I.card < C.card := by
  have hsplit := Finset.card_filter_add_card_filter_not (s := C) free
  rw [h.card] at hsplit
  rw [← Finset.filter_nonempty_iff, ← Finset.card_pos]
  omega

end

end Diode.Core.Probe
