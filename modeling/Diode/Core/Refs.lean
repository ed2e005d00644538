import Mathlib.Algebra.Ring.Nat
import Mathlib.Data.Finset.Card
import Mathlib.Logic.Function.Basic

/-!
# Counting references

`E : S → I` says which object each slot refers to; `Counts E i n` says that
exactly `n` slots refer to `i`. The rules below follow one slot as it is
redirected: they are what makes a reference count that is incremented and
decremented by hand agree with the slots that exist.

Redirecting is `Function.update E s j`; a slot that refers to nothing refers
to whatever object the caller takes as null.
-/
namespace Diode.Core

/-- Exactly `n` slots refer to `i`. -/
def Counts {S I : Type} (E : S → I) (i : I) (n : Nat) : Prop :=
  ∃ f : Finset S, f.card = n ∧ ∀ s, s ∈ f ↔ E s = i

namespace Counts
variable {S I : Type} {E : S → I} {i : I} {n m : Nat}

theorem unique (h : Counts E i n) (h' : Counts E i m) : n = m := by
  obtain ⟨f, rfl, hf⟩ := h
  obtain ⟨g, rfl, hg⟩ := h'
  have : f = g := Finset.ext fun s => (hf s).trans (hg s).symm
  rw [this]

theorem zero_iff : Counts E i 0 ↔ ∀ s, E s ≠ i := by
  refine ⟨?_, ?_⟩
  · rintro ⟨f, hf, h⟩ s hs
    rw [Finset.card_eq_zero] at hf
    have := (h s).2 hs
    rw [hf] at this
    simp at this
  · intro h
    exact ⟨∅, rfl, fun s => by simp [h s]⟩

theorem pos (h : Counts E i n) {s : S} (hs : E s = i) : 0 < n := by
  obtain ⟨f, rfl, hf⟩ := h
  exact Finset.card_pos.2 ⟨s, (hf s).2 hs⟩

/-- A count of one names the slot. -/
theorem eq_of_le_one (h : Counts E i n) (hn : n ≤ 1) {s t : S} (hs : E s = i) (ht : E t = i) : s = t := by
  obtain ⟨f, rfl, hf⟩ := h
  exact Finset.card_le_one.1 hn s ((hf s).2 hs) t ((hf t).2 ht)

theorem two_le (h : Counts E i n) {s t : S} (hst : s ≠ t) (hs : E s = i) (ht : E t = i) : 2 ≤ n := by
  by_contra hn
  exact hst (h.eq_of_le_one (by omega) hs ht)

/-- Some slot refers to an object whose count is positive. -/
theorem exists_of_pos (h : Counts E i n) (hn : 0 < n) : ∃ s, E s = i := by
  obtain ⟨f, rfl, hf⟩ := h
  obtain ⟨s, hs⟩ := Finset.card_pos.1 hn
  exact ⟨s, (hf s).1 hs⟩

variable [DecidableEq S]

/-- A slot that referred elsewhere is redirected to `i`. -/
theorem gain (h : Counts E i n) {s : S} (hs : E s ≠ i) : Counts (Function.update E s i) i (n + 1) := by
  obtain ⟨f, rfl, hf⟩ := h
  refine ⟨insert s f, Finset.card_insert_of_notMem fun hm => hs ((hf s).1 hm), fun t => ?_⟩
  rw [Finset.mem_insert, hf]
  by_cases h : t = s
  · subst h; simp
  · simp [h, Function.update_of_ne]

/-- A slot that referred to `i` is redirected elsewhere. -/
theorem lose (h : Counts E i n) {s : S} (hs : E s = i) {j : I} (hj : j ≠ i) :
    Counts (Function.update E s j) i (n - 1) := by
  obtain ⟨f, rfl, hf⟩ := h
  refine ⟨f.erase s, Finset.card_erase_of_mem ((hf s).2 hs), fun t => ?_⟩
  rw [Finset.mem_erase, hf]
  by_cases h : t = s
  · subst h; simp [hj]
  · simp [h, Function.update_of_ne]

/-- A slot is redirected from one other object to another. -/
theorem keep (h : Counts E i n) {s : S} (hs : E s ≠ i) {j : I} (hj : j ≠ i) :
    Counts (Function.update E s j) i n := by
  obtain ⟨f, rfl, hf⟩ := h
  refine ⟨f, rfl, fun t => ?_⟩
  rw [hf]
  by_cases h : t = s
  · subst h; simp [hj, hs]
  · simp [h, Function.update_of_ne]

/-- Counts of all objects, `n` before and `n'` after one slot is redirected. -/
theorem redirect {O : Type} {n n' : O → Nat} {E : S → Option O} (h : ∀ i, Counts E (some i) (n i)) {s : S}
    {t : Option O} (ht : t ≠ E s) (hup : ∀ i, t = some i → n' i = n i + 1)
      (hdown : ∀ i, E s = some i → n' i = n i - 1)
    (hsame : ∀ i, t ≠ some i → E s ≠ some i → n' i = n i) (i : O) : Counts (Function.update E s t)
      (some i) (n' i) := by
  by_cases hi : t = some i
  · rw [hup i hi, hi]
    exact (h i).gain fun e => ht (hi.trans e.symm)
  · by_cases he : E s = some i
    · rw [hdown i he]
      exact (h i).lose he hi
    · rw [hsame i hi he]
      exact (h i).keep he hi

end Counts
end Diode.Core
