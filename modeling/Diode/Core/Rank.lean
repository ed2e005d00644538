import Mathlib.Algebra.Ring.Nat
import Mathlib.Data.Set.Card
import Mathlib.Logic.Relation

/-!
# Ranks of finite acyclic relations

A relation that leaves only finitely many points, and has no cycle, strictly
decreases some natural number (`exists_rank`): how many of these points can
still be reached.
-/
namespace Diode.Core
open Relation

variable {α : Type} {r : α → α → Prop}

def Acyclic (r : α → α → Prop) : Prop := ∀ a, ¬ TransGen r a a

/-- A number that every step strictly decreases. -/
def Ranked (r : α → α → Prop) (rank : α → Nat) : Prop := ∀ ⦃a b⦄, r a b → rank b < rank a

theorem Ranked.trans {rank : α → Nat} (h : Ranked r rank) {a b : α} (hab : TransGen r a b) :
    rank b < rank a := by
  induction hab with
  | single h' => exact h h'
  | tail _ h' ih => have := h h'; omega

theorem Ranked.le {rank : α → Nat} (h : Ranked r rank) {a b : α} (hab : ReflTransGen r a b) :
    rank b ≤ rank a := by
  rcases reflTransGen_iff_eq_or_transGen.1 hab with rfl | hab
  · exact Nat.le_refl _
  · exact Nat.le_of_lt (h.trans hab)

theorem Ranked.mono {r' : α → α → Prop} {rank : α → Nat} (h : Ranked r rank)
    (hr : ∀ a b, r' a b → r a b) :
    Ranked r' rank := fun a b hab => h (hr a b hab)

theorem Ranked.acyclic {rank : α → Nat} (h : Ranked r rank) : Acyclic r := fun _ ha =>
    Nat.lt_irrefl _ (h.trans ha)

theorem exists_rank {s : Set α} (hs : s.Finite) (hr : ∀ a b, r a b → a ∈ s) (h : Acyclic r) :
    ∃ rank, Ranked r rank := by
  refine ⟨fun a => {x ∈ s | ReflTransGen r a x}.ncard, fun a b hab => ?_⟩
  apply Set.ncard_lt_ncard _ (hs.subset fun x hx => hx.1)
  refine ⟨fun x hx => ⟨hx.1, .head hab hx.2⟩, fun hsub => ?_⟩
  have hba : ReflTransGen r b a := (hsub ⟨hr a b hab, .refl⟩).2
  exact h a (TransGen.head' hab hba)

end Diode.Core
