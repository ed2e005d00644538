import Diode.Core.SMap

/-!
# Sums over a finite map

`total f` adds up what `f` makes of the values. A write changes it by the new
value and the one it replaces (`total_put`).
-/
namespace Diode.Core

variable {α β : Type} [LinearOrder α]

theorem Assoc.sum_put (f : β → Nat) {l : List (α × β)} (hs : Sorted l) (k : α) (v : β) :
    ((put l k v).map fun p => f p.2).sum + (get l k).elim 0 f = (l.map fun p => f p.2).sum + f v := by
  induction l with
  | nil => simp [put, get]
  | cons p l ih =>
    obtain ⟨hp, hl⟩ := List.pairwise_cons.1 hs
    have hrec := ih hl
    rw [get_cons, put]
    by_cases hk : p.1 = k
    · simp only [if_pos hk, List.map_cons, List.sum_cons, Option.elim_some]
      omega
    · rw [if_neg hk, if_neg hk]
      by_cases hlt : k < p.1
      · have hnone : get l k = none := get_eq_none_iff.2 fun q hq => ne_of_gt (lt_trans hlt (hp q hq))
        simp only [if_pos hlt, hnone, List.map_cons, List.sum_cons, Option.elim_none]
        omega
      · simp only [if_neg hlt, List.map_cons, List.sum_cons]
        omega

/-- The sum of what `f` makes of the values. -/
def SMap.total (f : β → Nat) (m : SMap α β) : Nat := (m.entries.map fun p => f p.2).sum

theorem SMap.total_put (f : β → Nat) (m : SMap α β) (k : α) (v : β) :
    (m.put k v).total f + (m.get k).elim 0 f = m.total f + f v := Assoc.sum_put f m.sorted k v

end Diode.Core
