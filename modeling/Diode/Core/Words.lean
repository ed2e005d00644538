import Mathlib.Data.List.Lex
import Mathlib.Order.Lattice

/-!
# Words with marks

Words that end with a mark can be read off their concatenation, and words that
a mark is put behind keep their order unless one continues the other with
something below the mark.
-/
namespace Diode.Core.Words

variable {α : Type*}

/-- The part before a mark is found by the mark. -/
theorem append_mark_inj {t : α} : ∀ {u v x y : List α}, t ∉ u → t ∉ v → u ++ t :: x = v ++ t :: y → u = v ∧ x = y
  | [], [], _, _, _, _, h => ⟨rfl, List.tail_eq_of_cons_eq h⟩
  | [], b :: v, _, _, _, hv, h => absurd (List.head_eq_of_cons_eq h) fun e =>
      hv (e ▸ List.mem_cons_self)
  | a :: u, [], _, _, hu, _, h => absurd (List.head_eq_of_cons_eq h).symm fun e =>
      hu (e ▸ List.mem_cons_self)
  | a :: u, b :: v, x, y, hu, hv, h => by
    obtain ⟨rfl, htail⟩ := List.cons.inj h
    obtain ⟨h1, h2⟩ := append_mark_inj (fun hm => hu (List.mem_cons_of_mem _ hm))
      (fun hm => hv (List.mem_cons_of_mem _ hm)) htail
    exact ⟨congrArg _ h1, h2⟩

/-- A word whose only mark is its end. -/
def Closed (t : α) (w : List α) : Prop := ∃ u, w = u ++ [t] ∧ t ∉ u

theorem flatten_inj {t : α} : ∀ {l k : List (List α)}, (∀ w ∈ l, Closed t w) →
    (∀ w ∈ k, Closed t w) → l.flatten = k.flatten → l = k
  | [], [], _, _, _ => rfl
  | [], w :: k, _, hk, h => by
    obtain ⟨u, rfl, -⟩ := hk _ List.mem_cons_self
    simp at h
  | w :: l, [], hl, _, h => by
    obtain ⟨u, rfl, -⟩ := hl _ List.mem_cons_self
    simp at h
  | w :: l, w' :: k, hl, hk, h => by
    obtain ⟨u, rfl, hu⟩ := hl _ List.mem_cons_self
    obtain ⟨v, rfl, hv⟩ := hk _ List.mem_cons_self
    rw [List.flatten_cons, List.flatten_cons, List.append_assoc, List.append_assoc] at h
    obtain ⟨rfl, hrest⟩ := append_mark_inj hu hv h
    rw [flatten_inj (fun w hw => hl w (List.mem_cons_of_mem _ hw))
      (fun w hw => hk w (List.mem_cons_of_mem _ hw)) hrest]

variable [LinearOrder α]

/-- `b` is `a` and more, which begins below the mark. -/
def Continues (m : α) (a b : List α) : Prop := ∃ x rest, b = a ++ x :: rest ∧ x < m

theorem Continues.lt {m : α} {a b : List α} (h : Continues m a b) : a < b := by
  obtain ⟨x, rest, rfl, -⟩ := h
  induction a with
  | nil => exact List.nil_lt_cons x rest
  | cons y a ih => exact List.cons_lt_cons_iff.2 (.inr ⟨rfl, ih⟩)

/-- The mark changes the order of two words exactly if one continues the other. -/
theorem mark_lt_iff {m : α} : ∀ {a b : List α} (u v : List α), a < b → m ∉ b →
    (b ++ m :: v < a ++ m :: u ↔ Continues m a b)
  | [], [], _, _, h, _ => absurd h (lt_irrefl _)
  | _ :: _, [], _, _, h, _ => absurd h (List.not_lt_nil _)
  | [], x :: b, u, v, _, hm => by
    have hne : x ≠ m := fun e => hm (e ▸ List.mem_cons_self)
    change x :: (b ++ m :: v) < m :: u ↔ _
    rw [List.cons_lt_cons_iff, or_iff_left fun h => hne h.1]
    refine ⟨?_, ?_⟩
    · intro hx
      exact ⟨x, b, rfl, hx⟩
    · intro hy
      obtain ⟨_, _, he, hx⟩ := hy
      cases he
      exact hx
  | y :: a, x :: b, u, v, h, hm => by
    change x :: (b ++ m :: v) < y :: (a ++ m :: u) ↔ _
    rw [List.cons_lt_cons_iff]
    rcases List.cons_lt_cons_iff.1 h with hlt | ⟨rfl, hlt⟩
    · refine iff_of_false (fun hx => ?_) fun ⟨_, _, he, _⟩ => hlt.ne (List.cons.inj he).1.symm
      rcases hx with hx | ⟨hx, _⟩
      · exact absurd hx hlt.asymm
      · exact hlt.ne hx.symm
    · rw [or_iff_right (lt_irrefl _), and_iff_right rfl, mark_lt_iff u v hlt fun h =>
        hm (List.mem_cons_of_mem _ h)]
      refine exists_congr fun x' => exists_congr fun rest => and_congr_left fun _ => ?_
      rw [List.cons_append, List.cons.injEq, and_iff_right rfl]

end Diode.Core.Words
