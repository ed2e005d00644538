import Mathlib.Algebra.Ring.Nat
import Mathlib.Data.List.Basic
import Mathlib.Data.List.Nodup

/-!
# Pairs in the order they came

Association lists that keep their keys in the order of arrival: a new key is
appended, a known one has its value overwritten in place.
-/
namespace Diode.Core.Pairs

variable {K V : Type}

section
variable [BEq K] [LawfulBEq K]

theorem lookup_cons [DecidableEq K] (d : K × V) (l : List (K × V)) (k : K) :
    (d :: l).lookup k = if d.1 = k then some d.2 else l.lookup k := by
  obtain ⟨a, b⟩ := d
  by_cases h : a = k
  · rw [h, List.lookup_cons_self, if_pos rfl]
  · have hb : (k == a) = false := by simp [Ne.symm h]
    rw [List.lookup_cons, hb, if_neg h]

theorem lookup_eq_none {l : List (K × V)} {k : K} : l.lookup k = none ↔ k ∉ l.map Prod.fst := by
  rw [List.lookup_eq_none_iff, List.mem_map]
  refine ⟨?_, ?_⟩
  · intro h hx
    obtain ⟨d, hd, rfl⟩ := hx
    simpa using h d hd
  · intro h d hd
    simpa using fun e : k = d.1 => h ⟨d, hd, e.symm⟩

theorem lookup_of_mem {l : List (K × V)} {d : K × V} (hn : (l.map Prod.fst).Nodup) (h : d ∈ l) :
    l.lookup d.1 = some d.2 := by
  obtain ⟨r, s, rfl⟩ := List.append_of_mem h
  rw [List.lookup_eq_some_iff]
  refine ⟨r, s, rfl, fun e he => ?_⟩
  rw [List.map_append] at hn
  have := (List.nodup_append.1 hn).2.2 e.1 (List.mem_map_of_mem he) d.1 (List.mem_cons_self ..)
  simpa using fun h => this h.symm

theorem mem_iff_lookup {l : List (K × V)} (hn : (l.map Prod.fst).Nodup) {k : K} {v : V} :
    (k, v) ∈ l ↔ l.lookup k = some v := by
  refine ⟨?_, ?_⟩
  · exact lookup_of_mem hn
  · intro h
    obtain ⟨r, s, rfl, _⟩ := List.lookup_eq_some_iff.1 h
    exact List.mem_append_right _ (List.mem_cons_self ..)

end

variable [DecidableEq K]

/-- Overwrite the value of a key, else append it. -/
def upsert : List (K × V) → K → V → List (K × V)
  | [], k, v => [(k, v)]
  | d :: l, k, v => if d.1 = k then (k, v) :: l else d :: upsert l k v

def upserts (l r : List (K × V)) : List (K × V) := r.foldl (fun l d => upsert l d.1 d.2) l

theorem lookup_upsert [BEq K] [LawfulBEq K] (l : List (K × V)) (k j : K) (v : V) :
    (upsert l k v).lookup j = if k = j then some v else l.lookup j := by
  induction l with
  | nil => exact lookup_cons ..
  | cons d l ih =>
    simp only [upsert]
    by_cases h : d.1 = k
    · rw [if_pos h, lookup_cons, lookup_cons, h]
      split <;> rfl
    · rw [if_neg h, lookup_cons, lookup_cons, ih]
      by_cases hj : k = j
      · rw [if_pos hj, if_pos hj, if_neg fun e => h (e.trans hj.symm)]
      · rw [if_neg hj, if_neg hj]

theorem upsert_new {l : List (K × V)} {k : K} (h : k ∉ l.map Prod.fst) (v : V) :
    upsert l k v = l ++ [(k, v)] := by
  induction l with
  | nil => rfl
  | cons d l ih =>
    simp only [List.map_cons, List.mem_cons, not_or] at h
    rw [upsert, if_neg fun e => h.1 e.symm, ih h.2]
    rfl

theorem upsert_at {l : List (K × V)} {i : Nat} {d : K × V} (hn : (l.map Prod.fst).Nodup)
    (h : l[i]? = some d) (v : V) :
    upsert l d.1 v = l.set i (d.1, v) := by
  induction l generalizing i with
  | nil => simp at h
  | cons e l ih =>
    rw [List.map_cons, List.nodup_cons] at hn
    cases i with
    | zero =>
      rw [List.getElem?_cons_zero, Option.some.injEq] at h
      rw [upsert, if_pos (by rw [h]), List.set_cons_zero]
    | succ i =>
      rw [List.getElem?_cons_succ] at h
      have hne : e.1 ≠ d.1 := fun he => hn.1 (he ▸ List.mem_map_of_mem (List.mem_of_getElem? h))
      rw [upsert, if_neg hne, ih hn.2 h, List.set_cons_succ]

omit [DecidableEq K] in
/-- The next of the pairs is new. -/
theorem new_of_nodup {l r : List (K × V)} {d : K × V} (hn : ((l ++ d :: r).map Prod.fst).Nodup) :
    d.1 ∉ l.map Prod.fst := by
  rw [List.map_append] at hn
  exact fun h => (List.nodup_append.1 hn).2.2 _ h _ (List.mem_cons_self ..) rfl

theorem keys_upsert (l : List (K × V)) (k : K) (v : V) :
    (upsert l k v).map Prod.fst = if k ∈ l.map Prod.fst then l.map Prod.fst else l.map Prod.fst ++ [k] := by
  induction l with
  | nil => rfl
  | cons d l ih =>
    simp only [upsert]
    by_cases h : d.1 = k
    · subst h
      simp
    · rw [if_neg h, List.map_cons, ih]
      have : k ∈ (d :: l).map Prod.fst ↔ k ∈ l.map Prod.fst := by
        simp only [List.map_cons, List.mem_cons, Ne.symm h, false_or]
      by_cases hk : k ∈ l.map Prod.fst
      · rw [if_pos hk, if_pos (this.2 hk), List.map_cons]
      · rw [if_neg hk, if_neg (fun e => hk (this.1 e)), List.map_cons, List.cons_append]

/-- Writing values that a function gives to the keys. -/
theorem lookup_upserts [BEq K] [LawfulBEq K] {f : K → V} {k : K} : ∀ (r l : List (K × V)),
    (∀ d ∈ r, d.2 = f d.1) →
    (upserts l r).lookup k = if k ∈ r.map Prod.fst then some (f k) else l.lookup k
  | [], l, _ => rfl
  | d :: r, l, h => by
    have hd := h d (List.mem_cons_self ..)
    show (upserts (upsert l d.1 d.2) r).lookup k = _
    rw [lookup_upserts r _ fun e he => h e (List.mem_cons_of_mem _ he), lookup_upsert, hd,
      List.map_cons]
    by_cases hk : k ∈ r.map Prod.fst
    · rw [if_pos hk, if_pos (List.mem_cons_of_mem _ hk)]
    · rw [if_neg hk]
      by_cases he : d.1 = k
      · subst he
        rw [if_pos rfl, if_pos (List.mem_cons_self ..)]
      · rw [if_neg he, if_neg (by simp [hk, Ne.symm he])]

end Diode.Core.Pairs
