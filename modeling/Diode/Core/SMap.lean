import Mathlib.Algebra.Ring.Nat
import Mathlib.Order.Basic
import Mathlib.Data.List.Sort
import Mathlib.Algebra.BigOperators.Group.List.Basic

/-!
# Finite maps as sorted association lists

The lists `Assoc.get`, `Assoc.put` and `Assoc.del` work on are plain arrays of
pairs kept in key order, the form a bucket of a trie leaf has. `SMap` packs
such a list with the proof that it is sorted, so two maps with the same
lookups are equal (`SMap.ext`).

Nothing here knows about this repository: keys are any linear order, values
are anything.
-/
namespace Diode.Core

variable {α β : Type} [LinearOrder α]

namespace Assoc

/-- Keys strictly increase. -/
def Sorted (l : List (α × β)) : Prop := l.Pairwise fun p q => p.1 < q.1

def get : List (α × β) → α → Option β
  | [], _ => none
  | p :: l, k => if p.1 = k then some p.2 else get l k

/-- Overwrite the value of an existing key, else insert before the first
greater key. -/
def put : List (α × β) → α → β → List (α × β)
  | [], k, v => [(k, v)]
  | p :: l, k, v =>
    if p.1 = k then (p.1, v) :: l
    else if k < p.1 then (k, v) :: p :: l
    else p :: put l k v

def del : List (α × β) → α → List (α × β)
  | [], _ => []
  | p :: l, k => if p.1 = k then l else p :: del l k

theorem get_cons (p : α × β) (l : List (α × β)) (k : α) :
    get (p :: l) k = if p.1 = k then some p.2 else get l k := rfl

theorem mem_put {l : List (α × β)} {k : α} {v : β} {p : α × β} (h : p ∈ put l k v) :
    p = (k, v) ∨ p ∈ l := by
  induction l with
  | nil => simpa [put] using h
  | cons q l ih =>
    simp only [put] at h
    split at h
    · rename_i e
      rcases List.mem_cons.1 h with h | h
      · exact .inl (by rw [h, e])
      · exact .inr (List.mem_cons_of_mem _ h)
    · split at h
      · simpa using h
      · rcases List.mem_cons.1 h with h | h
        · exact .inr (by simp [h])
        · exact (ih h).imp_right (List.mem_cons_of_mem _)

theorem mem_del {l : List (α × β)} {k : α} {p : α × β} (h : p ∈ del l k) : p ∈ l := by
  induction l with
  | nil => simp [del] at h
  | cons q l ih =>
    simp only [del] at h
    split at h
    · exact List.mem_cons_of_mem _ h
    · rcases List.mem_cons.1 h with h | h
      · simp [h]
      · exact List.mem_cons_of_mem _ (ih h)

theorem sorted_put {l : List (α × β)} (h : Sorted l) (k : α) (v : β) : Sorted (put l k v) := by
  induction l with
  | nil => simp [put, Sorted]
  | cons p l ih =>
    obtain ⟨hp, hl⟩ := List.pairwise_cons.1 h
    simp only [put]
    split
    · exact List.pairwise_cons.2 ⟨hp, hl⟩
    · split
      · rename_i hk
        refine List.pairwise_cons.2 ⟨fun q hq => ?_, h⟩
        rcases List.mem_cons.1 hq with rfl | hq
        · exact hk
        · exact lt_trans hk (hp q hq)
      · rename_i hne hk
        refine List.pairwise_cons.2 ⟨fun q hq => ?_, ih hl⟩
        rcases mem_put hq with rfl | hq
        · exact lt_of_le_of_ne (not_lt.1 hk) hne
        · exact hp q hq

theorem sorted_del {l : List (α × β)} (h : Sorted l) (k : α) : Sorted (del l k) := by
  induction l with
  | nil => simp [del, Sorted]
  | cons p l ih =>
    obtain ⟨hp, hl⟩ := List.pairwise_cons.1 h
    simp only [del]
    split
    · exact hl
    · exact List.pairwise_cons.2 ⟨fun q hq => hp q (mem_del hq), ih hl⟩

theorem get_mem {l : List (α × β)} {k : α} {v : β} (h : get l k = some v) : (k, v) ∈ l := by
  induction l with
  | nil => simp [get] at h
  | cons p l ih =>
    simp only [get] at h
    split at h
    · rename_i e
      obtain ⟨a, b⟩ := p
      simp only [Option.some.injEq] at h e
      subst h e; simp
    · exact List.mem_cons_of_mem _ (ih h)

theorem get_of_mem {l : List (α × β)} (hs : Sorted l) {k : α} {v : β} (h : (k, v) ∈ l) :
    get l k = some v := by
  induction l with
  | nil => simp at h
  | cons p l ih =>
    obtain ⟨hp, hl⟩ := List.pairwise_cons.1 hs
    rcases List.mem_cons.1 h with rfl | h
    · simp [get]
    · have : p.1 ≠ k := ne_of_lt (hp _ h)
      simp [get, this, ih hl h]

theorem get_iff_mem {l : List (α × β)} (hs : Sorted l) (k : α) (v : β) :
    get l k = some v ↔ (k, v) ∈ l := ⟨get_mem, get_of_mem hs⟩

theorem get_eq_none_iff {l : List (α × β)} {k : α} : get l k = none ↔ ∀ p ∈ l, p.1 ≠ k := by
  induction l with
  | nil => simp [get]
  | cons p l ih =>
    by_cases h : p.1 = k
    · simp [get, h]
    · simp [get, h, ih]

theorem get_put (l : List (α × β)) (k : α) (v : β) (j : α) :
    get (put l k v) j = if k = j then some v else get l j := by
  induction l with
  | nil => simp [put, get]
  | cons p l ih =>
    simp only [put]
    by_cases hk : p.1 = k
    · subst hk
      by_cases hj : p.1 = j <;> simp [get, hj]
    · simp only [hk, if_false]
      split
      · simp [get]
      · by_cases hj : p.1 = j
        · have : k ≠ j := fun e => hk (hj.trans e.symm)
          simp [get, hj, this]
        · simp [get, hj, ih]

theorem get_del {l : List (α × β)} (hs : Sorted l) (k j : α) :
    get (del l k) j = if k = j then none else get l j := by
  induction l with
  | nil => simp [del, get]
  | cons p l ih =>
    obtain ⟨hp, hl⟩ := List.pairwise_cons.1 hs
    simp only [del]
    by_cases hk : p.1 = k
    · subst hk
      by_cases hj : p.1 = j
      · subst hj
        simpa [get_eq_none_iff] using fun a b hab => ne_of_gt (hp (a, b) hab)
      · simp [get, hj]
    · simp only [hk, if_false, get]
      by_cases hj : p.1 = j
      · have : k ≠ j := fun e => hk (hj.trans e.symm)
        simp [hj, this]
      · simp [hj, ih hl]

/-- Sorted lists with the same lookups are the same list. -/
theorem ext {l m : List (α × β)} (hl : Sorted l) (hm : Sorted m) (h : ∀ k, get l k = get m k) :
    l = m := by
  have hnd : ∀ {l : List (α × β)}, Sorted l → l.Nodup :=
    fun h => h.imp fun hlt e => by simp [e] at hlt
  have hperm : l.Perm m := by
    refine (List.perm_ext_iff_of_nodup (hnd hl) (hnd hm)).2 fun p => ?_
    rw [← get_iff_mem hl, ← get_iff_mem hm, h]
  exact hperm.eq_of_pairwise (fun p q _ _ h1 h2 => absurd (lt_trans h1 h2) (lt_irrefl _)) hl hm

theorem del_length (l : List (α × β)) (k : α) : (del l k).length ≤ l.length := by
  induction l with
  | nil => simp [del]
  | cons p l ih => simp only [del]; split <;> simp; omega

theorem length_put_of_none {l : List (α × β)} {k : α} (v : β) (h : get l k = none) :
    (put l k v).length = l.length + 1 := by
  induction l with
  | nil => rfl
  | cons p l ih =>
    rw [get_cons] at h
    by_cases hk : p.1 = k
    · simp [hk] at h
    · rw [if_neg hk] at h
      by_cases hlt : k < p.1 <;> simp [put, hk, hlt, ih h]

theorem length_put_of_some {l : List (α × β)} (hs : Sorted l) {k : α} {w : β} (v : β)
    (h : get l k = some w) :
    (put l k v).length = l.length := by
  induction l with
  | nil => simp [get] at h
  | cons p l ih =>
    obtain ⟨hp, hl⟩ := List.pairwise_cons.1 hs
    rw [get_cons] at h
    by_cases hk : p.1 = k
    · simp [put, hk]
    · rw [if_neg hk] at h
      have hlt : ¬k < p.1 := not_lt_of_gt (hp _ (get_mem h))
      simp [put, hk, hlt, ih hl h]

theorem length_del_of_some {l : List (α × β)} {k : α} {v : β} (h : get l k = some v) :
    (del l k).length + 1 = l.length := by
  induction l with
  | nil => simp [get] at h
  | cons p l ih =>
    rw [get_cons] at h
    by_cases hk : p.1 = k
    · simp [del, hk]
    · simp [del, hk, ih (by simpa [hk] using h)]

theorem del_of_none {l : List (α × β)} {k : α} (h : get l k = none) : del l k = l := by
  induction l with
  | nil => rfl
  | cons p l ih =>
    rw [get_cons] at h
    by_cases hk : p.1 = k
    · simp [hk] at h
    · simp [del, hk, ih (by simpa [hk] using h)]

theorem get_append (l m : List (α × β)) (k : α) : get (l ++ m) k = (get l k).or (get m k) := by
  induction l with
  | nil => simp [get]
  | cons p l ih =>
    rw [List.cons_append, get_cons, get_cons, ih]
    by_cases hk : p.1 = k <;> simp [hk]

theorem get_map {γ : Type} (f : β → γ) (l : List (α × β)) (k : α) :
    get (l.map fun p => (p.1, f p.2)) k = (get l k).map f := by
  induction l with
  | nil => rfl
  | cons p l ih =>
    rw [List.map_cons, get_cons, get_cons, ih]
    split <;> rfl

theorem get_mapKey {γ : Type} (f : α → β → γ) (l : List (α × β)) (k : α) :
    get (l.map fun p => (p.1, f p.1 p.2)) k = (get l k).map (f k) := by
  induction l with
  | nil => rfl
  | cons p l ih =>
    rw [List.map_cons, get_cons, get_cons, ih]
    by_cases e : p.1 = k
    · rw [if_pos e, if_pos e, Option.map_some, e]
    · rw [if_neg e, if_neg e]

theorem sorted_map {γ : Type} (f : β → γ) {l : List (α × β)} (h : Sorted l) :
    Sorted (l.map fun p => (p.1, f p.2)) := by
  unfold Sorted
  rw [List.pairwise_map]
  exact h

theorem sorted_filter {l : List (α × β)} (h : Sorted l) (f : α × β → Bool) : Sorted (l.filter f) :=
  List.Pairwise.sublist List.filter_sublist h

end Assoc

/-- A finite map: a key-sorted association list. -/
structure SMap (α β : Type) [LinearOrder α] where
  entries : List (α × β)
  sorted : Assoc.Sorted entries

namespace SMap

instance [DecidableEq β] : DecidableEq (SMap α β) := fun m n =>
  decidable_of_iff (m.entries = n.entries) ⟨fun h =>
    by cases m; cases n; simpa using h, fun h => by rw [h]⟩

def empty : SMap α β := ⟨[], by simp [Assoc.Sorted]⟩

def get (m : SMap α β) (k : α) : Option β := Assoc.get m.entries k

def put (m : SMap α β) (k : α) (v : β) : SMap α β :=
    ⟨Assoc.put m.entries k v, Assoc.sorted_put m.sorted k v⟩

def del (m : SMap α β) (k : α) : SMap α β := ⟨Assoc.del m.entries k, Assoc.sorted_del m.sorted k⟩

def map {γ : Type} (m : SMap α β) (f : β → γ) : SMap α γ :=
  ⟨m.entries.map fun p => (p.1, f p.2), Assoc.sorted_map f m.sorted⟩

theorem length_put (m : SMap α β) (k : α) (v : β) :
    (m.put k v).entries.length = m.entries.length + if (m.get k).isSome then 0 else 1 := by
  cases h : m.get k with
  | none => exact Assoc.length_put_of_none v h
  | some w => exact Assoc.length_put_of_some m.sorted v h

theorem length_del (m : SMap α β) (k : α) :
    (m.del k).entries.length + (if (m.get k).isSome then 1 else 0) = m.entries.length := by
  cases h : m.get k with
  | none => exact congrArg List.length (Assoc.del_of_none h)
  | some w => exact Assoc.length_del_of_some h

/-- A map of the values that looks at the keys. -/
def mapKey {γ : Type} (m : SMap α β) (f : α → β → γ) : SMap α γ :=
  ⟨m.entries.map fun p => (p.1, f p.1 p.2), by
    rw [Assoc.Sorted, List.pairwise_map]
    exact m.sorted⟩

def filter (m : SMap α β) (P : β → Bool) : SMap α β :=
  ⟨m.entries.filter fun e => P e.2, Assoc.sorted_filter m.sorted _⟩

theorem get_map {γ : Type} (m : SMap α β) (f : β → γ) (k : α) : (m.map f).get k = (m.get k).map f :=
  Assoc.get_map f m.entries k

theorem get_mapKey {γ : Type} (m : SMap α β) (f : α → β → γ) (k : α) :
    (m.mapKey f).get k = (m.get k).map (f k) :=
  Assoc.get_mapKey f m.entries k

@[simp] theorem get_empty (k : α) : (empty : SMap α β).get k = none := rfl

theorem get_put (m : SMap α β) (k j : α) (v : β) :
    (m.put k v).get j = if k = j then some v else m.get j := Assoc.get_put _ _ _ _

@[simp] theorem get_put_self (m : SMap α β) (k : α) (v : β) : (m.put k v).get k = some v := by
  simp [get_put]

theorem get_put_ne (m : SMap α β) {k j : α} (v : β) (h : k ≠ j) : (m.put k v).get j = m.get j := by
  simp [get_put, h]

theorem get_del (m : SMap α β) (k j : α) :
    (m.del k).get j = if k = j then none else m.get j := Assoc.get_del m.sorted _ _

theorem ext {m n : SMap α β} (h : ∀ k, m.get k = n.get k) : m = n := by
  have := Assoc.ext m.sorted n.sorted h
  cases m; cases n; simpa using this

theorem mem_iff (m : SMap α β) (k : α) (v : β) : (k, v) ∈ m.entries ↔ m.get k = some v :=
  (Assoc.get_iff_mem m.sorted k v).symm

theorem get_filter (m : SMap α β) (P : β → Bool) (k : α) : (m.filter P).get k = (m.get k).filter P := by
  apply Option.ext
  intro v
  rw [← mem_iff, Option.filter_eq_some_iff, ← mem_iff]
  exact List.mem_filter

theorem map_congr {γ : Type} {m : SMap α β} {f g : β → γ} (h : ∀ k v, m.get k = some v → f v = g v) :
    m.map f = m.map g := by
  apply ext
  intro k
  rw [get_map, get_map]
  cases hv : m.get k with
  | none => rfl
  | some v => rw [Option.map_some, Option.map_some, h k v hv]

/-- Writing back what is there changes nothing. -/
theorem put_get_self (m : SMap α β) {k : α} {v : β} (h : m.get k = some v) : m.put k v = m := by
  apply ext; intro j; rw [get_put]; split
  · rename_i e; rw [← e, h]
  · rfl

/-- Puts of distinct keys: each key ends with its value. -/
theorem get_foldl_put : ∀ (l : List (α × β)) (m : SMap α β), (l.map Prod.fst).Nodup → ∀ k,
    (l.foldl (fun m p => m.put p.1 p.2) m).get k = (Assoc.get l k).or (m.get k)
  | [], _, _, _ => rfl
  | p :: l, m, h, k => by
    rw [List.map_cons, List.nodup_cons] at h
    rw [List.foldl_cons, get_foldl_put l _ h.2, Assoc.get_cons, get_put]
    by_cases e : p.1 = k
    · have hn : Assoc.get l k = none :=
        Assoc.get_eq_none_iff.2 fun q hq e' => h.1 (List.mem_map.2 ⟨q, hq, e'.trans e.symm⟩)
      rw [if_pos e, if_pos e, hn, Option.none_or, Option.some_or]
    · rw [if_neg e, if_neg e]

theorem keys_nodup (m : SMap α β) : (m.entries.map Prod.fst).Nodup := by
  rw [List.Nodup, List.pairwise_map]
  exact m.sorted.imp fun hlt => ne_of_lt hlt

/-- A map is the puts of its entries. -/
theorem foldl_entries (m : SMap α β) : m.entries.foldl (fun n p => n.put p.1 p.2) empty = m := by
  apply ext
  intro k
  rw [get_foldl_put _ _ m.keys_nodup, get_empty, Option.or_none]
  rfl

theorem put_put (m : SMap α β) (k : α) (v w : β) : (m.put k v).put k w = m.put k w := by
  apply ext; intro j; simp only [get_put]; split <;> rfl

/-- How often each member occurs in a list. -/
def tally (l : List α) : SMap α Nat := l.foldl (fun m x => m.put x ((m.get x).elim 1 (· + 1))) empty

theorem get_foldl_tally [BEq α] [LawfulBEq α] (x : α) : ∀ (l : List α) (m : SMap α Nat),
    ((l.foldl (fun m x => m.put x ((m.get x).elim 1 (· + 1))) m).get x).getD 0 =
      (m.get x).getD 0 + l.count x
  | [], _ => rfl
  | y :: l, m => by
    rw [List.foldl_cons, get_foldl_tally x l, get_put, List.count_cons]
    by_cases e : y = x
    · subst e
      cases m.get y with
      | none => simp; omega
      | some v => simp; omega
    · simp [e]

theorem getD_tally [BEq α] [LawfulBEq α] (l : List α) (x : α) :
    ((tally l).get x).getD 0 = l.count x := by
  rw [tally, get_foldl_tally, get_empty, Option.getD_none, Nat.zero_add]

theorem get_tally_pos {l : List α} {x : α} {v : Nat} (h : (tally l).get x = some v) : 0 < v := by
  have key : ∀ (l : List α) (m : SMap α Nat), (∀ x v, m.get x = some v → 0 < v) →
      ∀ x v, (l.foldl (fun m x => m.put x ((m.get x).elim 1 (· + 1))) m).get x = some v → 0 < v := by
    intro l
    induction l with
    | nil => exact fun _ h => h
    | cons y l ih =>
      intro m hm
      refine ih _ fun x v hv => ?_
      rw [get_put] at hv
      split at hv
      · cases hv
        cases m.get y <;> simp
      · exact hm x v hv
  exact key l empty (fun _ _ hv => by cases hv) x v h

theorem mem_keys_tally {l : List α} {x : α} : x ∈ (tally l).entries.map Prod.fst ↔ x ∈ l := by
  have hc := getD_tally l x
  rw [List.mem_map, ← List.count_pos_iff, ← hc]
  refine ⟨?_, ?_⟩
  · intro hx
    obtain ⟨⟨y, v⟩, hp, rfl⟩ := hx
    rw [mem_iff] at hp
    dsimp only
    rw [hp]
    exact get_tally_pos hp
  · intro h
    cases hg : (tally l).get x with
    | none =>
      rw [hg] at h
      cases h
    | some v => exact ⟨(x, v), (mem_iff ..).2 hg, rfl⟩

end SMap
end Diode.Core
