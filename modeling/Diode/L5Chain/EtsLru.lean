import Diode.Core.SMap

/-!
# The caches of a node

An `EtsLru` is one ETS table with three kinds of rows: the meta row with the
counter of accepted puts, a row for each live key with its value and the number
of its put, and a row for each put that leads back to its key. A put drops the
row of the put that is `max_size` puts old, and the key with it unless the key
has been put again.

A key that is put again or deleted leaves its old position behind, and `size`
counts rows in pairs. `set_max_size` drops nothing, and the positions that a
smaller maximum has passed over are never looked at again.

* `lru_bounded_iff`: the cache is bounded and knows its size in every state of a
  run exactly when no step of the run leaves a second position behind or too many
  keys. What `get` answers is right in every run.
-/
namespace Diode.L5
open Diode.Core

variable {K V : Type} [LinearOrder K]

/-- The rows `{:meta, n, max_size, filter}`, `{{:key, key}, value, n}` and
`{n, {:key, key}}`; a `nil` value is `none`. -/
structure EtsLru (K V : Type) [LinearOrder K] where
  n : Nat
  max_size : Int
  filter : Option V → Bool
  keys : SMap K (Option V × Nat)
  positions : SMap Nat K

namespace EtsLru

/-- mirrors lib/etslru.ex:9-18 -/
def new (max_size : Int) (filter : Option V → Bool) : EtsLru K V := ⟨0, max_size, filter, .empty, .empty⟩

/-- mirrors lib/etslru.ex:51-56 -/
def get (lru : EtsLru K V) (key : K) (default : Option V) : Option V :=
  (lru.keys.get key).elim default Prod.fst

/-- mirrors lib/etslru.ex:27 -/
def accepts [BEq V] (lru : EtsLru K V) (key : K) (value : Option V) : Bool :=
  lru.filter value && lru.get key none != value

/-- mirrors lib/etslru.ex:28-32 -/
def store (lru : EtsLru K V) (key : K) (value : Option V) : EtsLru K V :=
  let n := lru.n + 1
  { lru with n := n, keys := lru.keys.put key (value, n), positions := lru.positions.put n key }

/-- mirrors lib/etslru.ex:34-35 -/
def del (lru : EtsLru K V) : Int := lru.n - lru.max_size

/-- mirrors lib/etslru.ex:37-45 -/
def evict (lru : EtsLru K V) : EtsLru K V :=
  let del := lru.del
  if 0 < del then
    match lru.positions.get del.toNat with
    | none => lru
    | some key =>
      let lru := { lru with positions := lru.positions.del del.toNat }
      match lru.keys.get key with
      | none => lru
      | some (_, n) => if n = del.toNat then { lru with keys := lru.keys.del key } else lru
  else lru

/-- It returns the value it is given.
mirrors lib/etslru.ex:24-49 -/
def put [BEq V] (lru : EtsLru K V) (key : K) (value : Option V) : EtsLru K V :=
  if lru.accepts key value then (lru.store key value).evict else lru

/-- The position of the key stays.
mirrors lib/etslru.ex:58-60 -/
def delete (lru : EtsLru K V) (key : K) : EtsLru K V := { lru with keys := lru.keys.del key }

/-- mirrors lib/etslru.ex:91-94 -/
def size (lru : EtsLru K V) : Nat :=
  let total_size := 1 + lru.keys.entries.length + lru.positions.entries.length
  (total_size - 1) / 2

/-- mirrors lib/etslru.ex:108-110 -/
def set_max_size (lru : EtsLru K V) (max_size : Int) : EtsLru K V := { lru with max_size }

/-- mirrors lib/etslru.ex:112-117 -/
def flush (lru : EtsLru K V) : EtsLru K V := new lru.max_size lru.filter

inductive Op (K V : Type) where
  | put (key : K) (value : Option V)
  | get (key : K)
  | delete (key : K)
  | flush
  | set_max_size (max_size : Int)

def step [BEq V] (lru : EtsLru K V) : Op K V → EtsLru K V
  | .put key value => lru.put key value
  | .get _ => lru
  | .delete key => lru.delete key
  | .flush => lru.flush
  | .set_max_size max_size => lru.set_max_size max_size

/-! ## What a bounded cache does -/

/-- The keys that have a value. -/
def live (lru : EtsLru K V) : Nat := lru.keys.entries.length

def Bounded (lru : EtsLru K V) : Prop := (lru.live : Int) ≤ lru.max_size

def Sized (lru : EtsLru K V) : Prop := lru.size = lru.live

/-- What was last accepted under a key: the value, how many puts were accepted
since, and whether these have been fewer than the maximum at every moment. -/
structure Last (V : Type) where
  value : Option V
  newer : Nat
  within : Bool

/-- What is known of each key after one more call. -/
def note [BEq V] (lru : EtsLru K V) (last : K → Option (Last V)) : Op K V → K → Option (Last V)
  | .put key value =>
    if lru.accepts key value then fun k =>
      if k = key then some ⟨value, 0, decide (0 < lru.max_size)⟩
      else (last k).map fun l =>
        { l with newer := l.newer + 1, within := l.within && decide (l.newer + 1 < lru.max_size) }
    else last
  | .get _ => last
  | .delete key => Function.update last key none
  | .flush => fun _ => none
  | .set_max_size max_size => fun k =>
    (last k).map fun l => { l with within := l.within && decide (l.newer < max_size) }

/-- `get` answers with the value last accepted, but where it was deleted, and
perhaps where the maximum of newer puts was reached. -/
def Serves (lru : EtsLru K V) (last : K → Option (Last V)) : Prop :=
  ∀ key default, match last key with
    | none => lru.get key default = default
    | some l => lru.get key default = l.value ∨ l.within = false ∧ lru.get key default = default

/-- A put takes no row but the one at the position it drops. -/
def Spares [BEq V] (lru : EtsLru K V) : Prop :=
  ∀ key value, lru.accepts key value → ∀ k v n, (lru.store key value).keys.get k = some (v, n) →
    (n : Int) ≠ lru.n + 1 - lru.max_size → (lru.put key value).keys.get k = some (v, n)

def Good [BEq V] (lru : EtsLru K V) (last : K → Option (Last V)) : Prop :=
  lru.Bounded ∧ lru.Sized ∧ lru.Serves last ∧ lru.Spares

/-- Every state of a run is good. -/
def Right [BEq V] (lru : EtsLru K V) (last : K → Option (Last V)) : List (Op K V) → Prop
  | [] => lru.Good last
  | op :: ops => lru.Good last ∧ Right (lru.step op) (lru.note last op) ops

/-! ## What a step must not do -/

/-- Positions that no live key has. -/
def stale (lru : EtsLru K V) : Nat := lru.positions.entries.length - lru.live

/-- The key put at this position has not been put again or deleted. -/
def Current (lru : EtsLru K V) (n : Nat) : Prop :=
  ∃ key value, lru.positions.get n = some key ∧ lru.keys.get key = some (value, n)

/-- The position is left over. -/
def Leftover (lru : EtsLru K V) (n : Nat) : Prop :=
  (lru.positions.get n).isSome ∧ ¬lru.Current n

/-- A put of a new key finds room or drops a key, a put of a live key leaves the
only old position, and so does a delete; a new maximum is not below the number
of keys. -/
def Keeps [BEq V] (lru : EtsLru K V) : Op K V → Prop
  | .put key value => lru.accepts key value →
    let del : Int := lru.n + 1 - lru.max_size
    match lru.keys.get key with
    | none => (lru.live : Int) < lru.max_size ∨ lru.max_size = 0 ∨ 0 < del ∧ lru.Current del.toNat
    | some (_, n) => lru.stale = 0 ∨ 0 < del ∧ (n = del.toNat ∨ lru.Leftover del.toNat)
  | .get _ => True
  | .delete key => (lru.keys.get key).isSome → lru.stale = 0
  | .flush => True
  | .set_max_size max_size => (lru.live : Int) ≤ max_size

def Along [BEq V] (lru : EtsLru K V) : List (Op K V) → Prop
  | [] => True
  | op :: ops => lru.Keeps op ∧ Along (lru.step op) ops

variable {lru : EtsLru K V} {last : K → Option (Last V)} {key : K} {value : Option V}

/-! ## The rows -/

/-- Every live key has its position, and no position is ahead of the counter. -/
structure WF (lru : EtsLru K V) : Prop where
  position : ∀ key value n, lru.keys.get key = some (value, n) → lru.positions.get n = some key
  bound : ∀ n key, lru.positions.get n = some key → 0 < n ∧ n ≤ lru.n

theorem wf_new (m : Int) (filter : Option V → Bool) : WF (new m filter : EtsLru K V) :=
  ⟨by simp [new], by simp [new]⟩

theorem sized_new (m : Int) (filter : Option V → Bool) : (new m filter : EtsLru K V).Sized := by
  simp [Sized, size, live, new, SMap.empty]

theorem WF.live_lt (h : WF lru) (l : List Nat) (hn : l.Nodup)
    (hl : ∀ n ∈ l, (lru.positions.get n).isSome ∧ ¬lru.Current n) :
    lru.live + l.length ≤ lru.positions.entries.length := by
  have hnodup : (lru.keys.entries.map (·.2.2)).Nodup := by
    refine List.Nodup.map_on (fun d hd e he hde => ?_) (List.Nodup.of_map _ lru.keys.keys_nodup)
    have h1 := h.position _ _ _ ((SMap.mem_iff ..).1 hd)
    have h2 := h.position _ _ _ ((SMap.mem_iff ..).1 he)
    rw [hde, h2] at h1
    have hkey := Option.some.inj h1
    have hd' := (SMap.mem_iff ..).1 hd
    have he' := (SMap.mem_iff ..).1 he
    rw [hkey] at he'
    rw [hd'] at he'
    exact Prod.ext hkey.symm (Option.some.inj he')
  have hdisj : ∀ n ∈ lru.keys.entries.map (·.2.2), n ∉ l := by
    intro n hm hnl
    obtain ⟨d, hd, rfl⟩ := List.mem_map.1 hm
    have hget := (SMap.mem_iff ..).1 hd
    exact (hl _ hnl).2 ⟨d.1, d.2.1, h.position _ _ _ hget, hget⟩
  have hall : (lru.keys.entries.map (·.2.2) ++ l).Nodup :=
    List.nodup_append.2 ⟨hnodup, hn, fun a ha b hb e => hdisj a ha (e ▸ hb)⟩
  have hsub : lru.keys.entries.map (·.2.2) ++ l ⊆ lru.positions.entries.map Prod.fst := by
    intro n hm
    have hsome : (lru.positions.get n).isSome := by
      rcases List.mem_append.1 hm with hm | hm
      · obtain ⟨d, hd, rfl⟩ := List.mem_map.1 hm
        simp [h.position _ _ _ ((SMap.mem_iff ..).1 hd)]
      · exact (hl n hm).1
    obtain ⟨key, hkey⟩ := Option.isSome_iff_exists.1 hsome
    exact List.mem_map.2 ⟨(n, key), (SMap.mem_iff ..).2 hkey, rfl⟩
  have := List.Nodup.length_le_of_subset hall hsub
  simpa [live] using this

theorem WF.live_le (h : WF lru) : lru.live ≤ lru.positions.entries.length :=
  h.live_lt [] (by simp) (by simp)

theorem WF.leftover (h : WF lru) {n : Nat} (hn : lru.Leftover n) :
    lru.live + 1 ≤ lru.positions.entries.length :=
  h.live_lt [n] (by simp) (by simpa [Leftover] using hn)

theorem WF.sized_iff (h : WF lru) : lru.Sized ↔ lru.stale ≤ 1 := by
  have := h.live_le
  unfold Sized size stale live at *
  dsimp only
  omega

/-! ## What `evict` drops -/

section
variable (lru)

theorem evict_nothing (h : lru.del ≤ 0 ∨
    lru.positions.get lru.del.toNat = none) : lru.evict = lru := by
  unfold evict
  rcases h with h | h
  · simp [show ¬0 < lru.del by omega]
  · simp [h]

theorem evict_current (hd : 0 < lru.del)
    (h : lru.Current lru.del.toNat) :
    ∃ key value, lru.keys.get key = some (value, lru.del.toNat) ∧
      lru.positions.get lru.del.toNat = some key ∧
      lru.evict = { lru with
        positions := lru.positions.del lru.del.toNat
        keys := lru.keys.del key } := by
  obtain ⟨key, value, h1, h2⟩ := h
  refine ⟨key, value, h2, h1, ?_⟩
  unfold evict
  simp [hd, h1, h2]

theorem evict_leftover (hd : 0 < lru.del)
    (h : lru.Leftover lru.del.toNat) :
    lru.evict = { lru with positions := lru.positions.del lru.del.toNat } := by
  obtain ⟨key, hkey⟩ := Option.isSome_iff_exists.1 h.1
  have hcur := h.2
  unfold evict
  simp only [hd, if_true, hkey]
  split
  · rfl
  · rename_i value n hget
    rw [if_neg]
    intro e
    exact hcur ⟨key, value, hkey, by rw [hget, e]⟩

end

/-- Which of the three it is. -/
theorem evict_cases (lru : EtsLru K V) :
    (lru.del ≤ 0 ∨ lru.positions.get lru.del.toNat = none) ∨
      0 < lru.del ∧ (lru.Current lru.del.toNat ∨
        lru.Leftover lru.del.toNat) := by
  by_cases hd : 0 < lru.del
  · cases hp : lru.positions.get lru.del.toNat with
    | none => exact .inl (.inr rfl)
    | some key =>
      by_cases hc : lru.Current lru.del.toNat
      · exact .inr ⟨hd, .inl hc⟩
      · exact .inr ⟨hd, .inr ⟨by simp [hp], hc⟩⟩
  · exact .inl (.inl (by omega))

/-- A key is dropped with the position of its value. -/
theorem WF.evict_get (h : WF lru) (k : K) : lru.evict.keys.get k =
    (lru.keys.get k).filter fun d => decide ((d.2 : Int) ≠ lru.del) := by
  have hkeep : ∀ j : Nat, (∀ value n, lru.keys.get k = some (value, n) → n ≠ j) →
      (j : Int) = lru.del ∨ lru.del ≤ 0 → lru.keys.get k =
        (lru.keys.get k).filter fun d => decide ((d.2 : Int) ≠ lru.del) := by
    intro j hj hd
    cases hk : lru.keys.get k with
    | none => rfl
    | some d =>
      have hn := hj d.1 d.2 hk
      have hpos := (h.bound _ _ (h.position _ _ _ hk)).1
      rw [Option.filter_some, if_pos (decide_eq_true (by omega))]
  rcases evict_cases lru with hno | ⟨hd, hcur | hleft⟩
  · rw [evict_nothing lru hno]
    rcases hno with hd | hp
    · exact hkeep 0 (fun value n hk => (h.bound _ _ (h.position _ _ _ hk)).1.ne') (.inr hd)
    · by_cases hd : lru.del ≤ 0
      · exact hkeep 0 (fun value n hk => (h.bound _ _ (h.position _ _ _ hk)).1.ne') (.inr hd)
      · refine hkeep _ (fun value n hk e => ?_) (.inl (Int.toNat_of_nonneg (by omega)))
        rw [← e, h.position _ _ _ hk] at hp
        cases hp
  · obtain ⟨key, value, h1, h2, he⟩ := evict_current lru hd hcur
    rw [he]
    dsimp only
    rw [SMap.get_del]
    by_cases e : key = k
    · subst e
      rw [if_pos rfl, h1, Option.filter_some]
      simp [Int.toNat_of_nonneg (Int.le_of_lt hd)]
    · rw [if_neg e]
      refine hkeep _ (fun value n hk e' => e ?_) (.inl (Int.toNat_of_nonneg (by omega)))
      rw [← e', h.position _ _ _ hk] at h2
      exact (Option.some.inj h2).symm
  · rw [evict_leftover lru hd hleft]
    refine hkeep _ (fun value n hk e => hleft.2 ?_) (.inl (Int.toNat_of_nonneg (by omega)))
    rw [← e]
    exact ⟨k, value, h.position _ _ _ hk, hk⟩

theorem WF.evict_positions (h : WF lru) (n : Nat) : lru.evict.positions.get n =
    if (n : Int) = lru.del then none else lru.positions.get n := by
  rcases evict_cases lru with hno | ⟨hd, hrow⟩
  · rw [evict_nothing lru hno]
    split
    · rename_i e
      cases hp : lru.positions.get n with
      | none => rfl
      | some key =>
        have hpos := (h.bound n key hp).1
        rcases hno with hd | hnone
        · omega
        · rw [← e, Int.toNat_natCast, hp] at hnone
          cases hnone
    · rfl
  · have hpos : lru.evict.positions = lru.positions.del lru.del.toNat := by
      rcases hrow with hcur | hleft
      · obtain ⟨key, value, -, -, he⟩ := evict_current lru hd hcur
        rw [he]
      · rw [evict_leftover lru hd hleft]
    rw [hpos, SMap.get_del]
    refine if_congr ?_ rfl rfl
    omega

theorem evict_meta (lru : EtsLru K V) : lru.evict.n = lru.n ∧ lru.evict.max_size = lru.max_size := by
  rcases evict_cases lru with hno | ⟨hd, hcur | hleft⟩
  · rw [evict_nothing lru hno]; exact ⟨rfl, rfl⟩
  · obtain ⟨key, value, -, -, he⟩ := evict_current lru hd hcur
    rw [he]; exact ⟨rfl, rfl⟩
  · rw [evict_leftover lru hd hleft]; exact ⟨rfl, rfl⟩

theorem store_del (lru : EtsLru K V) (key : K) (value : Option V) :
    (lru.store key value).del = lru.n + 1 - lru.max_size := by
  simp [store, del]

theorem WF.fresh (h : WF lru) : lru.positions.get (lru.n + 1) = none := by
  cases hp : lru.positions.get (lru.n + 1) with
  | none => rfl
  | some key => have := (h.bound _ _ hp).2; omega

theorem WF.store (h : WF lru) (key : K) (value : Option V) : WF (lru.store key value) where
  position k v n hk := by
    unfold EtsLru.store at hk ⊢
    dsimp only at hk ⊢
    rw [SMap.get_put] at hk ⊢
    by_cases e : key = k
    · subst e
      simp at hk
      simp [hk.2]
    · rw [if_neg e] at hk
      have hp := h.position k v n hk
      have := (h.bound _ _ hp).2
      rw [if_neg (by omega), hp]
  bound n k hp := by
    unfold EtsLru.store at hp ⊢
    dsimp only at hp ⊢
    rw [SMap.get_put] at hp
    by_cases e : lru.n + 1 = n
    · omega
    · rw [if_neg e] at hp
      have := h.bound n k hp
      omega

theorem WF.evict (h : WF lru) : WF lru.evict where
  position k v n hk := by
    rw [h.evict_get, Option.filter_eq_some_iff] at hk
    rw [h.evict_positions, if_neg (by simpa using hk.2)]
    exact h.position k v n hk.1
  bound n k hp := by
    rw [h.evict_positions] at hp
    rw [(evict_meta lru).1]
    split at hp
    · cases hp
    · exact h.bound n k hp

theorem WF.step [BEq V] (h : WF lru) (op : Op K V) : WF (lru.step op) := by
  cases op with
  | put key value =>
    show WF (lru.put key value)
    unfold EtsLru.put
    split
    · exact (h.store key value).evict
    · exact h
  | get _ => exact h
  | delete key =>
    refine ⟨fun k v n hk => h.position k v n ?_, h.bound⟩
    have hk' : (lru.keys.del key).get k = some (v, n) := hk
    rw [SMap.get_del] at hk'
    split at hk'
    · cases hk'
    · exact hk'
  | flush => exact wf_new ..
  | set_max_size m => exact ⟨h.position, h.bound⟩

/-! ## What `get` answers -/

/-- The rows agree with what was last accepted. -/
def Tracks (lru : EtsLru K V) (last : K → Option (Last V)) : Prop :=
  ∀ k, match last k with
    | none => lru.keys.get k = none
    | some l => (∃ n, n + l.newer = lru.n ∧ lru.keys.get k = some (l.value, n)) ∨
        l.within = false ∧ lru.keys.get k = none

theorem Tracks.serves (h : Tracks lru last) : lru.Serves last := by
  intro k default
  have hk := h k
  unfold EtsLru.get
  cases hl : last k with
  | none =>
    rw [hl] at hk
    dsimp only at hk ⊢
    rw [hk]; rfl
  | some l =>
    rw [hl] at hk
    dsimp only at hk ⊢
    rcases hk with ⟨n, -, hk⟩ | ⟨hw, hk⟩
    · left; rw [hk]; rfl
    · right; rw [hk]; exact ⟨hw, rfl⟩

theorem Tracks.put [BEq V] (hwf : WF lru) (h : Tracks lru last) (key : K) (value : Option V) :
    Tracks (lru.put key value) (lru.note last (.put key value)) := by
  unfold EtsLru.put note
  dsimp only
  by_cases ha : lru.accepts key value
  · rw [if_pos ha, if_pos ha]
    intro k
    rw [(hwf.store key value).evict_get, store_del, (evict_meta _).1]
    unfold EtsLru.store
    dsimp only
    rw [SMap.get_put]
    by_cases e : key = k
    · subst e
      simp only [if_true, Option.filter_some]
      by_cases hm : lru.max_size = 0
      · right; simp [hm]
      · left
        refine ⟨lru.n + 1, by simp, ?_⟩
        rw [if_pos (by simp; omega)]
    · rw [if_neg e, if_neg (Ne.symm e)]
      have hk := h k
      cases hl : last k with
      | none =>
        rw [hl] at hk
        dsimp only [Option.map_none] at hk ⊢
        rw [hk]; rfl
      | some l =>
        rw [hl] at hk
        dsimp only [Option.map_some] at hk ⊢
        rcases hk with ⟨n, hn, hk⟩ | ⟨hw, hk⟩
        · rw [hk, Option.filter_some]
          by_cases hm : lru.max_size = l.newer + 1
          · right
            rw [if_neg (by simp; omega)]
            simp [hm]
          · left
            exact ⟨n, by omega, if_pos (by simp; omega)⟩
        · right
          rw [hk, hw]; exact ⟨rfl, rfl⟩
  · rw [if_neg ha, if_neg ha]; exact h

theorem Tracks.step [BEq V] (hwf : WF lru) (h : Tracks lru last) (op : Op K V) :
    Tracks (lru.step op) (lru.note last op) := by
  cases op with
  | put key value => exact h.put hwf key value
  | get _ => exact h
  | delete key =>
    intro k
    show match Function.update last key none k with
      | none => (lru.keys.del key).get k = none
      | some l => (∃ n, n + l.newer = lru.n ∧ (lru.keys.del key).get k = some (l.value, n)) ∨
          l.within = false ∧ (lru.keys.del key).get k = none
    rw [SMap.get_del]
    by_cases e : key = k
    · subst e
      rw [Function.update_self, if_pos rfl]
    · rw [Function.update_of_ne (Ne.symm e), if_neg e]
      exact h k
  | flush => exact fun k => rfl
  | set_max_size m =>
    intro k
    have hk := h k
    unfold note EtsLru.step set_max_size
    dsimp only
    cases hl : last k with
    | none =>
      rw [hl] at hk
      exact hk
    | some l =>
      rw [hl] at hk
      refine hk.imp_right fun hw => ⟨?_, hw.2⟩
      show (l.within && _) = false
      rw [hw.1, Bool.false_and]

theorem WF.spares [BEq V] (h : WF lru) : lru.Spares := by
  intro key value ha k v n hk hn
  unfold EtsLru.put
  rw [if_pos ha, (h.store key value).evict_get, hk, store_del, Option.filter_some]
  exact if_pos (by simpa using hn)

/-! ## How many rows a step leaves -/

theorem evict_counts (lru : EtsLru K V) :
    (lru.positions.get lru.del.toNat = none ∨ lru.del ≤ 0 →
      lru.evict.live = lru.live ∧ lru.evict.positions.entries.length = lru.positions.entries.length) ∧
    (0 < lru.del → lru.Current lru.del.toNat → lru.evict.live + 1 = lru.live ∧
      lru.evict.positions.entries.length + 1 = lru.positions.entries.length) ∧
    (0 < lru.del → lru.Leftover lru.del.toNat → lru.evict.live = lru.live ∧
      lru.evict.positions.entries.length + 1 = lru.positions.entries.length) := by
  refine ⟨fun h => ?_, fun hd hcur => ?_, fun hd hleft => ?_⟩
  · rw [evict_nothing lru h.symm]; exact ⟨rfl, rfl⟩
  · obtain ⟨key, value, h1, h2, he⟩ := evict_current lru hd hcur
    have hk := lru.keys.length_del key
    have hp := lru.positions.length_del lru.del.toNat
    rw [h1] at hk
    rw [h2] at hp
    rw [he]
    exact ⟨hk, hp⟩
  · have hp := lru.positions.length_del lru.del.toNat
    rw [hleft.1] at hp
    rw [evict_leftover lru hd hleft]
    exact ⟨rfl, hp⟩

theorem WF.store_counts (h : WF lru) (key : K) (value : Option V) :
    (lru.store key value).live = lru.live + (if (lru.keys.get key).isSome then 0 else 1) ∧
      (lru.store key value).positions.entries.length = lru.positions.entries.length + 1 := by
  have hp := lru.positions.length_put (lru.n + 1) key
  rw [h.fresh] at hp
  exact ⟨lru.keys.length_put key (value, lru.n + 1), hp⟩

theorem positions_store (lru : EtsLru K V) (key : K) (value : Option V) (n : Nat) :
    (lru.store key value).positions.get n = if lru.n + 1 = n then some key else lru.positions.get n :=
  SMap.get_put ..

/-- The positions that are current once `key` is stored: its own and those of the
other keys. -/
theorem WF.current_store (h : WF lru) (key : K) (value : Option V) (n : Nat) :
    (lru.store key value).Current n ↔ n = lru.n + 1 ∨
      lru.Current n ∧ ∀ v m, lru.keys.get key = some (v, m) → n ≠ m := by
  unfold Current
  simp only [positions_store]
  unfold EtsLru.store
  dsimp only
  refine ⟨?_, ?_⟩
  · intro hx
    obtain ⟨k, v, h1, h2⟩ := hx
    rw [SMap.get_put] at h2
    by_cases e : lru.n + 1 = n
    · exact .inl e.symm
    · rw [if_neg e] at h1
      by_cases ek : key = k
      · simp [ek, e] at h2
      · rw [if_neg ek] at h2
        refine .inr ⟨⟨k, v, h1, h2⟩, fun v' m hm e' => ek ?_⟩
        rw [e', h.position _ _ _ hm] at h1
        exact Option.some.inj h1
  · intro hx
    rcases hx with rfl | ⟨⟨k, v, h1, h2⟩, hne⟩
    · exact ⟨key, value, by simp, by simp⟩
    · have hle := (h.bound _ _ h1).2
      have ek : key ≠ k := fun ek => hne v n (by rw [ek, h2]) rfl
      exact ⟨k, v, by rw [if_neg (by omega), h1], by rw [SMap.get_put_ne _ _ ek, h2]⟩

/-- A put of a new key. -/
theorem WF.put_new (h : WF lru) (hb : lru.Bounded) (hs : lru.Sized) (hk : lru.keys.get key = none) :
    ((lru.store key value).evict.Bounded ∧ (lru.store key value).evict.Sized) ↔
      (lru.live : Int) < lru.max_size ∨ lru.max_size = 0 ∨
        0 < (lru.n : Int) + 1 - lru.max_size ∧ lru.Current ((lru.n : Int) + 1 - lru.max_size).toNat := by
  have hs1 := h.store key value
  have hcur := h.current_store key value ((lru.n : Int) + 1 - lru.max_size).toNat
  have hpos := positions_store lru key value ((lru.n : Int) + 1 - lru.max_size).toNat
  obtain ⟨hlive, hrec⟩ := h.store_counts key value
  have hle := h.live_le
  have hmax : (lru.store key value).evict.max_size = lru.max_size := (evict_meta _).2
  rw [h.sized_iff] at hs
  rw [hs1.evict.sized_iff]
  unfold stale Bounded at *
  rw [hmax]
  rw [hk, Option.isSome_none, if_neg (by simp)] at hlive
  have hcur' : (lru.store key value).Current ((lru.n : Int) + 1 - lru.max_size).toNat ↔
      ((lru.n : Int) + 1 - lru.max_size).toNat = lru.n + 1 ∨
        lru.Current ((lru.n : Int) + 1 - lru.max_size).toNat := by
    rw [hcur, hk]; simp
  obtain ⟨hno, hdrop, hleft⟩ := evict_counts (lru.store key value)
  rw [store_del] at hno hdrop hleft
  rcases evict_cases (lru.store key value) with hc | ⟨hd, hc | hc⟩ <;> rw [store_del] at *
  · obtain ⟨h1, h2⟩ := hno hc.symm
    have hnot : ¬(lru.max_size = 0 ∨ 0 < (lru.n : Int) + 1 - lru.max_size ∧
        lru.Current ((lru.n : Int) + 1 - lru.max_size).toNat) := by
      rintro (h0 | ⟨hd, hx⟩)
      · rcases hc with hc | hc
        · omega
        · rw [hpos, if_pos (by omega)] at hc
          cases hc
      · obtain ⟨k, v, hp, -⟩ := hx
        rcases hc with hc | hc
        · omega
        · rw [hpos, hp] at hc
          split at hc <;> cases hc
    rw [or_iff_left hnot]
    clear hcur hcur' hno hdrop hleft hnot
    omega
  · obtain ⟨h1, h2⟩ := hdrop hd hc
    refine iff_of_true ⟨by omega, by omega⟩ ?_
    rcases hcur'.1 hc with e | hx
    · right; left; omega
    · exact .inr (.inr ⟨hd, hx⟩)
  · obtain ⟨h1, h2⟩ := hleft hd hc
    have hnot : ¬(lru.max_size = 0 ∨ 0 < (lru.n : Int) + 1 - lru.max_size ∧
        lru.Current ((lru.n : Int) + 1 - lru.max_size).toNat) := by
      rintro (h0 | ⟨-, hx⟩)
      · exact hc.2 (hcur'.2 (.inl (by omega)))
      · exact hc.2 (hcur'.2 (.inr hx))
    rw [or_iff_left hnot]
    clear hcur hcur' hno hdrop hleft hnot
    omega

/-- A put of a key that has a value. -/
theorem WF.put_live (h : WF lru) (hb : lru.Bounded) (hs : lru.Sized) {v : Option V} {m : Nat}
    (hk : lru.keys.get key = some (v, m)) :
    ((lru.store key value).evict.Bounded ∧ (lru.store key value).evict.Sized) ↔
      lru.stale = 0 ∨ 0 < (lru.n : Int) + 1 - lru.max_size ∧
        (m = ((lru.n : Int) + 1 - lru.max_size).toNat ∨
          lru.Leftover ((lru.n : Int) + 1 - lru.max_size).toNat) := by
  have hs1 := h.store key value
  have hcur := h.current_store key value ((lru.n : Int) + 1 - lru.max_size).toNat
  have hpos := positions_store lru key value ((lru.n : Int) + 1 - lru.max_size).toNat
  obtain ⟨hlive, hrec⟩ := h.store_counts key value
  have hle := h.live_le
  have hmax : (lru.store key value).evict.max_size = lru.max_size := (evict_meta _).2
  have hpm := h.position _ _ _ hk
  have hone : 0 < lru.live := List.length_pos_of_mem ((SMap.mem_iff ..).2 hk)
  rw [h.sized_iff] at hs
  rw [hs1.evict.sized_iff]
  unfold Bounded at *
  rw [hmax]
  unfold stale at *
  rw [hk, Option.isSome_some, if_pos rfl] at hlive
  -- the maximum is not zero, so the new position is not the one that is dropped
  have hne : ((lru.n : Int) + 1 - lru.max_size).toNat ≠ lru.n + 1 := by omega
  have hcur' : (lru.store key value).Current ((lru.n : Int) + 1 - lru.max_size).toNat ↔
      lru.Current ((lru.n : Int) + 1 - lru.max_size).toNat ∧
        ((lru.n : Int) + 1 - lru.max_size).toNat ≠ m := by
    rw [hcur, or_iff_right hne]
    refine and_congr_right fun _ => ⟨fun hx => hx v m hk, fun hx v' m' hk' => ?_⟩
    rw [hk] at hk'
    cases hk'
    exact hx
  rw [if_neg (Ne.symm hne)] at hpos
  obtain ⟨hno, hdrop, hleft⟩ := evict_counts (lru.store key value)
  rw [store_del] at hno hdrop hleft
  rcases evict_cases (lru.store key value) with hc | ⟨hd, hc | hc⟩ <;> rw [store_del] at *
  · obtain ⟨h1, h2⟩ := hno hc.symm
    have hnot : ¬(0 < (lru.n : Int) + 1 - lru.max_size ∧
        (m = ((lru.n : Int) + 1 - lru.max_size).toNat ∨
          lru.Leftover ((lru.n : Int) + 1 - lru.max_size).toNat)) := by
      intro hx
      obtain ⟨hd, hx⟩ := hx
      have hnone : lru.positions.get ((lru.n : Int) + 1 - lru.max_size).toNat = none :=
        hpos.symm.trans (hc.resolve_left (by omega))
      rcases hx with e | hx
      · rw [← e, hpm] at hnone
        cases hnone
      · have := hx.1
        rw [hnone] at this
        cases this
    rw [or_iff_left hnot]
    -- only the counts matter
    clear hcur hcur' hno hdrop hleft hnot hne
    omega
  · obtain ⟨h1, h2⟩ := hdrop hd hc
    have hold := hcur'.1 hc
    have hnot : ¬(0 < (lru.n : Int) + 1 - lru.max_size ∧
        (m = ((lru.n : Int) + 1 - lru.max_size).toNat ∨
          lru.Leftover ((lru.n : Int) + 1 - lru.max_size).toNat)) := by
      intro hx
      rcases hx.2 with e | hx
      · exact hold.2 e.symm
      · exact hx.2 hold.1
    rw [or_iff_left hnot]
    clear hcur hcur' hno hdrop hleft hnot hne
    omega
  · obtain ⟨h1, h2⟩ := hleft hd hc
    refine iff_of_true ⟨by omega, by omega⟩ (.inr ⟨hd, ?_⟩)
    by_cases e : ((lru.n : Int) + 1 - lru.max_size).toNat = m
    · exact .inl e.symm
    · refine .inr ⟨?_, fun hx => hc.2 (hcur'.2 ⟨hx, e⟩)⟩
      rw [← hpos]
      exact hc.1

/-- **What a step leaves.** -/
theorem WF.keeps_iff [BEq V] (h : WF lru) (hb : lru.Bounded) (hs : lru.Sized) (op : Op K V) :
    ((lru.step op).Bounded ∧ (lru.step op).Sized) ↔ lru.Keeps op := by
  cases op with
  | put key value =>
    show ((lru.put key value).Bounded ∧ (lru.put key value).Sized) ↔ (lru.accepts key value → _)
    unfold EtsLru.put
    by_cases ha : lru.accepts key value
    · rw [if_pos ha, imp_iff_right ha]
      cases hk : lru.keys.get key with
      | none => exact h.put_new hb hs hk
      | some d => exact h.put_live hb hs hk
    · rw [if_neg ha]
      exact iff_of_true ⟨hb, hs⟩ fun h' => absurd h' ha
  | get _ => exact iff_of_true ⟨hb, hs⟩ trivial
  | delete key =>
    have hwf := h.step (.delete key)
    have hlen := lru.keys.length_del key
    have hle := h.live_le
    rw [h.sized_iff] at hs
    rw [hwf.sized_iff]
    show (((lru.keys.del key).entries.length : Int) ≤ lru.max_size ∧
      lru.positions.entries.length - (lru.keys.del key).entries.length ≤ 1) ↔ (_ → _)
    unfold Bounded at hb
    unfold stale at *
    unfold live at *
    by_cases hk : (lru.keys.get key).isSome
    · rw [if_pos hk] at hlen
      rw [imp_iff_right hk]
      omega
    · rw [if_neg hk] at hlen
      exact iff_of_true ⟨by omega, by omega⟩ fun h' => absurd h' hk
  | flush =>
    refine iff_of_true ⟨?_, sized_new ..⟩ trivial
    unfold Bounded at hb ⊢
    show ((0 : Nat) : Int) ≤ lru.max_size
    omega
  | set_max_size m => exact and_iff_left hs

theorem good_iff [BEq V] (h : WF lru) (ht : Tracks lru last) :
    lru.Good last ↔ lru.Bounded ∧ lru.Sized := by
  unfold Good
  rw [← and_assoc, and_iff_left ⟨ht.serves, h.spares⟩]

theorem right_iff [BEq V] : ∀ (ops : List (Op K V)) {lru : EtsLru K V} {last : K → Option (Last V)},
    WF lru → Tracks lru last → lru.Bounded → lru.Sized → (lru.Right last ops ↔ lru.Along ops)
  | [], _, _, h, ht, hb, hs => iff_of_true ((good_iff h ht).2 ⟨hb, hs⟩) trivial
  | op :: ops, lru, last, h, ht, hb, hs => by
    have hwf := h.step op
    have htr := ht.step h op
    have hkeeps := h.keeps_iff hb hs op
    have hgood := (good_iff h ht).2 ⟨hb, hs⟩
    refine ⟨?_, ?_⟩
    · intro hr
      have hfirst : (lru.step op).Good (lru.note last op) := by
        have := hr.2
        cases ops with
        | nil => exact this
        | cons => exact this.1
      obtain ⟨hb', hs'⟩ := (good_iff hwf htr).1 hfirst
      exact ⟨hkeeps.1 ⟨hb', hs'⟩, (right_iff ops hwf htr hb' hs').1 hr.2⟩
    · intro ha
      obtain ⟨hb', hs'⟩ := hkeeps.2 ha.1
      exact ⟨hgood, (right_iff ops hwf htr hb' hs').2 ha.2⟩

/-- **A bounded cache.** In every state of a run the keys are no more than the
maximum and `size` tells their number, `get` is right and a drop takes no newer
value, exactly when each step keeps to its condition. -/
theorem lru_bounded_iff [BEq V] (max_size : Int) (filter : Option V → Bool) (ops : List (Op K V)) :
    (new max_size filter : EtsLru K V).Right (fun _ => none) ops ↔
      0 ≤ max_size ∧ (new max_size filter : EtsLru K V).Along ops := by
  have hb : (new max_size filter : EtsLru K V).Bounded ↔ 0 ≤ max_size := Iff.rfl
  have ht : Tracks (new max_size filter : EtsLru K V) fun _ => none := fun _ => rfl
  by_cases h0 : 0 ≤ max_size
  · rw [and_iff_right h0]
    exact right_iff ops (wf_new ..) ht (hb.2 h0) (sized_new ..)
  · refine iff_of_false (fun hr => h0 (hb.1 ?_)) fun h => h0 h.1
    cases ops with
    | nil => exact hr.1
    | cons => exact hr.1.1

/-- A key put three times is counted twice, and a smaller maximum leaves all keys
where they are. -/
theorem third_put_counted : ((([.put 1 (some 1), .put 1 (some 2), .put 1 (some 3)] : List (Op Nat Nat)).foldl
      step (new 10 fun _ => true)).live = 1 ∧
    (([.put 1 (some 1), .put 1 (some 2), .put 1 (some 3)] : List (Op Nat Nat)).foldl
      step (new 10 fun _ => true)).size = 2) ∧
    (([.put 1 (some 1), .put 2 (some 2), .put 3 (some 3), .set_max_size 1] : List (Op Nat Nat)).foldl
      step (new 3 fun _ => true)).live = 3 := by decide

end EtsLru
end Diode.L5
