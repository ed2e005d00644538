import Diode.Core.Pairs
import Diode.Core.Probe

/-!
# The hash table of the host

`Map` keeps its pairs in a vector in the order they came and finds them through
a ring of indexes, probed with the stride 1051. The loop of `get` has no bound:
`none` is the outcome of a probe that never ends.

What the table stands for is the list of its pairs: what returns is right
(`get_some`, `set_some`: reading is `List.lookup`, writing is `upsert`).
-/
namespace Diode.L4
open Diode.Core Pairs Probe

variable {K V : Type}

structure Map (K V : Type) where
  /-- 0 is a free cell, `i + 1` refers to the pair at `i` -/
  indexes : List Nat
  data : List (K × V)
  deriving DecidableEq

namespace Map

def stride : Nat := 1051

def size (m : Map K V) : Nat := m.data.length

def capacity (m : Map K V) : Nat := m.indexes.length

/-- mirrors evm/host.hpp:181-185 -/
def clear : Map K V := ⟨[], []⟩

def cell (m : Map K V) (n : Nat) : Nat := m.indexes.getD n 0

/-- The pair a cell refers to.
mirrors evm/host.hpp:110-113 -/
def entry (m : Map K V) (n : Nat) : Option (K × V) :=
  match m.cell n with
  | 0 => none
  | i + 1 => m.data[i]?

def keys (m : Map K V) : List K := m.data.map Prod.fst

/-- The capacity after the test at the head of `get`. -/
def next (m : Map K V) : Nat := if m.size + 1 > m.capacity / 4 then (m.size + 100) * 6 else m.capacity

variable [DecidableEq K]

/-- The probe stops at a free cell and at the key's own. -/
def stops (m : Map K V) (key : K) (n : Nat) : Bool := (m.entry n).all fun d => d.1 = key

section
variable (hash : K → Nat)

/-- Where the probe for a key is after `n` steps. -/
def probe (m : Map K V) (key : K) (n : Nat) : Nat := visit stride m.capacity (hash key % m.capacity) n

/-- The loop of `get`. -/
def find (m : Map K V) (key : K) : Option Nat :=
  walk stride m.capacity (m.stops key) m.capacity (hash key % m.capacity)

/-- What `set` does once the table has its size. -/
def place (m : Map K V) (key : K) (value : V) : Option (Map K V) :=
  (m.find hash key).map fun n =>
    match m.cell n with
    | 0 => ⟨m.indexes.set n (m.size + 1), m.data ++ [(key, value)]⟩
    | i + 1 => ⟨m.indexes, m.data.set i (key, value)⟩

/-- A table of free cells. -/
def blank (capacity : Nat) : Map K V := ⟨List.replicate capacity 0, []⟩

def placeAll (m : Map K V) (l : List (K × V)) : Option (Map K V) :=
    l.foldlM (fun m d => m.place hash d.1 d.2) m

/-- The copy has six cells for each of `target` pairs, so `set` does not enlarge
it in turn (`resize_eq`).
mirrors evm/host.hpp:121-134 -/
def resize (m : Map K V) (target : Nat) : Option (Map K V) :=
  if m.capacity < target * 6 then (blank (target * 6)).placeAll hash m.data else some m

/-- The test at the head of `get`. -/
def grow (m : Map K V) : Option (Map K V) :=
  if m.size + 1 > m.capacity / 4 then m.resize hash (m.size + 100) else some m

/-- mirrors evm/host.hpp:146-169, without `ensure` -/
def get (m : Map K V) (key : K) : Option (Option V × Map K V) := do
  let m ← m.grow hash
  if m.size = 0 then some (none, m)
  else do
    let n ← m.find hash key
    some ((m.entry n).map Prod.snd, m)

/-- mirrors evm/host.hpp:146-179, `get` with `ensure` and the write through its
result. -/
def set (m : Map K V) (key : K) (value : V) : Option (Map K V) := do
  let m ← m.grow hash
  m.place hash key value

def setAll (m : Map K V) (l : List (K × V)) : Option (Map K V) :=
    l.foldlM (fun m d => m.set hash d.1 d.2) m

/-- The probe for a key meets a free cell or the key. -/
def Ends (m : Map K V) (key : K) : Prop := ∃ n, m.stops key (m.probe hash key n) = true

end

/-! ## Capacities -/

/-- The capacities a table of `c` cells goes through while it comes to hold
`pairs` pairs: it is enlarged when a quarter of the cells is taken. -/
inductive Reaches (pairs c : Nat) : Nat → Prop where
  | start : Reaches pairs c c
  | grown {d : Nat} (h : Reaches pairs c d) (hd : d / 4 < pairs) : Reaches pairs c ((d / 4 + 100) * 6)

/-- No capacity on the way to `n` more pairs is a multiple of the stride, so
every probe goes round all of the cells. A table without cells is enlarged
before it is probed. -/
def Whole (m : Map K V) (n : Nat) : Prop := ∀ c, Reaches (m.size + n) m.capacity c →
    0 < c → ¬ stride ∣ c

theorem Reaches.mono {pairs pairs' c d : Nat} (h : Reaches pairs c d) (hle : pairs ≤ pairs') :
    Reaches pairs' c d := by
  induction h with
  | start => exact .start
  | grown _ hd ih => exact .grown ih (by omega)

theorem Reaches.trans {pairs c d e : Nat} (h : Reaches pairs c d) (h' : Reaches pairs d e) :
    Reaches pairs c e := by
  induction h' with
  | start => exact h
  | grown _ hd ih => exact .grown ih hd

theorem Reaches.eq_of_room {pairs c d : Nat} (h : Reaches pairs c d) (hle : pairs ≤ c / 4) : d = c := by
  induction h with
  | start => rfl
  | grown _ hd ih =>
    rw [ih] at hd
    omega

/-- A cleared table has 600 cells until it holds 150 pairs. -/
theorem Reaches.of_clear {pairs d : Nat} (h : Reaches pairs 0 d) (hle : pairs ≤ 150) :
    d = 0 ∨ d = 600 := by
  induction h with
  | start => exact .inl rfl
  | grown _ hd ih =>
    rcases ih with rfl | rfl
    · exact .inr rfl
    · omega

omit [DecidableEq K] in
theorem Whole.of_room {m : Map K V} {n : Nat} (h : m.size + n ≤ m.capacity / 4)
    (hd : ¬ stride ∣ m.capacity) : m.Whole n := by
  intro c hc _
  rw [hc.eq_of_room h]
  exact hd

omit [DecidableEq K] in
theorem Whole.of_clear {m : Map K V} {n : Nat} (h0 : m.capacity = 0) (h : m.size + n ≤ 150) :
    m.Whole n := by
  intro c hc hpos
  rw [h0] at hc
  rcases hc.of_clear h with rfl | rfl
  · cases hpos
  · decide

/-! ## The ring of indexes -/

variable {hash : K → Nat} {m m' g : Map K V} {key : K} {v : V} {i n : Nat} {d : K × V}

/-- Every pair has one cell, found by the probe for its key. -/
structure WF (hash : K → Nat) (m : Map K V) : Prop where
  room : m.size ≤ m.capacity / 4
  nodup : (m.data.map Prod.fst).Nodup
  range : ∀ n i, m.cell n = i + 1 → i < m.size
  inj : ∀ n n' i, m.cell n = i + 1 → m.cell n' = i + 1 → n = n'
  reach : ∀ i d, m.data[i]? = some d →
    ∃ n, m.cell (m.probe hash d.1 n) = i + 1 ∧ ∀ p < n, m.cell (m.probe hash d.1 p) ≠ 0

omit [DecidableEq K] in
theorem cell_lt (h : m.cell n ≠ 0) : n < m.capacity := by
  by_contra hn
  exact h (by rw [cell, List.getD_eq_getElem?_getD, List.getElem?_eq_none (not_lt.1 hn), Option.getD_none])

omit [DecidableEq K] in
theorem entry_zero (h : m.cell n = 0) : m.entry n = none := by
  unfold entry
  rw [h]

omit [DecidableEq K] in
theorem entry_succ (h : m.cell n = i + 1) : m.entry n = m.data[i]? := by
  unfold entry
  rw [h]

theorem stops_zero (h : m.cell n = 0) (key : K) : m.stops key n = true := by
  unfold stops
  rw [entry_zero h]
  rfl

omit [DecidableEq K] in
theorem find_lt (hc : 0 < m.capacity) (key : K) : hash key % m.capacity < m.capacity := Nat.mod_lt _ hc

theorem find_spec (hc : 0 < m.capacity) (h : m.find hash key = some n) :
    ∃ p, n = m.probe hash key p ∧ m.stops key n = true ∧ ∀ q < p, m.stops key
      (m.probe hash key q) = false :=
  walk_eq_some (find_lt hc key) h

theorem find_of_ends (hc : 0 < m.capacity) (h : m.Ends hash key) : ∃ n, m.find hash key = some n :=
  (exists_walk_ring (find_lt hc key)).2 h

namespace WF

omit [DecidableEq K] in
theorem pair (hw : m.WF hash) (h : m.cell n = i + 1) : ∃ d, m.data[i]? = some d :=
  ⟨_, List.getElem?_eq_getElem (hw.range n i h)⟩

omit [DecidableEq K] in
/-- Two pairs of one key are one pair. -/
theorem index (hw : m.WF hash) {j : Nat} {e : K × V} (hi : m.data[i]? = some d)
    (hj : m.data[j]? = some e)
    (h : d.1 = e.1) : i = j := by
  obtain ⟨hi', hd⟩ := List.getElem?_eq_some_iff.1 hi
  obtain ⟨hj', he⟩ := List.getElem?_eq_some_iff.1 hj
  refine (@List.Nodup.getElem_inj_iff _ _ hw.nodup i (by simpa using hi') j (by simpa using hj')).1 ?_
  rw [List.getElem_map, List.getElem_map, hd, he, h]

/-- The cell where the probe for a stored key stops is the key's own. -/
theorem stop_own (hw : m.WF hash) (hi : m.data[i]? = some d) (h : m.stops d.1 n = true)
    (hn : m.cell n ≠ 0) :
    m.cell n = i + 1 := by
  obtain ⟨j, hj⟩ := Nat.exists_eq_succ_of_ne_zero hn
  obtain ⟨e, he⟩ := hw.pair hj
  unfold stops at h
  rw [entry_succ hj, he] at h
  have : e.1 = d.1 := by simpa using h
  rw [hj, hw.index hi he this.symm]

theorem ends_of_mem (hw : m.WF hash) (hi : m.data[i]? = some d) : m.Ends hash d.1 := by
  obtain ⟨p, hp, _⟩ := hw.reach i d hi
  refine ⟨p, ?_⟩
  unfold stops
  rw [entry_succ hp, hi]
  simp

theorem find_mem (hw : m.WF hash) (hi : m.data[i]? = some d) : ∃ n, m.find hash d.1 = some n ∧
    m.cell n = i + 1 := by
  obtain ⟨p, hp, hq⟩ := hw.reach i d hi
  have hc : 0 < m.capacity := by
    have := cell_lt (n := m.probe hash d.1 p) (by rw [hp]; exact Nat.succ_ne_zero i)
    omega
  obtain ⟨n, hn⟩ := find_of_ends hc (hw.ends_of_mem hi)
  refine ⟨n, hn, ?_⟩
  obtain ⟨r, rfl, hs, hr⟩ := find_spec hc hn
  refine hw.stop_own hi hs fun h0 => ?_
  -- the walk passes the key's cell before any free one
  have hpr : p ≤ r := by
    by_contra hlt
    exact hq r (by omega) h0
  rcases Nat.lt_or_eq_of_le hpr with h | rfl
  · have := hr p h
    unfold stops at this
    rw [entry_succ hp, hi] at this
    simp at this
  · rw [hp] at h0
    exact Nat.succ_ne_zero i h0

theorem find_new (hw : m.WF hash) (hc : 0 < m.capacity) (hk : key ∉ m.data.map Prod.fst)
    (h : m.find hash key = some n) :
    m.cell n = 0 ∧ n < m.capacity ∧ ∃ p, n = m.probe hash key p ∧
      ∀ q < p, m.cell (m.probe hash key q) ≠ 0 := by
  obtain ⟨p, rfl, hs, hq⟩ := find_spec hc h
  refine ⟨?_, visit_lt hc, p, rfl, fun q hlt h0 => ?_⟩
  · by_contra h0
    obtain ⟨i, hi⟩ := Nat.exists_eq_succ_of_ne_zero h0
    obtain ⟨e, he⟩ := hw.pair hi
    unfold stops at hs
    rw [entry_succ hi, he] at hs
    have : e.1 = key := by simpa using hs
    exact hk (this ▸ List.mem_map_of_mem (List.mem_of_getElem? he))
  · have := hq q hlt
    rw [stops_zero h0] at this
    cases this

end WF

omit [DecidableEq K] in
theorem mem_keys : key ∈ m.data.map Prod.fst ↔
    ∃ (i : Nat) (d : K × V), m.data[i]? = some d ∧ d.1 = key := by
  rw [List.mem_map]
  refine ⟨?_, ?_⟩
  · intro h
    obtain ⟨d, hd, rfl⟩ := h
    obtain ⟨i, hi⟩ := List.mem_iff_getElem?.1 hd
    exact ⟨i, d, hi, rfl⟩
  · intro h
    obtain ⟨i, d, hi, rfl⟩ := h
    exact ⟨d, List.mem_of_getElem? hi, rfl⟩

omit [DecidableEq K] in
theorem cell_set {v : Nat} (h : n < m.capacity) (p : Nat) {data : List (K × V)} :
    (⟨m.indexes.set n v, data⟩ : Map K V).cell p = if p = n then v else m.cell p := by
  unfold cell
  show (m.indexes.set n v).getD p 0 = _
  rw [List.getD_eq_getElem?_getD, List.getElem?_set]
  by_cases hp : p = n
  · subst hp
    rw [if_pos rfl, if_pos (show p < m.indexes.length from h), if_pos rfl]
    rfl
  · rw [if_neg (Ne.symm hp), if_neg hp, List.getD_eq_getElem?_getD]

/-- A new pair in the cell its probe found. -/
theorem WF.push (hw : m.WF hash) (hroom : m.size + 1 ≤ m.capacity / 4) (hk : key ∉ m.data.map Prod.fst)
    (h : m.find hash key = some n) (value : V) :
    (⟨m.indexes.set n (m.size + 1), m.data ++ [(key, value)]⟩ : Map K V).WF hash := by
  obtain ⟨h0, hn, p, hp, hq⟩ := hw.find_new (by omega) hk h
  have hcell := fun q => @cell_set K V m n (m.size + 1) hn q (m.data ++ [(key, value)])
  have hprobe : ∀ k q, (⟨m.indexes.set n (m.size + 1), m.data ++ [(key, value)]⟩ :
    Map K V).probe hash k q =
      m.probe hash k q := by
    intro k q
    unfold probe capacity
    rw [List.length_set]
  have hsize : (⟨m.indexes.set n (m.size + 1), m.data ++ [(key, value)]⟩ : Map K V).size = m.size + 1 :=
    List.length_append
  refine ⟨?_, ?_, ?_, ?_, ?_⟩
  · rw [hsize, capacity, List.length_set]
    exact hroom
  · rw [List.map_append]
    refine List.nodup_append.2 ⟨hw.nodup, List.nodup_singleton _, fun a ha b hb e => hk ?_⟩
    have hb : b = key := List.mem_singleton.1 hb
    subst hb
    subst e
    exact ha
  · intro q i hi
    rw [hcell] at hi
    rw [hsize]
    split at hi
    · omega
    · have := hw.range q i hi
      omega
  · intro q q' i hi hi'
    rw [hcell] at hi hi'
    split at hi <;> split at hi'
    · rename_i e e'
      rw [e, e']
    · have := hw.range q' i hi'
      omega
    · have := hw.range q i hi
      omega
    · exact hw.inj q q' i hi hi'
  · intro i d hi
    change (m.data ++ [(key, value)])[i]? = some d at hi
    simp only [hprobe, hcell]
    rcases lt_trichotomy i m.size with hlt | rfl | hgt
    · rw [List.getElem?_append_left hlt] at hi
      obtain ⟨r, hr, hrq⟩ := hw.reach i d hi
      refine ⟨r, ?_, fun q hqr => ?_⟩
      · rw [if_neg fun e => ?_]
        · exact hr
        · rw [e, h0] at hr
          exact absurd hr (by omega)
      · split
        · omega
        · exact hrq q hqr
    · have hd : d = (key, value) := by
        have hr := @List.getElem?_append_right _ m.data [(key, value)] m.data.length le_rfl
        rw [Nat.sub_self] at hr
        exact Option.some.inj (hi.symm.trans hr)
      subst hd
      refine ⟨p, if_pos hp.symm, fun q hqp => ?_⟩
      split
      · omega
      · exact hq q hqp
    · rw [List.getElem?_eq_none (by rw [List.length_append]; exact hgt)] at hi
      cases hi

/-- A new value for a key that has a cell. -/
theorem WF.overwrite (hw : m.WF hash) (hi : m.data[i]? = some d) (value : V) :
    (⟨m.indexes, m.data.set i (d.1, value)⟩ : Map K V).WF hash := by
  have hkeys : (m.data.set i (d.1, value)).map Prod.fst = m.data.map Prod.fst := by
    rw [← upsert_at hw.nodup hi, keys_upsert, if_pos (List.mem_map_of_mem (List.mem_of_getElem? hi))]
  have hget : ∀ (j : Nat) (e : K × V), (m.data.set i (d.1, value))[j]? = some e → ∃ e' :
    K × V, m.data[j]? = some e' ∧ e'.1 = e.1 := by
    intro j e hj
    have := congrArg (fun l : List K => l[j]?) hkeys
    simp only [List.getElem?_map, hj, Option.map_some] at this
    cases hm : m.data[j]? with
    | none => rw [hm] at this; cases this
    | some e' =>
      rw [hm] at this
      exact ⟨e', rfl, (Option.some.inj this).symm⟩
  refine ⟨?_, ?_, ?_, ?_, ?_⟩
  · show (m.data.set i (d.1, value)).length ≤ _
    rw [List.length_set]
    exact hw.room
  · show ((m.data.set i (d.1, value)).map Prod.fst).Nodup
    rw [hkeys]
    exact hw.nodup
  · intro n j hn
    show j < (m.data.set i (d.1, value)).length
    rw [List.length_set]
    exact hw.range n j hn
  · exact hw.inj
  · intro j e hj
    obtain ⟨e', hj', he⟩ := hget j e hj
    rw [← he]
    exact hw.reach j e' hj'

theorem place_of_find (h : m.find hash key = some n) (value : V) :
    ∃ m', m.place hash key value = some m' := by
  unfold place
  rw [h]
  exact ⟨_, rfl⟩

/-- A pair that has been placed is the only change. -/
theorem place_some {m' : Map K V} {value : V} (hw : m.WF hash) (hroom : m.size + 1 ≤ m.capacity / 4)
    (h : m.place hash key value = some m') : m'.WF hash ∧ m'.capacity = m.capacity ∧
      m'.data = upsert m.data key value := by
  obtain ⟨n, hn, rfl⟩ := Option.map_eq_some_iff.1 h
  by_cases hk : key ∈ m.data.map Prod.fst
  · obtain ⟨i, d, hi, rfl⟩ := mem_keys.1 hk
    obtain ⟨n', hn', hcell⟩ := hw.find_mem hi
    cases hn.symm.trans hn'
    rw [hcell]
    exact ⟨hw.overwrite hi value, rfl, (upsert_at hw.nodup hi value).symm⟩
  · obtain ⟨hcell, _⟩ := hw.find_new (by omega) hk hn
    rw [hcell]
    exact ⟨hw.push hroom hk hn value, List.length_set, (upsert_new hk value).symm⟩

/-! ## Growing -/

omit [DecidableEq K] in
theorem WF.blank (c : Nat) : (blank c : Map K V).WF hash := by
  have hcell : ∀ n, (Map.blank c : Map K V).cell n = 0 := by
    intro n
    unfold cell Map.blank
    rw [List.getD_eq_getElem?_getD, List.getElem?_replicate]
    split <;> rfl
  refine ⟨?_, ?_, ?_, ?_, ?_⟩
  · exact Nat.zero_le _
  · exact List.nodup_nil
  · intro n i h
    rw [hcell] at h
    cases h
  · intro n n' i h
    rw [hcell] at h
    cases h
  · intro i d h
    cases h

omit [DecidableEq K] in
theorem WF.clear : (clear : Map K V).WF hash := WF.blank 0

omit [DecidableEq K] in
@[simp] theorem capacity_blank (c : Nat) : (blank c : Map K V).capacity = c := List.length_replicate

theorem placeAll_cons (d : K × V) (l : List (K × V)) :
    m.placeAll hash (d :: l) = (m.place hash d.1 d.2).bind (placeAll hash · l) := List.foldlM_cons

theorem placeAll_some {l : List (K × V)} (hw : m.WF hash) (hn : ((m.data ++ l).map Prod.fst).Nodup)
    (hroom : m.size + l.length ≤ m.capacity / 4) (h : m.placeAll hash l = some m') :
    m'.WF hash ∧ m'.capacity = m.capacity ∧ m'.data = m.data ++ l := by
  induction l generalizing m with
  | nil =>
    cases Option.some.inj h
    exact ⟨hw, rfl, (List.append_nil _).symm⟩
  | cons d l ih =>
    rw [List.length_cons] at hroom
    rw [placeAll_cons] at h
    obtain ⟨g, hg, h⟩ := Option.bind_eq_some_iff.1 h
    obtain ⟨hwg, hcap, hdata⟩ := place_some hw (by omega) hg
    rw [upsert_new (new_of_nodup hn)] at hdata
    have happ : g.data ++ l = m.data ++ d :: l := by
      rw [hdata, List.append_assoc, List.singleton_append]
    have hsize : g.size = m.size + 1 := by
      rw [size, hdata, List.length_append, List.length_singleton, size]
    obtain ⟨hw', hcap', hdata'⟩ := ih hwg (by rw [happ]; exact hn) (by omega) h
    exact ⟨hw', hcap'.trans hcap, hdata'.trans happ⟩

omit [DecidableEq K] in
theorem WF.blank_room (hw : m.WF hash) (h : m.capacity < n * 6) :
    (Map.blank (n * 6) : Map K V).size + m.data.length ≤ (Map.blank (n * 6) :
      Map K V).capacity / 4 := by
  have hroom := hw.room
  have h0 : (Map.blank (n * 6) : Map K V).size = 0 := rfl
  rw [capacity_blank, h0]
  unfold size at hroom
  omega

/-- With room for one more pair `set` goes straight to the cell. -/
theorem set_of_room (h : m.size + 1 ≤ m.capacity / 4) (value : V) :
    m.set hash key value = m.place hash key value := by
  unfold set grow
  rw [if_neg (by omega)]
  rfl

theorem placeAll_eq {l : List (K × V)} (hw : m.WF hash) (hn : ((m.data ++ l).map Prod.fst).Nodup)
    (hroom : m.size + l.length ≤ m.capacity / 4) : m.placeAll hash l = m.setAll hash l := by
  induction l generalizing m with
  | nil => rfl
  | cons d l ih =>
    rw [List.length_cons] at hroom
    have hset : m.setAll hash (d :: l) = (m.set hash d.1 d.2).bind (setAll hash · l) := List.foldlM_cons
    rw [placeAll_cons, hset, set_of_room (by omega)]
    cases hg : m.place hash d.1 d.2 with
    | none => rfl
    | some g =>
      obtain ⟨hwg, hcap, hdata⟩ := place_some hw (by omega) hg
      rw [upsert_new (new_of_nodup hn)] at hdata
      have happ : g.data ++ l = m.data ++ d :: l := by
        rw [hdata, List.append_assoc, List.singleton_append]
      have hsize : g.size = m.size + 1 := by
        rw [size, hdata, List.length_append, List.length_singleton, size]
      exact ih hwg (by rw [happ]; exact hn) (by omega)

/-- **The copy** is made with `set`. -/
theorem resize_eq (hw : m.WF hash) (target : Nat) : m.resize hash target =
    if m.capacity < target * 6 then (blank (target * 6)).setAll hash m.data else some m := by
  unfold resize
  split
  · rename_i h
    exact placeAll_eq (WF.blank _) hw.nodup (hw.blank_room h)
  · rfl

theorem resize_some (hw : m.WF hash) (h : m.resize hash n = some g) :
    g.WF hash ∧ g.capacity = max m.capacity (n * 6) ∧ g.data = m.data := by
  unfold resize at h
  by_cases hlt : m.capacity < n * 6
  · rw [if_pos hlt] at h
    obtain ⟨hwg, hcap, hdata⟩ := placeAll_some (WF.blank _) hw.nodup (hw.blank_room hlt) h
    rw [capacity_blank] at hcap
    exact ⟨hwg, by omega, hdata⟩
  · rw [if_neg hlt] at h
    cases Option.some.inj h
    exact ⟨hw, by omega, rfl⟩

theorem grow_some (hw : m.WF hash) (h : m.grow hash = some g) :
    g.WF hash ∧ g.capacity = m.next ∧ g.data = m.data ∧ g.size + 1 ≤ g.capacity / 4 := by
  have hroom := hw.room
  unfold grow at h
  unfold next
  by_cases hlt : m.size + 1 > m.capacity / 4
  · rw [if_pos hlt] at h ⊢
    obtain ⟨hwg, hcap, hdata⟩ := resize_some hw h
    have hsize : g.size = m.size := congrArg List.length hdata
    exact ⟨hwg, by omega, hdata, by omega⟩
  · rw [if_neg hlt] at h ⊢
    cases Option.some.inj h
    exact ⟨hw, rfl, rfl, by omega⟩

omit [DecidableEq K] in
/-- The pair at a cell is what `lookup` finds. -/
theorem WF.lookup_at [BEq K] [LawfulBEq K] (hw : m.WF hash) (hi : m.data[i]? = some d) :
    m.data.lookup d.1 = some d.2 :=
  lookup_of_mem hw.nodup (List.mem_of_getElem? hi)

/-! ## Reading and writing -/

/-- What a probe finds is what the list of the pairs says. -/
theorem entry_find [BEq K] [LawfulBEq K] (hw : m.WF hash) (hc : 0 < m.capacity)
    (h : m.find hash key = some n) :
    (m.entry n).map Prod.snd = m.data.lookup key := by
  by_cases hk : key ∈ m.data.map Prod.fst
  · obtain ⟨i, d, hi, rfl⟩ := mem_keys.1 hk
    obtain ⟨n', hn', hcell⟩ := hw.find_mem hi
    cases h.symm.trans hn'
    rw [entry_succ hcell, hi, hw.lookup_at hi]
    rfl
  · obtain ⟨hcell, _⟩ := hw.find_new hc hk h
    rw [entry_zero hcell, lookup_eq_none.2 hk]
    rfl

theorem set_some (hw : m.WF hash) (h : m.set hash key v = some m') :
    m'.WF hash ∧ m'.capacity = m.next ∧ m'.data = upsert m.data key v := by
  obtain ⟨g, hg, h⟩ := Option.bind_eq_some_iff.1 h
  obtain ⟨hwg, hcap, hdata, hroom⟩ := grow_some hw hg
  obtain ⟨hw', hcap', hdata'⟩ := place_some hwg hroom h
  rw [hdata] at hdata'
  exact ⟨hw', hcap'.trans hcap, hdata'⟩

theorem get_some [BEq K] [LawfulBEq K] {r : Option V × Map K V} (hw : m.WF hash)
    (h : m.get hash key = some r) :
    r.1 = m.data.lookup key ∧ r.2.WF hash ∧ r.2.capacity = m.next ∧ r.2.data = m.data := by
  obtain ⟨g, hg, h⟩ := Option.bind_eq_some_iff.1 h
  obtain ⟨hwg, hcap, hdata, hroom⟩ := grow_some hw hg
  rw [← hdata]
  by_cases h0 : g.size = 0
  · rw [if_pos h0] at h
    cases Option.some.inj h
    refine ⟨?_, hwg, hcap, rfl⟩
    rw [List.length_eq_zero_iff.1 h0]
    rfl
  · rw [if_neg h0] at h
    obtain ⟨n, hn, h⟩ := Option.bind_eq_some_iff.1 h
    cases Option.some.inj h
    exact ⟨entry_find hwg (by omega) hn, hwg, hcap, rfl⟩

/-- A resized empty table is a ring of free cells. -/
theorem resize_clear (target : Nat) : (clear : Map K V).resize hash target = some
    (blank (target * 6)) := by
  unfold resize
  split
  · rfl
  · rename_i h
    have h0 : target * 6 = 0 := by
      have : (clear : Map K V).capacity = 0 := rfl
      omega
    rw [h0]
    rfl

end Map
end Diode.L4
