import Mathlib.Data.Nat.Prime.Basic
import Mathlib.Tactic.NormNum.Prime
import Diode.L4Evm.HostMap

/-!
# Room in the hash table

With `c` cells a probe visits those that agree with its start modulo the common
divisor of `c` and the stride: all of them, unless `c` is a multiple of 1051.
So a table can hold a set of keys exactly if no more of them agree modulo this
divisor than there are such cells (`Fits`), and each routine returns exactly if
the table it probes has room for its key (`set_iff`, `get_iff`, `resize_iff`).
A table that grows through no multiple of 1051 always has (`set_spec`,
`get_spec`: reading is `List.lookup`, writing is `upsert`).
-/
namespace Diode.L4.Map
open Diode.Core Pairs Probe

variable {K V : Type}

/-- What a probe in `c` cells keeps of a hash. -/
def gauge (c : Nat) : Nat := Nat.gcd c stride

section
variable (hash : K → Nat)

/-- How many of the keys are probed for in the cells of `key`. -/
def crowd (c : Nat) (ks : List K) (key : K) : Nat := ks.countP fun j =>
    hash j % gauge c = hash key % gauge c

/-- There are cells for all of the keys. -/
def Fits (c : Nat) (ks : List K) : Prop := ∀ key ∈ ks, crowd hash c ks key ≤ c / gauge c

end

/-- The keys after a write. -/
def withKey [DecidableEq K] (ks : List K) (key : K) : List K := if key ∈ ks then ks else ks ++ [key]

variable {hash : K → Nat} {m m' g : Map K V} {key : K} {v : V} {n c : Nat} {ks js : List K}

theorem length_keys (m : Map K V) : m.keys.length = m.size := List.length_map _

/-! ## Room -/

theorem gauge_pos (h : 0 < c) : 0 < gauge c := Nat.gcd_pos_of_pos_left _ h

theorem gauge_dvd (c : Nat) : gauge c ∣ c := Nat.gcd_dvd_left _ _

theorem prime_stride : Nat.Prime stride := by
  unfold stride
  norm_num

/-- Without the stride as a divisor all cells are visited. -/
theorem gauge_eq_one (h : ¬stride ∣ c) : gauge c = 1 :=
  Nat.Coprime.symm ((Nat.Prime.coprime_iff_not_dvd prime_stride).2 h)

theorem Fits.sublist (h : Fits hash c js) (hs : ks.Sublist js) : Fits hash c ks := fun key hk =>
  hs.countP_le.trans (h key (hs.subset hk))

theorem fits_of_not_dvd (h : ¬stride ∣ c) (hle : ks.length ≤ c) : Fits hash c ks := by
  intro key _
  rw [gauge_eq_one h, Nat.div_one]
  exact List.countP_le_length.trans hle

theorem fits_singleton (hc : 0 < c) (key : K) : Fits hash c [key] := by
  intro j _
  exact List.countP_le_length.trans (Nat.div_pos (Nat.le_of_dvd hc (gauge_dvd c)) (gauge_pos hc))

theorem crowd_append (c : Nat) (ks js : List K) (key : K) :
    crowd hash c (ks ++ js) key = crowd hash c ks key + crowd hash c js key :=
  List.countP_append

/-- The cells of a key and the keys in them. -/
theorem WF.held [DecidableEq K] (hw : m.WF hash) (r : Nat) :
    Held ((Finset.range m.capacity).filter (· % gauge m.capacity = r))
      ((m.keys.filter fun j => hash j % gauge m.capacity = r).map some).toFinset (fun n => m.cell n = 0)
      fun n => (m.entry n).map Prod.fst := by
  have hclass : ∀ n i d, m.cell n = i + 1 → m.data[i]? = some d →
    n % gauge m.capacity = hash d.1 % gauge m.capacity := by
    intro n i d hn hi
    obtain ⟨p, hp, _⟩ := hw.reach i d hi
    have hlt : n < m.capacity := cell_lt (by rw [hn]; exact Nat.succ_ne_zero i)
    have hv : n % gauge m.capacity = hash d.1 % m.capacity % gauge m.capacity :=
      (exists_visit_iff hlt).1 ⟨p, hw.inj _ _ i hp hn⟩
    rw [hv, Nat.mod_mod_of_dvd _ (gauge_dvd m.capacity)]
  refine ⟨fun n hn hf => ?_, fun n hn n' hn' hf hf' he => ?_, fun a ha => ?_⟩
  · obtain ⟨i, hi⟩ := Nat.exists_eq_succ_of_ne_zero hf
    obtain ⟨d, hd⟩ := hw.pair hi
    rw [entry_succ hi, hd, List.mem_toFinset, List.mem_map]
    refine ⟨d.1, List.mem_filter.2 ⟨List.mem_map_of_mem (List.mem_of_getElem? hd), ?_⟩, rfl⟩
    rw [decide_eq_true_eq, ← hclass n i d hi hd]
    exact (Finset.mem_filter.1 hn).2
  · obtain ⟨i, hi⟩ := Nat.exists_eq_succ_of_ne_zero hf
    obtain ⟨i', hi'⟩ := Nat.exists_eq_succ_of_ne_zero hf'
    obtain ⟨d, hd⟩ := hw.pair hi
    obtain ⟨d', hd'⟩ := hw.pair hi'
    rw [entry_succ hi, entry_succ hi', hd, hd'] at he
    have hii := hw.index hd hd' (Option.some.inj he)
    subst hii
    exact hw.inj n n' i hi hi'
  · rw [List.mem_toFinset, List.mem_map] at ha
    obtain ⟨j, hj, rfl⟩ := ha
    obtain ⟨hj, hr⟩ := List.mem_filter.1 hj
    obtain ⟨i, d, hi, rfl⟩ := mem_keys.1 hj
    obtain ⟨p, hp, _⟩ := hw.reach i d hi
    have hne : m.cell (m.probe hash d.1 p) ≠ 0 := by
      rw [hp]
      exact Nat.succ_ne_zero i
    refine ⟨_, Finset.mem_filter.2 ⟨Finset.mem_range.2 (cell_lt hne), ?_⟩, hne, ?_⟩
    · rw [hclass _ i d hp hi]
      exact of_decide_eq_true hr
    · rw [entry_succ hp, hi]
      rfl

theorem WF.card_crowd [DecidableEq K] (hw : m.WF hash) (key : K) :
    ((m.keys.filter fun j => hash j % gauge m.capacity = hash key % gauge m.capacity).map some).toFinset.card =
      crowd hash m.capacity m.keys key := by
  rw [List.toFinset_card_of_nodup, List.length_map, crowd, List.countP_eq_length_filter]
  exact (hw.nodup.filter _).map (Option.some_injective K)

theorem card_cells (hc : 0 < m.capacity) (key : K) :
    ((Finset.range m.capacity).filter (· % gauge m.capacity = hash key % gauge m.capacity)).card =
      m.capacity / gauge m.capacity := by
  have h := @card_class (gauge m.capacity) (m.capacity / gauge m.capacity) _
    (Nat.mod_lt (hash key) (gauge_pos hc))
  rw [Nat.mul_div_cancel' (gauge_dvd m.capacity)] at h
  exact h

/-- The keys of a table fit it. -/
theorem WF.fits [DecidableEq K] (hw : m.WF hash) : Fits hash m.capacity m.keys := by
  intro key hk
  have hc : 0 < m.capacity := by
    have hroom := hw.room
    have hpos := List.length_pos_of_mem hk
    rw [length_keys] at hpos
    omega
  rw [← hw.card_crowd key, ← card_cells hc key]
  exact (hw.held _).card_le

/-! ## Probes that end -/

theorem crowd_self (c : Nat) (key : K) : crowd hash c [key] key = 1 := by
  rw [crowd, List.countP_singleton, if_pos (decide_eq_true rfl)]

theorem crowd_other {j : K} (h : hash key % gauge c ≠ hash j % gauge c) : crowd hash c [key] j = 0 := by
  rw [crowd, List.countP_singleton, if_neg (by rw [decide_eq_true_eq]; exact h)]

theorem crowd_congr {j : K} (h : hash key % gauge c = hash j % gauge c) (ks : List K) :
    crowd hash c ks key = crowd hash c ks j := by
  unfold crowd
  rw [h]

/-- One more key fits if its own cells are not all taken. -/
theorem fits_concat (h : Fits hash c ks) (key : K) : Fits hash c (ks ++ [key]) ↔
    crowd hash c ks key < c / gauge c := by
  refine ⟨?_, ?_⟩
  · intro hf
    have hk := hf key (List.mem_append_right _ (List.mem_singleton_self key))
    rw [crowd_append, crowd_self] at hk
    exact hk
  · intro hlt j hj
    rw [crowd_append]
    by_cases he : hash key % gauge c = hash j % gauge c
    · rw [← crowd_congr he, ← crowd_congr he, crowd_self]
      exact hlt
    · rw [crowd_other he]
      rcases List.mem_append.1 hj with hj | hj
      · exact h j hj
      · rw [List.mem_singleton.1 hj] at he
        exact absurd rfl he

variable [DecidableEq K]

/-- The probe for a new key stops at a free cell only. -/
theorem WF.stops_iff (hw : m.WF hash) (hk : key ∉ m.keys) : m.stops key n = true ↔ m.cell n = 0 := by
  refine ⟨fun h => ?_, fun h => stops_zero h key⟩
  by_contra h0
  obtain ⟨i, hi⟩ := Nat.exists_eq_succ_of_ne_zero h0
  obtain ⟨d, hd⟩ := hw.pair hi
  unfold stops at h
  rw [entry_succ hi, hd] at h
  exact hk (mem_keys.2 ⟨i, d, hd, of_decide_eq_true h⟩)

/-- The probe for a new key ends exactly if one of its cells is free. -/
theorem WF.find_new_iff (hw : m.WF hash) (hc : 0 < m.capacity) (hk : key ∉ m.keys) :
    (∃ n, m.find hash key = some n) ↔ crowd hash m.capacity m.keys key < m.capacity / gauge
      m.capacity := by
  rw [← hw.card_crowd key, ← card_cells hc key, ← (hw.held _).exists_free]
  refine (exists_walk_ring (find_lt hc key)).trans ⟨fun ⟨p, hp⟩ => ?_, fun ⟨n, hn, h0⟩ => ?_⟩
  · refine ⟨_, Finset.mem_filter.2 ⟨Finset.mem_range.2 (visit_lt hc), ?_⟩, (hw.stops_iff hk).1 hp⟩
    have hv : _ % gauge m.capacity = hash key % m.capacity % gauge m.capacity :=
      (exists_visit_iff (visit_lt hc)).1 ⟨p, rfl⟩
    rw [hv, Nat.mod_mod_of_dvd _ (gauge_dvd m.capacity)]
  · obtain ⟨hlt, hr⟩ := Finset.mem_filter.1 hn
    have hlt := Finset.mem_range.1 hlt
    rw [← Nat.mod_mod_of_dvd (hash key) (gauge_dvd m.capacity)] at hr
    obtain ⟨p, rfl⟩ := (exists_visit_iff hlt).2 hr
    exact ⟨p, (hw.stops_iff hk).2 h0⟩

/-- A probe ends exactly if the table could hold its key as well. -/
theorem WF.find_iff (hw : m.WF hash) (hc : 0 < m.capacity) :
    (∃ n, m.find hash key = some n) ↔ Fits hash m.capacity (withKey m.keys key) := by
  unfold withKey
  by_cases hk : key ∈ m.keys
  · rw [if_pos hk]
    obtain ⟨i, d, hi, rfl⟩ := mem_keys.1 hk
    obtain ⟨n, hn, _⟩ := hw.find_mem hi
    exact ⟨fun _ => hw.fits, fun _ => ⟨n, hn⟩⟩
  · rw [if_neg hk, fits_concat hw.fits]
    exact hw.find_new_iff hc hk

/-! ## Operations -/

theorem keys_eq (h : m'.data = upsert m.data key v) : m'.keys = withKey m.keys key := by
  rw [keys, h, keys_upsert]
  rfl

omit [DecidableEq K] in
theorem keys_of_data (h : m'.data = m.data) : m'.keys = m.keys := by
  unfold keys
  rw [h]

theorem sublist_withKey (ks : List K) (key : K) : ks.Sublist (withKey ks key) := by
  unfold withKey
  split
  · exact List.Sublist.refl ks
  · exact List.sublist_append_left ks _

theorem WF.place_iff (hw : m.WF hash) (hroom : m.size + 1 ≤ m.capacity / 4) :
    (∃ m', m.place hash key v = some m') ↔ Fits hash m.capacity (withKey m.keys key) := by
  refine ⟨?_, ?_⟩
  · intro hx
    obtain ⟨m', h⟩ := hx
    obtain ⟨hw', hcap, hdata⟩ := place_some hw hroom h
    rw [← keys_eq hdata, ← hcap]
    exact hw'.fits
  · intro h
    obtain ⟨n, hn⟩ := (hw.find_iff (by omega)).2 h
    exact place_of_find hn v

theorem WF.placeAll_iff {l : List (K × V)} (hw : m.WF hash) (hn : ((m.data ++ l).map Prod.fst).Nodup)
    (hroom : m.size + l.length ≤ m.capacity / 4) :
    (∃ m', m.placeAll hash l = some m') ↔ Fits hash m.capacity ((m.data ++ l).map Prod.fst) := by
  refine ⟨?_, ?_⟩
  · intro hx
    obtain ⟨m', h⟩ := hx
    obtain ⟨hw', hcap, hdata⟩ := placeAll_some hw hn hroom h
    rw [← hdata, ← hcap]
    exact hw'.fits
  · intro h
    induction l generalizing m with
    | nil => exact ⟨m, rfl⟩
    | cons d l ih =>
      rw [List.length_cons] at hroom
      have happ : m.data ++ d :: l = (m.data ++ [d]) ++ l := by
        rw [List.append_assoc, List.singleton_append]
      have hk := new_of_nodup hn
      have hfits : Fits hash m.capacity (withKey m.keys d.1) := by
        refine h.sublist ?_
        rw [withKey, keys, if_neg hk, happ, List.map_append, List.map_append]
        exact List.sublist_append_left _ _
      obtain ⟨g, hg⟩ := (hw.place_iff (by omega)).2 hfits
      obtain ⟨hwg, hcap, hdata⟩ := place_some hw (by omega) hg
      rw [upsert_new hk] at hdata
      have hsize : g.size = m.size + 1 := by
        rw [size, hdata, List.length_append, List.length_singleton, size]
      obtain ⟨m', hm'⟩ := ih hwg (by rw [hdata, ← happ]; exact hn) (by omega)
        (by rw [hdata, ← happ, hcap]; exact h)
      rw [placeAll_cons, hg]
      exact ⟨m', hm'⟩

theorem WF.resize_iff (hw : m.WF hash) : (∃ g, m.resize hash n = some g) ↔
    (m.capacity < n * 6 → Fits hash (n * 6) m.keys) := by
  unfold resize
  by_cases hlt : m.capacity < n * 6
  · rw [if_pos hlt, (WF.blank _).placeAll_iff hw.nodup (hw.blank_room hlt), capacity_blank]
    exact ⟨fun h _ => h, fun h => h hlt⟩
  · rw [if_neg hlt]
    exact ⟨fun _ h => absurd h hlt, fun _ => ⟨m, rfl⟩⟩

theorem WF.grow_iff (hw : m.WF hash) : (∃ g, m.grow hash = some g) ↔ Fits hash m.next m.keys := by
  have hroom := hw.room
  unfold grow next
  by_cases hlt : m.size + 1 > m.capacity / 4
  · rw [if_pos hlt, if_pos hlt, hw.resize_iff]
    exact ⟨fun h => h (by omega), fun h _ => h⟩
  · rw [if_neg hlt, if_neg hlt]
    exact ⟨fun _ => hw.fits, fun _ => ⟨m, rfl⟩⟩

theorem WF.set_iff (hw : m.WF hash) : (∃ m', m.set hash key v = some m') ↔
    Fits hash m.next (withKey m.keys key) := by
  refine ⟨?_, ?_⟩
  · intro hx
    obtain ⟨m', h⟩ := hx
    obtain ⟨g, hg, h⟩ := Option.bind_eq_some_iff.1 h
    obtain ⟨hwg, hcap, hdata, hroom⟩ := grow_some hw hg
    have hf := (hwg.place_iff hroom).1 ⟨m', h⟩
    rw [hcap, keys_of_data hdata] at hf
    exact hf
  · intro h
    obtain ⟨g, hg⟩ := hw.grow_iff.2 (h.sublist (sublist_withKey ..))
    obtain ⟨hwg, hcap, hdata, hroom⟩ := grow_some hw hg
    rw [← hcap, ← keys_of_data hdata] at h
    obtain ⟨m', hm'⟩ := (hwg.place_iff hroom).2 h
    exact ⟨m', Option.bind_eq_some_iff.2 ⟨g, hg, hm'⟩⟩

theorem WF.get_iff (hw : m.WF hash) : (∃ r, m.get hash key = some r) ↔
    Fits hash m.next (withKey m.keys key) := by
  refine ⟨?_, ?_⟩
  · intro hx
    obtain ⟨r, h⟩ := hx
    obtain ⟨g, hg, h⟩ := Option.bind_eq_some_iff.1 h
    obtain ⟨hwg, hcap, hdata, hroom⟩ := grow_some hw hg
    rw [← hcap, ← keys_of_data hdata]
    by_cases h0 : g.size = 0
    · have hk : g.keys = [] := by rw [keys, List.length_eq_zero_iff.1 h0, List.map_nil]
      rw [hk]
      exact fits_singleton (by omega) key
    · rw [if_neg h0] at h
      obtain ⟨n, hn, _⟩ := Option.bind_eq_some_iff.1 h
      exact (hwg.find_iff (by omega)).1 ⟨n, hn⟩
  · intro h
    obtain ⟨g, hg⟩ := hw.grow_iff.2 (h.sublist (sublist_withKey ..))
    obtain ⟨hwg, hcap, hdata, hroom⟩ := grow_some hw hg
    rw [← hcap, ← keys_of_data hdata] at h
    obtain ⟨n, hn⟩ := (hwg.find_iff (by omega)).2 h
    unfold get
    rw [hg, Option.bind_eq_bind, Option.bind_some]
    by_cases h0 : g.size = 0
    · rw [if_pos h0]
      exact ⟨_, rfl⟩
    · rw [if_neg h0, hn]
      exact ⟨_, rfl⟩

/-! ## Tables that stay clear of the stride -/

theorem length_upsert_le (l : List (K × V)) (k : K) (v : V) : (upsert l k v).length ≤ l.length + 1 := by
  have := congrArg List.length (keys_upsert l k v)
  rw [List.length_map] at this
  rw [this]
  split
  · rw [List.length_map]
    omega
  · rw [List.length_append, List.length_map, List.length_singleton]

omit [DecidableEq K] in
theorem next_room (m : Map K V) : m.size + 1 ≤ m.next := by
  unfold next
  split <;> omega

theorem fits_next (hd : ¬stride ∣ m.next) (key : K) : Fits hash m.next (withKey m.keys key) := by
  refine fits_of_not_dvd hd (le_trans ?_ m.next_room)
  unfold withKey
  split
  · rw [length_keys]
    exact Nat.le_succ _
  · rw [List.length_append, length_keys, List.length_singleton]

omit [DecidableEq K] in
theorem WF.reaches_next (hw : m.WF hash) : Reaches (m.size + 1) m.capacity m.next := by
  have hroom := hw.room
  unfold next
  split
  · have hfull : m.capacity / 4 = m.size := by omega
    rw [← hfull]
    exact .grown .start (by omega)
  · exact .start

omit [DecidableEq K] in
theorem Whole.not_dvd_next (h : m.Whole 1) (hw : m.WF hash) : ¬stride ∣ m.next :=
  h _ hw.reaches_next (Nat.zero_lt_of_lt m.next_room)

theorem get_spec [BEq K] [LawfulBEq K] (hw : m.WF hash) (h : m.Whole 1) (key : K) :
    ∃ g, m.get hash key = some (m.data.lookup key, g) ∧ g.WF hash ∧ g.data = m.data ∧
      Reaches (m.size + 1) m.capacity g.capacity := by
  obtain ⟨r, hr⟩ := hw.get_iff.2 (fits_next (h.not_dvd_next hw) key)
  obtain ⟨ha, hwg, hcap, hdata⟩ := get_some hw hr
  refine ⟨r.2, ?_, hwg, hdata, ?_⟩
  · rw [hr, ← ha]
  · rw [hcap]
    exact hw.reaches_next

theorem set_spec (hw : m.WF hash) (h : m.Whole 1) (key : K) (value : V) :
    ∃ m', m.set hash key value = some m' ∧ m'.WF hash ∧ m'.data = upsert m.data key value ∧
      Reaches (m.size + 1) m.capacity m'.capacity := by
  obtain ⟨m', hm'⟩ := hw.set_iff.2 (fits_next (h.not_dvd_next hw) key)
  obtain ⟨hw', hcap, hdata⟩ := set_some hw hm'
  refine ⟨m', hm', hw', hdata, ?_⟩
  rw [hcap]
  exact hw.reaches_next

omit [DecidableEq K] in
/-- One more pair, and a capacity on the way. -/
theorem Whole.step {n : Nat} (h : m.Whole (n + 1)) (hsize : m'.size ≤ m.size + 1)
    (hreach : Reaches (m.size + 1) m.capacity m'.capacity) : m'.Whole n := by
  intro c hc
  refine h c ?_
  have h1 := hreach.mono (show m.size + 1 ≤ m.size + (n + 1) by omega)
  exact h1.trans (hc.mono (by omega))

omit [DecidableEq K] in
theorem Whole.le {n n' : Nat} (h : m.Whole n) (hle : n' ≤ n) : m.Whole n' := fun c hc =>
    h c (hc.mono (by omega))

theorem setAll_spec : ∀ (l : List (K × V)) {m : Map K V} {n : Nat}, m.WF hash → m.Whole (n + l.length) →
    ∃ m', m.setAll hash l = some m' ∧ m'.WF hash ∧ m'.data = upserts m.data l ∧ m'.Whole n
  | [], m, n, hw, h => ⟨m, rfl, hw, rfl, h⟩
  | d :: l, m, n, hw, h => by
    obtain ⟨m', hs, hw', hdata, hreach⟩ := set_spec hw (h.le (by rw [List.length_cons]; omega)) d.1 d.2
    have hsize : m'.size ≤ m.size + 1 := by
      unfold size
      rw [hdata]
      exact length_upsert_le ..
    obtain ⟨m'', hs', hw'', hdata', hwh⟩ := setAll_spec l hw' (Whole.step h hsize hreach)
    refine ⟨m'', ?_, hw'', ?_, hwh⟩
    · unfold setAll
      rw [List.foldlM_cons, hs]
      exact hs'
    · rw [hdata', hdata]
      rfl

/-- Setting pairs in a table that has room for all of them. -/
theorem setAll_room (l : List (K × V)) (hw : m.WF hash) (h : m.size + l.length ≤ m.capacity / 4)
    (hd : 0 < l.length → ¬ stride ∣ m.capacity) :
    ∃ m', m.setAll hash l = some m' ∧ m'.WF hash ∧ m'.data = upserts m.data l := by
  rcases Nat.eq_zero_or_pos l.length with h0 | hpos
  · rw [List.length_eq_zero_iff.1 h0]
    exact ⟨m, rfl, hw, rfl⟩
  · obtain ⟨m', hs, hw', hdata, _⟩ :=
      setAll_spec l hw (Whole.of_room (n := 0 + l.length) (by omega) (hd hpos))
    exact ⟨m', hs, hw', hdata⟩

end Diode.L4.Map
