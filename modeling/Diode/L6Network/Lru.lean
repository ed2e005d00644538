import Diode.Core.Pairs
import Diode.Core.Recency
import Diode.Core.SMap

/-!
# The cache of a remote chain

`Lru` keeps the keys of all insertions in a queue, a key that is inserted again
once more, and counts with each key how many of its entries in the queue are out
of date. When a key is too many, `shrink` takes entries off the queue until it
meets one that is not.

A fetch that finds its key is no use of it: the keys leave in the order of their
last insertion.

* `shrink_spec`: `shrink` finds the key inserted longest ago before the queue ends.
* `lru_exact`: the cache holds the `max_size` keys inserted last.
-/
namespace Diode.L6
open Diode.Core

variable {K V : Type} [LinearOrder K]

/-- A `nil` value is `none`.
mirrors lib/lru.ex:8-9 -/
structure Lru (K V : Type) [LinearOrder K] where
  queue : List K
  map : SMap K (Nat × Option V)
  max_size : Nat

namespace Lru

/-- mirrors lib/lru.ex:11-14 -/
def new (max_size : Nat) : Lru K V := ⟨[], .empty, max_size⟩

/-- mirrors lib/lru.ex:57-60 -/
def size (lru : Lru K V) : Nat := lru.map.entries.length

/-- `none` is the `MatchError` of an empty queue and the `CaseClauseError` of a
key that the map does not have.
mirrors lib/lru.ex:62-73 -/
def shrink (max_size : Nat) : List K → SMap K (Nat × Option V) → Option (Lru K V)
  | [], _ => none
  | key :: queue, map =>
    match map.get key with
    | none => none
    | some (0, _) => some ⟨queue, map.del key, max_size⟩
    | some (counter + 1, value) => shrink max_size queue (map.put key (counter, value))

/-- mirrors lib/lru.ex:16-33 -/
def insert (lru : Lru K V) (key : K) (value : Option V) : Option (Lru K V) :=
  let queue := lru.queue ++ [key]
  let map := lru.map.put key ((lru.map.get key).elim (0, value) fun d => (d.1 + 1, value))
  if lru.max_size < map.entries.length then shrink lru.max_size queue map
  else some ⟨queue, map, lru.max_size⟩

/-- mirrors lib/lru.ex:35-41 -/
def get (lru : Lru K V) (key : K) (default : Option V) : Option V :=
  (lru.map.get key).elim default Prod.snd

/-- `filled` is what the filler returns.
mirrors lib/lru.ex:43-55 -/
def fetch (lru : Lru K V) (key : K) (filled : Option V) : Option (Lru K V × Option V) :=
  match lru.map.get key with
  | some (_, value) => some (lru, value)
  | none =>
    match filled with
    | none => some (lru, none)
    | some value => (lru.insert key (some value)).map fun lru => (lru, some value)

inductive Op (K V : Type) where
  | insert (key : K) (value : Option V)
  | fetch (key : K) (filled : Option V)

/-- One call, with the answer of a fetch. -/
def step (lru : Lru K V) : Op K V → Option (Lru K V × List (Option V))
  | .insert key value => (lru.insert key value).map fun lru => (lru, [])
  | .fetch key filled => (lru.fetch key filled).map fun r => (r.1, [r.2])

def run (lru : Lru K V) : List (Op K V) → Option (Lru K V × List (Option V))
  | [] => some (lru, [])
  | op :: ops => do
    let (lru, answer) ← lru.step op
    let (lru, answers) ← lru.run ops
    some (lru, answer ++ answers)

/-! ## What a cache is -/

/-- The keys a cache of `m` places holds after the insertions of `log`, in the
order of their last insertion. -/
def live (m : Nat) (log : List (K × Option V)) : List K := recent m (log.map Prod.fst)

/-- What such a cache has under a key: its last value. -/
def content (m : Nat) (log : List (K × Option V)) (key : K) : Option (Option V) :=
  if key ∈ live m log then log.reverse.lookup key else none

/-- The insertions after one more call. -/
def Op.log (m : Nat) (log : List (K × Option V)) : Op K V → List (K × Option V)
  | .insert key value => log ++ [(key, value)]
  | .fetch key filled =>
    if (content m log key).isSome then log else filled.elim log fun value => log ++ [(key, some value)]

def Op.answer (m : Nat) (log : List (K × Option V)) : Op K V → List (Option V)
  | .insert _ _ => []
  | .fetch key filled => [(content m log key).getD filled]

def answers (m : Nat) (log : List (K × Option V)) : List (Op K V) → List (Option V)
  | [] => []
  | op :: ops => op.answer m log ++ answers m (op.log m log) ops

/-- The value under a key. -/
def value (lru : Lru K V) (key : K) : Option (Option V) := (lru.map.get key).map Prod.snd

/-- An insertion adds its key, and takes out the one inserted longest ago if
there is one too many. -/
def Evicts (lru lru' : Lru K V) (live : List K) (key : K) (value : Option V) : Prop :=
  ∀ j, lru'.value j =
    if key ∉ live ∧ live.length = lru.max_size ∧ (live ++ [key]).head? = some j then none
    else if j = key then some value else lru.value j

/-! ## The queue and the counters -/

variable {lru : Lru K V} {log : List (K × Option V)} {queue : List K} {map : SMap K (Nat × Option V)}
    {f : K → Option V} {key : K} {value : Option V}

/-- Each key of the queue is counted but once. -/
def Counts (queue : List K) (map : SMap K (Nat × Option V)) (f : K → Option V) : Prop :=
  ∀ k, map.get k = if k ∈ queue then some (queue.count k - 1, f k) else none

theorem Counts.size (h : Counts queue map f) : map.entries.length = queue.dedup.length := by
  have hperm : (map.entries.map Prod.fst).Perm queue.dedup := by
    refine (List.perm_ext_iff_of_nodup map.keys_nodup (List.nodup_dedup queue)).2 fun k => ?_
    rw [List.mem_dedup, List.mem_map]
    have hk := h k
    refine ⟨?_, ?_⟩
    · intro hx
      obtain ⟨⟨j, d⟩, hd, rfl⟩ := hx
      rw [SMap.mem_iff] at hd
      by_contra hn
      rw [if_neg hn, hd] at hk
      cases hk
    · intro hm
      rw [if_pos hm] at hk
      exact ⟨(k, _), (SMap.mem_iff ..).2 hk, rfl⟩
  have := hperm.length_eq
  simpa using this

/-- **`shrink` ends** at the key whose last entry is oldest. -/
theorem shrink_spec (m : Nat) : ∀ {queue : List K} {map : SMap K (Nat × Option V)},
    Counts queue map f → queue ≠ [] →
    ∃ queue' map', shrink m queue map = some ⟨queue', map', m⟩ ∧ queue'.dedup = queue.dedup.tail ∧
      Counts queue' map' f
  | [], _, _, hne => absurd rfl hne
  | key :: queue, map, h, _ => by
    have hkey := h key
    rw [if_pos List.mem_cons_self, List.count_cons_self, Nat.add_sub_cancel] at hkey
    unfold shrink
    rw [hkey]
    by_cases hm : key ∈ queue
    · obtain ⟨c, hc⟩ := Nat.exists_eq_succ_of_ne_zero (List.count_pos_iff.2 hm).ne'
      have hcounts : Counts queue (map.put key (c, f key)) f := by
        intro k
        by_cases e : key = k
        · subst e
          rw [SMap.get_put_self, if_pos hm, hc]; rfl
        · rw [SMap.get_put_ne _ _ e, h k]
          simp [Ne.symm e, List.count_cons_of_ne e]
      obtain ⟨queue', map', h1, h2, h3⟩ := shrink_spec m hcounts (List.ne_nil_of_mem hm)
      rw [hc, List.dedup_cons_of_mem hm]
      exact ⟨queue', map', h1, h2, h3⟩
    · rw [List.count_eq_zero.2 hm, List.dedup_cons_of_notMem hm]
      refine ⟨queue, map.del key, rfl, rfl, fun k => ?_⟩
      rw [SMap.get_del]
      by_cases e : key = k
      · subst e
        simp [hm]
      · rw [if_neg e, h k]
        simp [Ne.symm e, List.count_cons_of_ne e]

theorem Counts.insert (h : Counts queue map f) (key : K) (value : Option V) :
    Counts (queue ++ [key]) (map.put key ((map.get key).elim (0, value) fun d => (d.1 + 1, value)))
      (Function.update f key value) := by
  intro k
  by_cases e : key = k
  · subst e
    have hkey := h key
    rw [SMap.get_put_self, Function.update_self]
    by_cases hm : key ∈ queue
    · rw [if_pos hm] at hkey
      have := List.count_pos_iff.2 hm
      simp [hkey]; omega
    · rw [if_neg hm] at hkey
      simp [hkey, List.count_eq_zero.2 hm]
  · rw [SMap.get_put_ne _ _ e, Function.update_of_ne (Ne.symm e), h k]
    simp [Ne.symm e, e]

/-! ## The cache -/

/-- `lru` is what the insertions of `log` have left. -/
structure Holds (lru : Lru K V) (log : List (K × Option V)) : Prop where
  recent : lru.queue.dedup = live lru.max_size log
  counts : Counts lru.queue lru.map fun k => (log.reverse.lookup k).getD none

theorem lookup_snoc (log : List (K × Option V)) (key : K) (value : Option V) (k : K) :
    (log ++ [(key, value)]).reverse.lookup k = if k = key then some value else log.reverse.lookup k := by
  rw [List.reverse_append, List.reverse_singleton, List.singleton_append, Pairs.lookup_cons]
  simp [eq_comm]

theorem Holds.mem_queue (h : Holds lru log) (k : K) : k ∈ lru.queue ↔ k ∈ live lru.max_size log := by
  rw [← h.recent, List.mem_dedup]

theorem lookup_of_live {m : Nat} {k : K} (hk : k ∈ live m log) : (log.reverse.lookup k).isSome := by
  have hmem := mem_of_mem_recent hk
  rw [Option.isSome_iff_ne_none, ne_eq, List.lookup_eq_none_iff]
  intro hnone
  obtain ⟨d, hd, rfl⟩ := List.mem_map.1 hmem
  simpa using hnone d (List.mem_reverse.2 hd)

theorem Holds.value_eq (h : Holds lru log) (k : K) : lru.value k = content lru.max_size log k := by
  unfold value content
  rw [h.counts k]
  by_cases hk : k ∈ live lru.max_size log
  · rw [if_pos ((h.mem_queue k).2 hk), if_pos hk]
    obtain ⟨v, hv⟩ := Option.isSome_iff_exists.1 (lookup_of_live hk)
    simp [hv]
  · rw [if_neg fun hq => hk ((h.mem_queue k).1 hq), if_neg hk]; rfl

theorem Holds.size_eq (h : Holds lru log) : lru.size = (live lru.max_size log).length := by
  rw [← h.recent]
  exact h.counts.size

theorem Holds.insert (h : Holds lru log) (key : K) (value : Option V) :
    ∃ lru', lru.insert key value = some lru' ∧ lru'.max_size = lru.max_size ∧
      Holds lru' (log ++ [(key, value)]) := by
  have hcounts := h.counts.insert key value
  have hf : Function.update (fun k => (log.reverse.lookup k).getD none) key value =
      fun k => ((log ++ [(key, value)]).reverse.lookup k).getD none := by
    funext k
    rw [lookup_snoc]
    by_cases e : k = key
    · subst e; simp
    · simp [e]
  rw [hf] at hcounts
  have hlive : live lru.max_size (log ++ [(key, value)]) =
      (lru.queue ++ [key]).dedup.rtake lru.max_size := by
    unfold live
    rw [List.map_append, List.map_singleton, recent_snoc, dedup_snoc, h.recent]; rfl
  have hlen : (lru.queue ++ [key]).dedup.length ≤ lru.max_size + 1 := by
    have hle : (live lru.max_size log).length ≤ lru.max_size := by
      unfold live
      rw [recent_length]; omega
    rw [dedup_snoc, h.recent, List.length_append, List.length_singleton]
    have := List.length_filter_le (· ≠ key) (live lru.max_size log)
    omega
  unfold Lru.insert
  dsimp only
  rw [hcounts.size]
  by_cases hfull : lru.max_size < (lru.queue ++ [key]).dedup.length
  · obtain ⟨queue', map', h1, h2, h3⟩ := shrink_spec lru.max_size hcounts (by simp)
    rw [if_pos hfull]
    refine ⟨_, h1, rfl, ?_, h3⟩
    rw [h2, hlive, List.rtake, show (lru.queue ++ [key]).dedup.length - lru.max_size = 1 by omega,
      List.drop_one]
  · rw [if_neg hfull]
    refine ⟨_, rfl, rfl, ?_, hcounts⟩
    rw [hlive, rtake_of_le (by omega)]

theorem Holds.fetch (h : Holds lru log) (key : K) (filled : Option V) :
    ∃ lru', lru.fetch key filled = some (lru', (content lru.max_size log key).getD filled) ∧
      lru'.max_size = lru.max_size ∧ Holds lru' ((Op.fetch key filled).log lru.max_size log) := by
  have hval := h.value_eq key
  unfold value at hval
  unfold Lru.fetch Op.log
  dsimp only
  rw [← hval]
  cases hg : lru.map.get key with
  | some d => exact ⟨lru, rfl, rfl, by simpa using h⟩
  | none =>
    cases filled with
    | none => exact ⟨lru, rfl, rfl, by simpa using h⟩
    | some value =>
      obtain ⟨lru', h1, h2, h3⟩ := h.insert key (some value)
      exact ⟨lru', by simp [h1], h2, by simpa using h3⟩

theorem Holds.step (h : Holds lru log) (op : Op K V) :
    ∃ lru', lru.step op = some (lru', op.answer lru.max_size log) ∧ lru'.max_size = lru.max_size ∧
      Holds lru' (op.log lru.max_size log) := by
  cases op with
  | insert key value =>
    obtain ⟨lru', h1, h2, h3⟩ := h.insert key value
    exact ⟨lru', by simp [Lru.step, h1, Op.answer], h2, h3⟩
  | fetch key filled =>
    obtain ⟨lru', h1, h2, h3⟩ := h.fetch key filled
    exact ⟨lru', by simp [Lru.step, h1, Op.answer], h2, h3⟩

theorem holds_new (m : Nat) : Holds (new m : Lru K V) [] :=
  ⟨by simp [new, live, Diode.Core.recent], fun _ => rfl⟩

theorem Holds.run : ∀ (ops : List (Op K V)) {lru : Lru K V} {log : List (K × Option V)}, Holds lru log →
    ∃ lru', lru.run ops = some (lru', answers lru.max_size log ops) ∧ lru'.max_size = lru.max_size ∧
      Holds lru' (ops.foldl (fun log op => op.log lru.max_size log) log)
  | [], lru, _, h => ⟨lru, rfl, rfl, h⟩
  | op :: ops, lru, log, h => by
    obtain ⟨lru1, h1, hm1, hh1⟩ := h.step op
    obtain ⟨lru2, h2, hm2, hh2⟩ := Holds.run ops hh1
    rw [hm1] at h2 hh2
    exact ⟨lru2, by simp [Lru.run, h1, h2, answers], hm2.trans hm1, hh2⟩

theorem live_length_le (m : Nat) (log : List (K × Option V)) : (live m log).length ≤ m := by
  unfold live
  rw [recent_length]; omega

/-- What the keys of a cache become when one more is inserted. -/
theorem mem_live_snoc (m : Nat) (log : List (K × Option V)) (key : K) (value : Option V) (j : K) :
    j ∈ live m (log ++ [(key, value)]) ↔
      ¬(key ∉ live m log ∧ (live m log).length = m ∧ (live m log ++ [key]).head? = some j) ∧
        (j = key ∨ j ∈ live m log) := by
  have hlen := live_length_le m log
  have hnodup : (live m log).Nodup := recent_nodup _ _
  have hsnoc : live m (log ++ [(key, value)]) = ((live m log).filter (· ≠ key) ++ [key]).rtake m := by
    unfold live
    rw [List.map_append, List.map_singleton, recent_snoc]
  rw [hsnoc]
  by_cases hkey : key ∈ live m log
  · have hlt : ((live m log).filter (· ≠ key)).length < (live m log).length :=
      List.length_filter_lt_length_iff_exists.2 ⟨key, hkey, by simp⟩
    rw [rtake_of_le (by rw [List.length_append, List.length_singleton]; omega)]
    by_cases e : j = key <;> simp [e, hkey]
  · have hfilter : (live m log).filter (· ≠ key) = live m log :=
      List.filter_eq_self.2 fun k hk => by simpa using fun e : k = key => hkey (e ▸ hk)
    rw [hfilter]
    by_cases hfull : (live m log).length = m
    · have hone : (live m log ++ [key]).length - m = 1 := by simp; omega
      rw [List.rtake, hone, List.drop_one]
      have hall : (live m log ++ [key]).Nodup := by
        rw [List.nodup_append]
        exact ⟨hnodup, by simp, fun a ha b hb e => hkey (by rw [← List.mem_singleton.1 hb, ← e]; exact ha)⟩
      have hmem : j = key ∨ j ∈ live m log ↔ j ∈ live m log ++ [key] := by simp [or_comm]
      rw [hmem]
      revert hall
      cases live m log ++ [key] with
      | nil => simp
      | cons a l =>
        intro hall
        have ha := (List.nodup_cons.1 hall).1
        by_cases e : a = j
        · subst e; simp [hkey, hfull, ha]
        · simp [e, Ne.symm e]
    · rw [rtake_of_le (by rw [List.length_append, List.length_singleton]; omega)]
      simp [hkey, hfull, or_comm]

theorem Holds.evicts {lru' : Lru K V} (h : Holds lru log) (hm : lru'.max_size = lru.max_size)
    (h' : Holds lru' (log ++ [(key, value)])) : Evicts lru lru' (live lru.max_size log) key value := by
  intro j
  rw [h'.value_eq, h.value_eq, hm]
  unfold content
  rw [lookup_snoc]
  have hmem := mem_live_snoc lru.max_size log key value j
  by_cases hout : key ∉ live lru.max_size log ∧ (live lru.max_size log).length = lru.max_size ∧
      (live lru.max_size log ++ [key]).head? = some j
  · rw [if_pos hout, if_neg fun hj => (hmem.1 hj).1 hout]
  · rw [if_neg hout]
    by_cases e : j = key
    · rw [if_pos (hmem.2 ⟨hout, .inl e⟩), if_pos e, if_pos e]
    · rw [if_neg e, if_neg e]
      refine if_congr (hmem.trans ⟨fun hj => hj.2.resolve_left e, fun hj => ⟨hout, .inr hj⟩⟩) rfl rfl

/-- **An exact cache.** No call fails, each fetch is answered from what was
inserted, and after the calls the cache holds the `m` keys inserted last with
their last values. The next insertion evicts at most the oldest of them. -/
theorem lru_exact (m : Nat) (ops : List (Op K V)) :
    let log := ops.foldl (fun log op => op.log m log) []
    ∃ lru, (new m).run ops = some (lru, answers m [] ops) ∧ lru.size = (live m log).length ∧
      (∀ key, lru.value key = content m log key ∧
        ∀ default, lru.get key default = (content m log key).getD default) ∧
      ∀ key value, ∃ lru', lru.insert key value = some lru' ∧
        Evicts lru lru' (live m log) key value := by
  obtain ⟨lru, h1, hm, hh⟩ := Holds.run ops (holds_new (K := K) (V := V) m)
  have hmax : lru.max_size = m := hm
  rw [show (new m : Lru K V).max_size = m from rfl] at hh
  refine ⟨lru, h1, ?_, fun key => ?_, fun key value => ?_⟩
  · rw [hh.size_eq, hmax]
  · have hval := hh.value_eq key
    rw [hmax] at hval
    refine ⟨hval, fun default => ?_⟩
    rw [← hval, value, Lru.get]
    cases lru.map.get key <;> rfl
  · obtain ⟨lru', h2, hm', hh'⟩ := hh.insert key value
    have := hh.evicts hm' hh'
    rw [hmax] at this
    exact ⟨lru', h2, this⟩

/-- Of three keys the second inserted leaves a cache of two places, as the first
was inserted again. -/
example : ((new 2 : Lru Nat Nat).run [.insert 1 (some 10), .insert 2 (some 20), .insert 1 (some 11),
    .insert 3 (some 30), .fetch 2 none, .fetch 1 none]).map Prod.snd = some [none, some 11] := by decide

end Lru
end Diode.L6
