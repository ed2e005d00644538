import Diode.L4Evm.HostRoom

/-!
# Runs of the hash table

* `run_iff`: a run of the table ends, answers each `get` with what was last set
  and has every entry once, exactly when each of its steps finds room.
-/
namespace Diode.L4.Map
open Diode.Core Pairs

variable {K V : Type}

inductive Op (K V : Type) where
  | set (key : K) (value : V)
  | get (key : K)
  | resize (n : Nat)
  | clear

/-- What a call should answer. -/
def answer (f : K → Option V) : Op K V → List (Option V)
  | .get key => [f key]
  | _ => []

/-- Every entry, once. -/
structure Holds (m : Map K V) (f : K → Option V) : Prop where
  nodup : m.keys.Nodup
  mem_iff : ∀ key value, (key, value) ∈ m.data ↔ f key = some value

variable [DecidableEq K]

/-- What the keys have been set to, after one more call. -/
def after (f : K → Option V) : Op K V → K → Option V
  | .set key value => Function.update f key (some value)
  | .get _ => f
  | .resize _ => f
  | .clear => fun _ => none

def answers (f : K → Option V) : List (Op K V) → List (Option V)
  | [] => []
  | op :: ops => answer f op ++ answers (after f op) ops

section
variable (hash : K → Nat)

/-- One call and its answer. -/
def step (m : Map K V) : Op K V → Option (List (Option V) × Map K V)
  | .set key value => (m.set hash key value).map fun m => ([], m)
  | .get key => (m.get hash key).map fun r => ([r.1], r.2)
  | .resize n => (m.resize hash n).map fun m => ([], m)
  | .clear => some ([], clear)

/-- The calls of a run and their answers, `none` if one never returns. -/
def run (m : Map K V) : List (Op K V) → Option (List (Option V) × Map K V)
  | [] => some ([], m)
  | op :: ops => (m.step hash op).bind fun r => (run r.2 ops).map fun q => (r.1 ++ q.1, q.2)

/-- The table the call probes has room for the key. -/
def Meets (m : Map K V) : Op K V → Prop
  | .set key _ => Fits hash m.next (withKey m.keys key)
  | .get key => Fits hash m.next (withKey m.keys key)
  | .resize n => m.capacity < n * 6 → Fits hash (n * 6) m.keys
  | .clear => True

/-- Every step of the run meets it. -/
def Along (m : Map K V) : List (Op K V) → Prop
  | [] => True
  | op :: ops => m.Meets hash op ∧ ∀ r, m.step hash op = some r → Along r.2 ops

/-- A run does what the sequence of its calls says, from keys set to `f`: no call
hangs, the answers are right, and every entry is held once. -/
def Right (m : Map K V) (f : K → Option V) (ops : List (Op K V)) : Prop :=
  ∀ pre, pre <+: ops → ∃ m', m.run hash pre = some (answers f pre, m') ∧ m'.Holds (pre.foldl after f)

end

variable {hash : K → Nat} {m : Map K V} {f : K → Option V} {op : Op K V} {ops : List (Op K V)}
    {r : List (Option V) × Map K V}

theorem exists_map_some {α β : Type} {o : Option α} (g : α → β) : (∃ r, o.map g = some r) ↔
    ∃ x, o = some x := by
  cases o with
  | none => simp
  | some x => exact ⟨fun _ => ⟨x, rfl⟩, fun _ => ⟨g x, rfl⟩⟩

theorem WF.step_iff (hw : m.WF hash) : (∃ r, m.step hash op = some r) ↔ m.Meets hash op := by
  cases op with
  | set key value => exact (exists_map_some _).trans hw.set_iff
  | get key => exact (exists_map_some _).trans hw.get_iff
  | resize n => exact (exists_map_some _).trans hw.resize_iff
  | clear => exact ⟨fun _ => trivial, fun _ => ⟨_, rfl⟩⟩

/-- A call that returns answers right and leaves the table well formed. -/
theorem step_some (hw : m.WF hash) (hf : ∀ key, m.data.lookup key = f key)
    (h : m.step hash op = some r) :
    r.1 = answer f op ∧ r.2.WF hash ∧ ∀ key, r.2.data.lookup key = after f op key := by
  cases op with
  | set key value =>
    obtain ⟨m', hs, rfl⟩ := Option.map_eq_some_iff.1 h
    obtain ⟨hw', _, hdata⟩ := set_some hw hs
    refine ⟨rfl, hw', fun j => ?_⟩
    rw [hdata, lookup_upsert, after, Function.update_apply, hf]
    simp only [eq_comm]
  | get key =>
    obtain ⟨q, hq, rfl⟩ := Option.map_eq_some_iff.1 h
    obtain ⟨ha, hw', _, hdata⟩ := get_some hw hq
    refine ⟨?_, hw', fun j => ?_⟩
    · rw [ha, hf]
      rfl
    · rw [hdata, hf]
      rfl
  | resize n =>
    obtain ⟨g, hg, rfl⟩ := Option.map_eq_some_iff.1 h
    obtain ⟨hw', _, hdata⟩ := resize_some hw hg
    refine ⟨rfl, hw', fun j => ?_⟩
    rw [hdata, hf]
    rfl
  | clear =>
    cases Option.some.inj h
    exact ⟨rfl, WF.clear, fun _ => rfl⟩

theorem WF.holds (hw : m.WF hash) (hf : ∀ key, m.data.lookup key = f key) : m.Holds f :=
  ⟨hw.nodup, fun key value => by rw [← hf key]; exact mem_iff_lookup hw.nodup⟩

theorem right_of_along (hw : m.WF hash) (hf : ∀ key, m.data.lookup key = f key)
    (h : m.Along hash ops) : m.Right hash f ops := by
  induction ops generalizing m f with
  | nil =>
    intro pre hpre
    cases List.prefix_nil.1 hpre
    exact ⟨m, rfl, hw.holds hf⟩
  | cons op ops ih =>
    intro pre hpre
    cases pre with
    | nil => exact ⟨m, rfl, hw.holds hf⟩
    | cons op' pre =>
      obtain ⟨rfl, hle⟩ := List.cons_prefix_cons.1 hpre
      obtain ⟨r, hr⟩ := hw.step_iff.2 h.1
      obtain ⟨ha, hw', hf'⟩ := step_some hw hf hr
      obtain ⟨m', hm', hh⟩ := ih hw' hf' (h.2 r hr) pre hle
      refine ⟨m', ?_, hh⟩
      rw [run, hr, Option.bind_some, hm', ha]
      rfl

theorem along_of_right (hw : m.WF hash) (hf : ∀ key, m.data.lookup key = f key)
    (h : m.Right hash f ops) : m.Along hash ops := by
  induction ops generalizing m f with
  | nil => exact trivial
  | cons op ops ih =>
    refine ⟨?_, fun r hr => ?_⟩
    · obtain ⟨_, hm', _⟩ := h [op] (List.cons_prefix_cons.2 ⟨rfl, List.nil_prefix⟩)
      obtain ⟨r, hr, _⟩ := Option.bind_eq_some_iff.1 hm'
      exact hw.step_iff.1 ⟨r, hr⟩
    · obtain ⟨ha, hw', hf'⟩ := step_some hw hf hr
      refine ih hw' hf' fun pre hpre => ?_
      obtain ⟨m', hm', hh⟩ := h (op :: pre) (List.cons_prefix_cons.2 ⟨rfl, hpre⟩)
      refine ⟨m', ?_, hh⟩
      rw [run, hr, Option.bind_some, answers, ← ha] at hm'
      obtain ⟨q, hq, he⟩ := Option.map_eq_some_iff.1 hm'
      rw [Prod.mk.injEq, List.append_cancel_left_eq] at he
      rw [hq]
      exact congrArg some (Prod.ext he.1 he.2)

/-- A run does what its calls say exactly if each of its steps finds room. -/
theorem run_iff (hash : K → Nat) (ops : List (Op K V)) :
    (clear : Map K V).Right hash (fun _ => none) ops ↔ (clear : Map K V).Along hash ops :=
  ⟨along_of_right WF.clear fun _ => rfl, right_of_along WF.clear fun _ => rfl⟩

/-- Unless the stride divides what the table grows to, every call returns. -/
theorem WF.meets (hw : m.WF hash) (hd : ¬stride ∣ m.next) (hr : ∀ n, op = .resize n → ¬stride ∣ n) :
    m.Meets hash op := by
  cases op with
  | set key value => exact fits_next hd key
  | get key => exact fits_next hd key
  | resize n =>
    intro hlt
    have hroom := hw.room
    refine fits_of_not_dvd (fun h => ?_) (by rw [length_keys]; omega)
    rcases prime_stride.dvd_mul.1 h with h | h
    · exact hr n rfl h
    · exact absurd (Nat.le_of_dvd (by decide) h) (by decide)
  | clear => exact trivial

theorem Along.last (h : m.Along hash (ops ++ [op])) (hr : m.run hash ops = some r) :
    r.2.Meets hash op := by
  induction ops generalizing m r with
  | nil =>
    cases Option.some.inj hr
    exact h.1
  | cons o ops ih =>
    obtain ⟨q, hq, hrest⟩ := Option.bind_eq_some_iff.1 hr
    obtain ⟨p, hp, rfl⟩ := Option.map_eq_some_iff.1 hrest
    have hlast := ih (h.2 q hq) hp
    exact hlast

/-- Six pairs in a table of 6 * 1051 cells, all probed for in the same six. -/
def crowded : List (Op Nat Nat) := [.resize stride, .set 0 0, .set 1 0, .set 2 0, .set 3 0,
    .set 4 0, .set 5 0]

theorem seventh_hangs : ¬(clear : Map Nat Nat).Right (fun _ => 0) (fun _ => none)
    (crowded ++ [.get 6]) := by
  intro h
  have hrun : ((clear : Map Nat Nat).run (fun _ => 0) crowded).map (fun r => (r.2.keys, r.2.capacity)) =
      some ([0, 1, 2, 3, 4, 5], 6306) := by decide +kernel
  obtain ⟨r, hr, he⟩ := Option.map_eq_some_iff.1 hrun
  obtain ⟨hk, hc⟩ := Prod.mk.inj he
  have hm : Fits (fun _ => 0) r.2.next (withKey r.2.keys 6) :=
    (along_of_right WF.clear (fun _ => rfl) h).last hr
  have hsize : r.2.size = 6 := by
    rw [← length_keys, hk]
    rfl
  have hnext : r.2.next = 6306 := by
    rw [next, hsize, hc]
    decide
  rw [hnext, hk] at hm
  exact absurd (hm 6 (by decide)) (by decide)

end Diode.L4.Map
