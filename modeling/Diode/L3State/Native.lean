import Diode.L3State.Pools

/-!
# The native library

`Native` is the heap of a process with the item pools under it. A routine makes the
calls of its script on the pools and has no outcome when one of them reads a
destroyed tree. Its reply is the one of the heap: the tries tell on the way what the
maps of the heap say (`play_told`), and a read finds what they hold (`reads`).

* `step_isSome_iff`, `run_isSome_iff`: a call, and a run, comes back exactly when it
  is sound.
* `step_of_sound`, `run_of_sound`: then it leaves the heap of `L3.Heap`.
-/
namespace Diode.L3
open Diode.Core Diode.L1.Ext

structure Native where
  heap : Heap
  pools : Pools

namespace Native

def init : Native := ⟨Heap.init, Pools.init⟩

section
variable (sha : Bytes → Word)

/-- A routine. -/
def play (n : Native) (s : Script) : Option Native :=
  (n.pools.calls sha n.heap.res (s.calls n.heap)).map fun x => ⟨(s.run n.heap).1, x.1⟩

/-- No call of the routine on a trie meets a defect: no 17 keys that share the first
128 bits of their hash come together in one, and no node that a destroyed tree made
collapses. -/
def fit (n : Native) (s : Script) : Bool := n.pools.fits sha n.heap.res (s.calls n.heap)

def step (n : Native) (op : Op) : Option (Native × Reply) :=
  (n.play sha (op.script sha)).map fun n' => (n', (n.heap.step sha op).2)

def sound (n : Native) (op : Op) : Bool := n.fit sha (op.script sha)

def run (n : Native) : List Op → Option Native
  | [] => some n
  | op :: ops => (n.step sha op).bind fun x => x.1.run ops

/-- Every call of the run is sound where it is made. -/
def soundRun (n : Native) : List Op → Bool
  | [] => true
  | op :: ops => n.sound sha op && (n.step sha op).all fun x => x.1.soundRun ops

/-- What the process gets. -/
def reply (n : Native) (op : Op) : Option Reply := (n.step sha op).map Prod.snd

/-- The pools hold the tries of the heap. -/
def Holds (n : Native) : Prop :=
  Resources.Counted n.heap.res ∧ ∃ M, Pools.Holds sha M n.heap.res n.pools

end

variable {sha : Bytes → Word} {n n' : Native} {s : Script} {op : Op} {ops : List Op}

theorem holds_init (sha : Bytes → Word) : init.Holds sha := ⟨Resources.Counted.init, _, Pools.holds_init sha⟩

/-! ## One routine -/

theorem counted_calls {r : Resources} (h : Resources.Counted r) : ∀ l : List Call, Resources.Counted (r.calls l)
  | [] => h
  | c :: l => counted_calls (h.call c) l

/-- **What the tries tell** in a sound routine is what the maps say. -/
theorem play_told (h : n.Holds sha) (hs : n.fit sha s = true) :
    ∃ P, n.pools.calls sha n.heap.res (s.calls n.heap) = some (P, n.heap.res.told sha (s.calls n.heap)) ∧
      Holds sha ⟨(s.run n.heap).1, P⟩ := by
  obtain ⟨hk, M, hP⟩ := h
  obtain ⟨P, h1, M', h2⟩ := Pools.calls_refines hP hk hs
  have hres := (s.traced n.heap).res
  refine ⟨P, h1, ?_, M', ?_⟩
  · rw [hres]
    exact counted_calls hk _
  · rwa [hres]

theorem play_of_fit (h : n.Holds sha) (hs : n.fit sha s = true) :
    ∃ P, n.play sha s = some ⟨(s.run n.heap).1, P⟩ ∧ Holds sha ⟨(s.run n.heap).1, P⟩ := by
  obtain ⟨P, h1, h2⟩ := play_told h hs
  exact ⟨P, by rw [play, h1, Option.map_some], h2⟩

/-- A routine comes back exactly when it is fit. -/
theorem play_isSome_iff (h : n.Holds sha) : (n.play sha s).isSome = true ↔ n.fit sha s = true := by
  refine ⟨fun hs => ?_, fun hs => ?_⟩
  · obtain ⟨hk, M, hP⟩ := h
    rw [play, Option.isSome_map] at hs
    exact Pools.fits_of_calls hP hk (Option.some_get hs).symm
  · obtain ⟨P, h1, -⟩ := play_of_fit h hs
    exact Option.isSome_of_eq_some h1

/-- **Reads.** A lookup in the tree of a resource, and an iteration over it, find what
its map holds. -/
theorem reads (h : n.Holds sha) (mt : Nat) :
    (∀ key, ∃ P, n.pools.onTree sha n.heap.res mt (.getItem · key) (.value none) =
      some (P, .value (if (n.heap.res.tree mt).read key = 0 then none else some ((n.heap.res.tree mt).read key)))) ∧
    ∃ P l, n.pools.onTree sha n.heap.res mt .each (.pairs []) = some (P, .pairs l) ∧
      l.Perm (n.heap.res.tree mt).pairs := by
  obtain ⟨-, M, hP⟩ := h
  exact ⟨hP.getItem mt, hP.each mt⟩

/-! ## One call -/

/-- **A sound call** comes back, with the heap and the reply of `L3.Heap.step`. -/
theorem step_of_sound (h : n.Holds sha) (hs : n.sound sha op = true) :
    ∃ P, n.step sha op = some (⟨(n.heap.step sha op).1, P⟩, (n.heap.step sha op).2) ∧
      Holds sha ⟨(n.heap.step sha op).1, P⟩ := by
  obtain ⟨P, h1, h2⟩ := play_of_fit h hs
  rw [Heap.script_step] at h1 h2
  exact ⟨P, by rw [step, h1, Option.map_some], h2⟩

theorem step_eq (h : n.Holds sha) (hs : n.sound sha op = true) {g : Heap} {r : Reply}
    (he : n.heap.step sha op = (g, r)) : ∃ P, n.step sha op = some (⟨g, P⟩, r) ∧ Holds sha ⟨g, P⟩ := by
  have := step_of_sound h hs
  rwa [he] at this

/-- A call comes back exactly when it is sound. -/
theorem step_isSome_iff (h : n.Holds sha) : (n.step sha op).isSome = true ↔ n.sound sha op = true := by
  rw [step, Option.isSome_map, sound, play_isSome_iff h]

/-- A call comes back with what the heap says, or is not sound. -/
theorem step_cases (h : n.Holds sha) {g : Heap} {r : Reply} (he : n.heap.step sha op = (g, r)) :
    (n.sound sha op = true ∧ ∃ P, n.step sha op = some (⟨g, P⟩, r) ∧ Holds sha ⟨g, P⟩) ∨
      (n.sound sha op = false ∧ n.step sha op = none) := by
  cases hs : n.sound sha op with
  | true => exact .inl ⟨rfl, step_eq h hs he⟩
  | false => exact .inr ⟨rfl, by rw [← Option.not_isSome_iff_eq_none, step_isSome_iff h, hs]; nofun⟩

theorem reply_of_sound (h : n.Holds sha) (hs : n.sound sha op = true) :
    n.reply sha op = some (n.heap.step sha op).2 := by
  obtain ⟨P, h1, -⟩ := step_of_sound h hs
  rw [reply, h1, Option.map_some]

theorem reply_isSome_iff (h : n.Holds sha) : (n.reply sha op).isSome = true ↔ n.sound sha op = true := by
  rw [reply, Option.isSome_map, step_isSome_iff h]

/-- A call gets the reply of the heap exactly when it is sound. -/
theorem reply_iff (h : n.Holds sha) {r : Reply} (he : (n.heap.step sha op).2 = r) :
    n.reply sha op = some r ↔ n.sound sha op = true :=
  ⟨fun hr => (reply_isSome_iff h).1 (Option.isSome_of_eq_some hr), fun hs => he ▸ reply_of_sound h hs⟩

/-! ## Runs -/

theorem run_append (n : Native) (ops ops' : List Op) :
    n.run sha (ops ++ ops') = (n.run sha ops).bind fun n => n.run sha ops' := by
  induction ops generalizing n with
  | nil => rfl
  | cons op ops ih =>
    show (n.step sha op).bind _ = ((n.step sha op).bind _).bind _
    rw [Option.bind_assoc]
    exact congrArg _ (funext fun x => ih x.1)

/-- **A sound run** comes back, with the heap of `L3.Heap.run`. -/
theorem run_of_sound : ∀ {ops : List Op} {n : Native}, n.Holds sha → n.soundRun sha ops = true →
    ∃ P, n.run sha ops = some ⟨n.heap.run sha ops, P⟩ ∧ Holds sha ⟨n.heap.run sha ops, P⟩
  | [], n, h, _ => ⟨n.pools, rfl, h⟩
  | op :: ops, n, h, hs => by
    rw [soundRun, Bool.and_eq_true] at hs
    obtain ⟨P, h1, h2⟩ := step_of_sound h hs.1
    have hrest := hs.2
    rw [h1, Option.all_some] at hrest
    obtain ⟨Q, h3, h4⟩ := run_of_sound h2 hrest
    exact ⟨Q, by rw [run, h1, Option.bind_some, h3]; rfl, h4⟩

/-- A run comes back exactly when it is sound. -/
theorem run_isSome_iff : ∀ {ops : List Op} {n : Native}, n.Holds sha →
    ((n.run sha ops).isSome = true ↔ n.soundRun sha ops = true)
  | [], _, _ => ⟨fun _ => rfl, fun _ => rfl⟩
  | op :: ops, n, h => by
    rw [soundRun, Bool.and_eq_true, ← step_isSome_iff h]
    cases hs : n.step sha op with
    | none =>
      rw [run, hs, Option.bind_none]
      exact ⟨nofun, fun h => nomatch h.1⟩
    | some x =>
      have hsound := (step_isSome_iff h).1 (Option.isSome_of_eq_some hs)
      obtain ⟨P, h1, h2⟩ := step_of_sound h hsound
      obtain rfl := Option.some.inj (hs.symm.trans h1)
      rw [run, hs, Option.bind_some, Option.all_some, run_isSome_iff h2]
      exact ⟨fun h => ⟨rfl, h⟩, And.right⟩

/-- The state that a run leaves holds its tries. -/
theorem holds_run (h : n.Holds sha) (hr : n.run sha ops = some n') : n'.heap = n.heap.run sha ops ∧ n'.Holds sha := by
  obtain ⟨P, h1, h2⟩ := run_of_sound h ((run_isSome_iff h).1 (Option.isSome_of_eq_some hr))
  obtain rfl := Option.some.inj (hr.symm.trans h1)
  exact ⟨rfl, h2⟩

end Native
end Diode.L3
