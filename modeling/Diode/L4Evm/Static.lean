import Diode.L4Evm.Apply
import Diode.L4Evm.Idle

/-!
# Static frames

A frame is static when its task is run with the option, when it is entered
through a static call, or when a static frame enters it. The option is a field
of the task and is handed on; it keeps the last flush of a frame from the
state. The flag of a call is not written to the handler, and an interpreter is
started without flags, so in a frame entered through a static call nothing is
held back: what it sends is what a frame with no restrictions may send.

`Untouched` says that no step of a static frame changes the state, `Harmless`
what the frames must not send for that: no flush that says something new, no
value, no creation.

**Results.**
* `harmless_end`: a static frame of a harmless run leaves the state it found.
* `untouched_iff`: a run keeps its static frames from writing exactly when it
  is harmless.
-/
namespace Diode.L4
open Diode.Core Diode.L3

/-! ## What static frames are for, and what they must not do -/

/-- `st` says that the frame was entered as a static one. -/
def Untouched (e : Env) : Bool → Script → Evm → State → Prop
  | st, .done updates _ _ _, evm, s =>
    (st || evm.task.static) = true → (if evm.task.static then s else s.process_updates updates) = s
  | st, .callback m next, evm, s => ∀ replies evm', evm.process_data e s m = some (replies, evm') →
      Untouched e st next evm' s
  | st, .call msg updates child next, evm, s =>
    ((st || evm.task.static) = true → s.process_updates updates = s) ∧
    (∀ evm1 s1, Task.Entered e (s.process_updates updates) evm.task msg evm1 s1 →
      ((st || evm.task.static || msg.static) = true → s1 = s.process_updates updates) ∧
      (evm1.task.code ≠ [] → Untouched e (st || evm.task.static || msg.static) child evm1 s1)) ∧
    ∀ tag evm2 s2, evm.task.call_contract e (Evm.loop e child) (s.process_updates updates) msg =
      some (tag, evm2, s2) →
      ((st || evm.task.static || msg.static) = true → s2 = s.process_updates updates) ∧
        Untouched e st next (evm.after_call evm2) s2

/-- Where a frame is static, its flushes are idle, unless the option drops them,
and no call that goes through creates an account or moves a value. -/
def Harmless (e : Env) : Bool → Script → Evm → State → Prop
  | st, .done updates _ _ _, evm, s => st = true → evm.task.static = false → Idle s updates
  | st, .callback m next, evm, s => ∀ replies evm', evm.process_data e s m = some (replies, evm') →
      Harmless e st next evm' s
  | st, .call msg updates child next, evm, s =>
    ((st || evm.task.static) = true → Idle s updates) ∧
    (∀ evm1 s1, Task.Entered e (s.process_updates updates) evm.task msg evm1 s1 →
      ((st || evm.task.static || msg.static) = true → msg.creates = false ∧
        ¬Task.Transfers e evm.task msg.kind (Task.parties e evm.task msg).1
          (Task.parties e evm.task msg).2 msg.value.toNat) ∧
      (evm1.task.code ≠ [] → Harmless e (st || evm.task.static || msg.static) child evm1 s1)) ∧
    ∀ tag evm2 s2, evm.task.call_contract e (Evm.loop e child) (s.process_updates updates) msg =
      some (tag, evm2, s2) →
      Harmless e st next (evm.after_call evm2) s2

section
variable {e : Env} {st : Bool} {evm evm' : Evm} {s : State} {task : Task} {msg : Message}
    {ret : Ret} {do_eval : Evm → State → Option Ret}

/-! ## A harmless frame -/

theorem Evm.Keeps.static (h : evm.Keeps evm') : evm'.task.static = evm.task.static := by
  rw [← h.task]

theorem eval_internal_state (h : Evm.eval_internal e do_eval evm s = some ret)
    (hdo : evm.task.code ≠ [] → ∀ ret1, do_eval evm s = some ret1 → ret1.2.2 = s) : ret.2.2 = s := by
  unfold Evm.eval_internal at h
  split at h
  · split at h
    · cases h
      rfl
    · unfold Evm.eval_internal_precompile at h
      dsimp only at h
      split at h
      · cases h
        rfl
      · obtain ⟨_, -, h⟩ := Option.map_eq_some_iff.1 h
        cases h
        rfl
  · rename_i hc
    obtain ⟨ret1, h1, rfl⟩ := Option.map_eq_some_iff.1 h
    rw [(settle_frame_keeps ret1).2]
    exact hdo hc ret1 h1

/-- A call that neither creates nor pays, and whose frame leaves the state it
finds, leaves it too. -/
theorem call_contract_state (h : Task.call_contract e do_eval s task msg = some ret)
    (hin : ∀ evm1 s1, Task.Entered e s task msg evm1 s1 →
      (msg.creates = false ∧ ¬Task.Transfers e task msg.kind (Task.parties e task msg).1
        (Task.parties e task msg).2 msg.value.toNat) ∧
        (evm1.task.code ≠ [] → ∀ ret1, do_eval evm1 s1 = some ret1 → ret1.2.2 = s1)) : ret.2.2 = s := by
  cases Task.call_contract_nested h with
  | call s1 _ hk ht h1 =>
    obtain ⟨⟨-, hT⟩, hdo⟩ := hin _ _ (.call s1 hk ht)
    rw [if_neg hT] at ht
    subst ht
    exact eval_internal_state h1 hdo
  | refused => rfl
  | failed account s1 s2 _ hk hover ha h1 h2 _ _ =>
    obtain ⟨⟨hk', -⟩, -⟩ := hin _ _ (.create account s1 s2 hk hover ha h1 h2)
    rw [hk] at hk'
    cases hk'
  | deployed account s1 s2 s3 s4 evm2 hk hover ha h1 h2 _ _ =>
    obtain ⟨⟨hk', -⟩, -⟩ := hin _ _ (.create account s1 s2 hk hover ha h1 h2)
    rw [hk] at hk'
    cases hk'

/-- **A static frame** of a harmless run ends in the state it began with. -/
theorem harmless_end : ∀ (script : Script) {st : Bool} {evm : Evm} {s : State} {ret : Ret},
    Harmless e st script evm s →
    (st || evm.task.static) = true → Evm.loop e script evm s = some ret → ret.2.2 = s
  | .done updates gas_left ret_code output, st, evm, s, ret, h, hst, hl => by
    obtain ⟨status, -, hl⟩ := Option.bind_eq_some_iff.1 hl
    cases hl
    dsimp only
    split
    · rfl
    · rename_i hf
      have hf : evm.task.static = false := by simpa using hf
      exact process_updates_eq_iff.2 (h (by simpa [hf] using hst) hf)
  | .callback m next, st, evm, s, ret, h, hst, hl => by
    obtain ⟨⟨replies, evm'⟩, hp, hl⟩ := Option.bind_eq_some_iff.1 hl
    have hst' : (st || evm'.task.static) = true := by rw [(process_data_keeps hp).static]; exact hst
    exact harmless_end next (h replies evm' hp) hst' hl
  | .call msg updates child next, st, evm, s, ret, h, hst, hl => by
    obtain ⟨hidle, hin, hnext⟩ := h
    obtain ⟨⟨tag, evm2, s2⟩, hcall, hl⟩ := Option.bind_eq_some_iff.1 hl
    obtain ⟨_, -, hl⟩ := Option.bind_eq_some_iff.1 hl
    have hflush := process_updates_eq_iff.2 (hidle hst)
    have hchild : (st || evm.task.static || msg.static) = true := by rw [hst, Bool.true_or]
    have h2 : s2 = s.process_updates updates := call_contract_state hcall fun evm1 s1 hen =>
      ⟨(hin evm1 s1 hen).1 hchild, fun hc ret1 h1 => harmless_end child ((hin evm1 s1 hen).2 hc)
        (by rw [hchild, Bool.true_or]) h1⟩
    have hst' : (st || (evm.after_call evm2).task.static) = true := by
      rw [(after_call_keeps evm evm2).static]; exact hst
    have h3 : ret.2.2 = s2 := harmless_end next (hnext tag evm2 s2 hcall) hst' hl
    rw [h3, h2, hflush]

/-! ## Static frames do not write -/

/-- What a call enters unchanged, neither creates nor pays. -/
theorem entered_same {evm1 : Evm} {s1 : State} (hen : Task.Entered e s task msg evm1 s1)
    (h : s1 = s) : msg.creates = false ∧
    ¬Task.Transfers e task msg.kind (Task.parties e task msg).1 (Task.parties e task msg).2
      msg.value.toNat := by
  cases hen with
  | call _ hk ht =>
    refine ⟨hk, fun hT => ?_⟩
    rw [if_pos hT] at ht
    exact transfer_changes hT.2.1 hT.1 ht h
  | create account _ _ hk _ ha _ h2 => exact absurd h (create_changes ha h2)

theorem entered_of {evm1 : Evm} {s1 : State} (hen : Task.Entered e s task msg evm1 s1)
    (h : msg.creates = false ∧
    ¬Task.Transfers e task msg.kind (Task.parties e task msg).1 (Task.parties e task msg).2
      msg.value.toNat) : s1 = s := by
  cases hen with
  | call _ hk ht =>
    rw [if_neg h.2] at ht
    exact ht
  | create account _ _ hk =>
    rw [h.1] at hk
    cases hk

theorem harmless_of_untouched : ∀ (script : Script) {st : Bool} {evm : Evm} {s : State},
    Untouched e st script evm s →
    Harmless e st script evm s
  | .done updates gas_left ret_code output, st, evm, s, h => by
    intro hst hf
    have hs := h (by rw [hst, Bool.true_or])
    rw [if_neg (by rw [hf]; exact Bool.false_ne_true)] at hs
    exact process_updates_eq_iff.1 hs
  | .callback m next, st, evm, s, h => fun replies evm' hp => harmless_of_untouched next
      (h replies evm' hp)
  | .call msg updates child next, st, evm, s, h => by
    obtain ⟨hflush, hin, hnext⟩ := h
    refine ⟨fun hst => process_updates_eq_iff.1 (hflush hst), fun evm1 s1 hen =>
      ?_, fun tag evm2 s2 hcall => ?_⟩
    · obtain ⟨hs, hc⟩ := hin evm1 s1 hen
      exact ⟨fun hst => entered_same hen (hs hst), fun hcode => harmless_of_untouched child (hc hcode)⟩
    · exact harmless_of_untouched next (hnext tag evm2 s2 hcall).2

theorem untouched_of_harmless : ∀ (script : Script) {st : Bool} {evm : Evm} {s : State},
    Harmless e st script evm s →
    Untouched e st script evm s
  | .done updates gas_left ret_code output, st, evm, s, h => by
    intro hst
    split
    · rfl
    · rename_i hf
      have hf : evm.task.static = false := by simpa using hf
      exact process_updates_eq_iff.2 (h (by simpa [hf] using hst) hf)
  | .callback m next, st, evm, s, h => fun replies evm' hp => untouched_of_harmless next
      (h replies evm' hp)
  | .call msg updates child next, st, evm, s, h => by
    obtain ⟨hidle, hin, hnext⟩ := h
    refine ⟨fun hst => process_updates_eq_iff.2 (hidle hst), fun evm1 s1 hen =>
      ?_, fun tag evm2 s2 hcall => ?_⟩
    · obtain ⟨hs, hc⟩ := hin evm1 s1 hen
      exact ⟨fun hst => entered_of hen (hs hst), fun hcode => untouched_of_harmless child (hc hcode)⟩
    · refine ⟨fun hst => ?_, untouched_of_harmless next (hnext tag evm2 s2 hcall)⟩
      exact call_contract_state hcall fun evm1 s1 hen => ⟨(hin evm1 s1 hen).1 hst, fun hcode ret1 h1 =>
        harmless_end child ((hin evm1 s1 hen).2 hcode) (by rw [hst, Bool.true_or]) h1⟩

/-- **Static execution.** The static frames of a run, at any depth, leave the
state alone exactly when the run is harmless. -/
theorem untouched_iff (e : Env) (st : Bool) (script : Script) (evm : Evm) (s : State) :
    Untouched e st script evm s ↔ Harmless e st script evm s :=
  ⟨harmless_of_untouched script, untouched_of_harmless script⟩

end

/-- Account 5 calls account 9, both with code. -/
def staticCaller : Task := ⟨false, 7, ⟨0, 0, 100, some 5, 0, none, [], none, none⟩, [0xFA], 1, true, []⟩

def staticState : State := State.empty.place 9 ⟨1, 0, [0x55]⟩

def staticCall : Message := ⟨.call, true, 5, 9, 0, [], 100, 0⟩

theorem staticState_idle {a : Addr} {k v : Word} (h : Idle staticState [((a, k), v)]) :
    staticState.read (a, k) = v := by
  have hp : State.parse_map [((a, k), v)] = SMap.empty.put a (SMap.empty.put k v) := rfl
  have hmem : (a, (SMap.empty : SMap Word Word).put k v) ∈ (State.parse_map [((a, k), v)]).entries := by
    rw [hp, SMap.mem_iff, SMap.get_put_self]
  refine (h _ hmem).2 (k, v) ?_
  rw [SMap.mem_iff, SMap.get_put_self]

/-- A frame entered through a static call writes a slot when it ends; a frame of
a static task writes one with a call. -/
theorem static_frame_writes :
    ¬Untouched Env.plain false (.call staticCall [] (.done [((9, 0), 1)] 50 0 [])
      (.done [] 50 0 [])) staticCaller.evm staticState ∧
      ¬Untouched Env.plain false (.call staticCall [((9, 0), 1)] (.done [] 50 0 []) (.done [] 50 0 []))
        { staticCaller with static := true }.evm staticState := by
  have hread : staticState.read (9, 0) = 0 := by decide
  refine ⟨?_, ?_⟩
  · intro h
    have hen : Task.Entered Env.plain staticState staticCaller staticCall
      (Task.callee Env.plain staticState staticCaller staticCall).evm
        staticState := .call _ rfl (by rw [if_neg (by decide)])
    have hchild := ((harmless_of_untouched _ h).2.1 _ _ hen).2 (by decide)
    have hr := staticState_idle (hchild rfl rfl)
    rw [hread] at hr
    exact absurd hr (by decide)
  · intro h
    have hr := staticState_idle ((harmless_of_untouched _ h).1 rfl)
    rw [hread] at hr
    exact absurd hr (by decide)

end Diode.L4
