import Diode.L4Evm.Evm

/-!
# Precompiled contracts

`ethereum` is what the four contracts are defined to be, `run` and
`eval_internal_precompile` what becomes of a call here. The hashes agree on
every input. `ecrecover` has one clause, for an input that fills its four words
and a second word below 256, and no clause for the rest; every output is cut or
filled to the last 32 bytes, which suits a hash but neither a copy nor the
empty output of a recovery that fails.

* `precompile_iff`: for every input and every amount of gas, when a contract
  answers as it is defined to.
-/
namespace Diode.L4
open Diode.Core Diode.L3

/-- The recovery of an address from a digest, the parity of a point and the
two numbers of a signature. -/
abbrev Recover := Bytes → Nat → Bytes → Bytes → Option Addr

/-- `signature` is `v` and the two numbers.
mirrors lib/precompiles.ex:22-31, lib/secp256k1.ex:112-136 -/
def recovered (recover : Recover) (digest signature : Bytes) : Addr :=
  (recover digest (1 - (signature.headD 0).toNat % 2) ((signature.drop 1).take 32)
    (signature.drop 33)).getD 0

/-- The frame's `ecrecover` is made of the recovery. -/
def Env.recovering (e : Env) (recover : Recover) : Env := { e with ecrecover := recovered recover }

namespace PreCompile

/-- The gas of a contract, by the words of its input. -/
def cost (input : Bytes) (fn : PreCompile) : Nat :=
  let words := (input.length + 31) / 32
  match fn with
  | .ecrecover => 3000
  | .sha256 => 60 + 12 * words
  | .ripemd160 => 600 + 120 * words
  | .copy => 15 + 3 * words

/-- The output of a contract. `ecrecover` reads four words, which a short input
ends with zeros: a digest, `v`, and the two numbers of the signature. -/
def output (e : Env) (recover : Recover) (input : Bytes) : PreCompile → Bytes
  | .ecrecover =>
    let words := (input ++ List.replicate 128 0).take 128
    let v := ofBe ((words.drop 32).take 32)
    if v = 27 ∨ v = 28 then
      match recover (words.take 32) (v - 27) ((words.drop 64).take 32) (words.drop 96) with
      | some address => List.replicate 12 0 ++ Addr.bytes address
      | none => []
    else []
  | .sha256 => Word.bytes (e.sha2_256 input)
  | .ripemd160 => List.replicate 12 0 ++ Addr.bytes (e.ripemd160 input)
  | .copy => input

/-- A contract with some gas: status, output and the gas left. -/
def ethereum (e : Env) (recover : Recover) (input : Bytes) (gas : Int) (fn : PreCompile) :
    Status × Bytes × Int :=
  if gas < fn.cost input then (.evmc_out_of_gas, [], 0) else (.evmc_success,
    fn.output e recover input, gas - fn.cost input)

/-- A call of the contract does not raise, leaves the accounts alone and ends
as it is defined to. -/
def Answers (e : Env) (recover : Recover) (fn : PreCompile) (task : Task) (gas : Int) (s : State) : Prop :=
  ∃ evm', Evm.eval_internal_precompile (e.recovering recover) { task.evm with gas } s fn =
      some ((fn.ethereum e recover task.tx.payload gas).1, evm', s) ∧
    (evm'.out.getD [], evm'.gas) = (fn.ethereum e recover task.tx.payload gas).2

/-- The inputs on which a contract and its definition agree. -/
def Covers (recover : Recover) (input : Bytes) : PreCompile → Prop
  | .ecrecover =>
    let v := ((input.drop 63).headD 0).toNat
    128 ≤ input.length ∧ (input.drop 32).take 31 = List.replicate 31 0 ∧ (v = 27 ∨ v = 28) ∧
      (recover (input.take 32) (v - 27) ((input.drop 64).take 32)
        ((input.drop 96).take 32)).isSome = true
  | .sha256 => True
  | .ripemd160 => True
  | .copy => input.length = 32

variable {e : Env} {recover : Recover} {input : Bytes} {fn : PreCompile} {task : Task}
    {gas : Int} {s : State}

theorem gas_cost (fn : PreCompile) (input : Bytes) : fn.gas input = fn.cost input := by
  cases fn with
  | ecrecover => rfl
  | sha256 => simp only [PreCompile.gas, cost]; omega
  | ripemd160 => simp only [PreCompile.gas, cost]; omega
  | copy => simp only [PreCompile.gas, cost]; omega

/-- An output as a frame hands it on. -/
def word (result : Bytes) : Bytes := ((List.replicate 32 0 ++ result).drop result.length).take 32

theorem word_length (result : Bytes) : (word result).length = 32 := by
  rw [word, List.length_take, List.length_drop, List.length_append, List.length_replicate]
  omega

theorem word_eq {result : Bytes} (h : result.length ≤ 32) : word result = List.replicate
    (32 - result.length) 0 ++ result := by
  have hlen : (List.replicate (32 - result.length) (0 : UInt8) ++ result).length = 32 := by
    rw [List.length_append, List.length_replicate]
    omega
  rw [word, List.drop_append_of_le_length (by rw [List.length_replicate]; exact h), List.drop_replicate,
    List.take_of_length_le (by omega)]

theorem eval_internal_precompile_eq (e : Env) (task : Task) (gas : Int) (s : State) (fn : PreCompile) :
    Evm.eval_internal_precompile e { task.evm with gas } s fn =
      if gas < fn.cost task.tx.payload then some
        (.evmc_out_of_gas, { task.evm with gas := 0, msg := .evmc_out_of_gas }, s)
      else (fn.run e task.tx.payload).map fun result =>
        (.evmc_success, { task.evm with out := some (word result), gas := gas - fn.cost task.tx.payload }, s) := by
  rw [← gas_cost]
  rfl

theorem answers_native_iff : fn.Answers e recover task gas s ↔
    gas < fn.cost task.tx.payload ∨
      ∃ result, fn.run (e.recovering recover) task.tx.payload = some result ∧
        word result = fn.output e recover task.tx.payload := by
  unfold Answers ethereum
  rw [eval_internal_precompile_eq]
  by_cases hg : gas < fn.cost task.tx.payload
  · rw [if_pos hg, if_pos hg]
    exact iff_of_true ⟨_, rfl, rfl⟩ (.inl hg)
  rw [if_neg hg, if_neg hg, or_iff_right hg]
  cases fn.run (e.recovering recover) task.tx.payload with
  | none => exact iff_of_false (fun ⟨_, h, _⟩ => by cases h) (fun ⟨_, h, _⟩ => by cases h)
  | some result =>
    refine ⟨?_, ?_⟩
    · intro hx
      obtain ⟨evm', h, hout⟩ := hx
      cases h
      exact ⟨result, rfl, (Prod.mk.inj hout).1⟩
    · intro hx
      obtain ⟨_, h, hw⟩ := hx
      cases h
      exact ⟨_, rfl, Prod.ext hw rfl⟩

/-! ## The words of `ecrecover` -/

/-- A second word below 256 is its last byte. -/
theorem second_word (hlen : 128 ≤ input.length) (hz : (input.drop 32).take 31 = List.replicate 31 0) :
    ofBe ((input.drop 32).take 32) = ((input.drop 63).headD 0).toNat := by
  have hget : (input.drop 32)[31]? = some (input.get ⟨63, by omega⟩) := by
    rw [List.getElem?_drop, List.getElem?_eq_getElem (by omega)]
    rfl
  have hhead : (input.drop 63).headD 0 = input.get ⟨63, by omega⟩ := by
    rw [List.headD_eq_head?_getD, List.head?_drop, List.getElem?_eq_getElem (by omega)]
    rfl
  have htake : (input.drop 32).take 32 = List.replicate 31 0 ++ [input.get ⟨63, by omega⟩] := by
    rw [List.take_add_one, hz, hget]
    rfl
  rw [htake, ofBe_snoc, hhead]
  have h0 : ofBe (List.replicate 31 0) = 0 := by decide
  omega

/-- The definition on an input that fills its words. -/
theorem output_ecrecover (hlen : 128 ≤ input.length)
    (hz : (input.drop 32).take 31 = List.replicate 31 0) :
    PreCompile.output e recover input .ecrecover =
      let v := ((input.drop 63).headD 0).toNat
      if v = 27 ∨ v = 28 then
        match recover (input.take 32) (v - 27) ((input.drop 64).take 32) ((input.drop 96).take 32) with
        | some address => List.replicate 12 0 ++ Addr.bytes address
        | none => []
      else [] := by
  have hw : (input ++ List.replicate 128 0).take 128 = input.take 128 :=
    List.take_append_of_le_length hlen
  have hslice : ∀ m, m + 32 ≤ 128 → ((input.take 128).drop m).take 32 = (input.drop m).take 32 := by
    intro m hm
    rw [List.drop_take, List.take_take, min_eq_left (by omega)]
  have hdigest : (input.take 128).take 32 = input.take 32 := hslice 0 (by decide)
  have hlast : (input.take 128).drop 96 = (input.drop 96).take 32 := List.drop_take
  unfold PreCompile.output
  dsimp only
  rw [hw, hslice 32 (by decide), hslice 64 (by decide), hdigest, hlast, second_word hlen hz]

/-- What the contract recovers when its clause takes the input. -/
theorem run_ecrecover (h : 128 ≤ input.length ∧ (input.drop 32).take 31 = List.replicate 31 0) :
    PreCompile.run (e.recovering recover) input .ecrecover =
      some (Addr.bytes ((recover (input.take 32) (1 - ((input.drop 63).headD 0).toNat % 2) ((input.drop 64).take 32)
        ((input.drop 96).take 32)).getD 0)) := by
  have hsig : ((input.drop 63).take 65).headD 0 = (input.drop 63).headD 0 := by
    rw [List.headD_eq_head?_getD, List.headD_eq_head?_getD, List.head?_take]
    rfl
  have hr : (((input.drop 63).take 65).drop 1).take 32 = (input.drop 64).take 32 := by
    rw [List.drop_take, List.take_take, List.drop_drop]
    rfl
  have hs : ((input.drop 63).take 65).drop 33 = (input.drop 96).take 32 := by
    rw [List.drop_take, List.drop_drop]
  unfold PreCompile.run
  dsimp only
  rw [if_pos h]
  change some (Addr.bytes (recovered recover _ _)) = _
  rw [recovered, hsig, hr, hs]

theorem ecrecover_iff : (∃ result, PreCompile.run (e.recovering recover) input .ecrecover = some result ∧
    word result = PreCompile.output e recover input .ecrecover) ↔ Covers recover input .ecrecover := by
  by_cases h : 128 ≤ input.length ∧ (input.drop 32).take 31 = List.replicate 31 0
  · rw [run_ecrecover h, output_ecrecover h.1 h.2]
    have hempty : ∀ result : Bytes, word result ≠ [] := fun result hr => by
      have := word_length result
      rw [hr] at this
      cases this
    unfold Covers
    dsimp only
    generalize ((input.drop 63).headD 0).toNat = v
    by_cases hv : v = 27 ∨ v = 28
    · have hparity : 1 - v % 2 = v - 27 := by omega
      rw [hparity, if_pos hv]
      cases recover (input.take 32) (v - 27) ((input.drop 64).take 32) ((input.drop 96).take 32) with
      | none => exact iff_of_false (fun ⟨result, _, hr⟩ => hempty result hr) fun hc => by cases hc.2.2.2
      | some address =>
        refine iff_of_true ⟨_, rfl, ?_⟩ ⟨h.1, h.2, hv, rfl⟩
        rw [Option.getD_some, word_eq (by rw [Addr.bytes_length]; decide), Addr.bytes_length]
    · rw [if_neg hv]
      exact iff_of_false (fun ⟨result, _, hr⟩ => hempty result hr) fun hc => hv hc.2.2.1
  · refine iff_of_false (fun ⟨result, hrun, _⟩ => ?_) fun hc => h ⟨hc.1, hc.2.1⟩
    unfold PreCompile.run at hrun
    dsimp only at hrun
    rw [if_neg h] at hrun
    cases hrun

/-- **Precompiled contracts.** For every input and every amount of gas, a contract
ends as it is defined to exactly when the gas does not suffice or the input is
one of those it covers. -/
theorem precompile_iff (e : Env) (recover : Recover) (fn : PreCompile) (task : Task)
    (gas : Int) (s : State) :
    fn.Answers e recover task gas s ↔ gas < fn.cost task.tx.payload ∨
      fn.Covers recover task.tx.payload := by
  rw [answers_native_iff]
  refine or_congr_right ?_
  cases fn with
  | ecrecover => exact ecrecover_iff
  | sha256 =>
    have hrun : PreCompile.run (e.recovering recover) task.tx.payload .sha256 = some
      (Word.bytes (e.sha2_256 task.tx.payload)) := rfl
    refine iff_of_true ⟨_, hrun, ?_⟩ trivial
    rw [word_eq (by rw [Word.bytes_length]), Word.bytes_length]
    exact List.nil_append _
  | ripemd160 =>
    have hrun : PreCompile.run (e.recovering recover) task.tx.payload .ripemd160 = some
      (Addr.bytes (e.ripemd160 task.tx.payload)) := rfl
    refine iff_of_true ⟨_, hrun, ?_⟩ trivial
    rw [word_eq (by rw [Addr.bytes_length]; decide), Addr.bytes_length]
    exact congrArg (List.replicate 12 0 ++ ·) rfl
  | copy =>
    refine ⟨?_, ?_⟩
    · intro h
      obtain ⟨_, hr, hw⟩ := h
      cases hr
      have := word_length task.tx.payload
      rwa [hw] at this
    · intro hc
      have hc : task.tx.payload.length = 32 := hc
      refine ⟨_, rfl, ?_⟩
      rw [word_eq (by rw [hc]), hc]
      rfl

/-- A nested call of account `n` with an input. -/
def precompileTask (n : Nat) (input : Bytes) : Task where
  static := false
  source := 7
  tx := ⟨0, 0, 10000, some (BitVec.ofNat 160 n), 0, none, List.replicate 65 0, none, some input⟩
  code := []
  number := 1
  internal := true
  selfdestructs := []

/-- **Short inputs.** A copy of nothing is a word of zeros, and a recovery from
nothing raises. -/
theorem short_inputs :
    ¬PreCompile.Answers Env.plain (fun _ _ _ _ => none) .copy (precompileTask 4 []) 10000 State.empty ∧
      Evm.eval_internal_precompile (Env.plain.recovering fun _ _ _ _ => none)
        (precompileTask 1 []).evm State.empty .ecrecover = none ∧
      ¬PreCompile.Answers Env.plain (fun _ _ _ _ => none) .ecrecover (precompileTask 1 []) 10000
        State.empty := by
  refine ⟨?_, rfl, ?_⟩
  · intro hx
    obtain ⟨evm', h, hout⟩ := hx
    have hout := (Prod.mk.inj hout).1
    cases h
    revert hout
    decide
  · intro hx
    obtain ⟨evm', h, -⟩ := hx
    cases h

end PreCompile
end Diode.L4
