import Diode.Core.Bytes
import Diode.Core.Shift
import Mathlib.Algebra.Order.Ring.Int
import Mathlib.Data.List.Forall2

/-!
# Arguments of a call

`encode_args` writes a head of one word an argument and behind it a tail for
every dynamic one: its length and its bytes, filled with zeros to whole words.
The head of a dynamic argument is the offset of its tail.

`decode_types` reads the end of the last word of a tail, where the writer filled
up, and a `bytesN` from the front of a word that the writer filled at the front.

* `round_trip_iff`: when reading gives back what was written.
-/
namespace Diode.L1.Abi
open Diode.Core

/-- The `bit` of the clauses that are made for `1..32`. -/
abbrev Bit := { bit : Nat // 1 ≤ bit ∧ bit ≤ 32 }

/-- `uint bit` is `uint8` to `uint256`, `int bit` as well. -/
inductive Ty where
  | uint (bit : Bit)
  | int (bit : Bit)
  | address
  | bytesN (bit : Bit)
  | bytes
  | string
  deriving DecidableEq

inductive Value where
  | int (v : Int)
  | bin (b : Bytes)
  deriving DecidableEq

def bytes32 : Ty := .bytesN ⟨32, by decide, by decide⟩

/-- `subtype(type) != nil` -/
def Ty.dynamic : Ty → Bool
  | .bytes => true
  | .string => true
  | _ => false

/-! ## Writing -/

/-- `<<v::size(256)>>` -/
def word (v : Int) : Bytes := be 32 (v % 2 ^ 256).toNat

/-- Of the clauses those of these types.
mirrors lib/abi.ex:142-162 -/
def encode : Ty → Value → Option Bytes
  | .uint _, .int v => some (word v)
  | .int _, .int v => some (word v)
  | .bytesN _, .bin b => some (word (ofBe b))
  | .bytesN _, .int v => some (word v)
  | .address, .int v => some (word v)
  | .address, .bin b => some (word (ofBe b))
  | _, _ => none

/-- `Enum.chunk_every(32)` -/
def chunk_every : Nat → Bytes → List Bytes
  | 0, _ => []
  | n + 1, b => b.take 32 :: chunk_every n (b.drop 32)

/-- mirrors lib/abi.ex:119-128 -/
def dynamic (value : Bytes) : List Ty × List Value × Nat :=
  let values := value ++ List.replicate 31 0
  let slots := values.length / 32
  let values := chunk_every slots (values.take (slots * 32))
  (List.replicate slots bytes32, values.map .bin, value.length)

/-- One step of the `Enum.reduce` of `encode_data`: the heads, the bodies and
the offset of the next body. -/
def place : Bytes × Bytes × Nat → Bytes × Bytes → Bytes × Bytes × Nat
  | (h, b, o), ([], body) => (h ++ word o, b ++ body, o + body.length)
  | (h, b, o), (head, _) => (h ++ head, b, o)

/-- mirrors lib/abi.ex:78-96 -/
def encode_data (do_encode_data : Ty → Value → Option (Bytes × Bytes)) (subtypes : List Ty)
    (values : List Value) : Option Bytes := do
  let values ← (subtypes.zip values).mapM fun (type, entry) => do_encode_data type entry
  let (head, body, _) := values.foldl place ([], [], 32 * subtypes.length)
  some (head ++ body)

/-- `do_encode_data` of a type without a subtype -/
def encode_static (type : Ty) (value : Value) : Option (Bytes × Bytes) :=
    (encode type value).map (·, [])

/-- The words of a dynamic value have no subtype.
mirrors lib/abi.ex:66-76 -/
def do_encode_data (type : Ty) (value : Value) : Option (Bytes × Bytes) :=
  if type.dynamic then
    match value with
    | .int _ => none
    | .bin value =>
      let (types, values, len) := dynamic value
      (encode_data encode_static types values).map fun ret => ([], word len ++ ret)
  else encode_static type value

/-- mirrors lib/abi.ex:8-11 -/
def encode_args (types : List Ty) (values : List Value) : Option Bytes :=
    encode_data do_encode_data types values

/-! ## Reading -/

/-- mirrors lib/abi.ex:184-203 -/
def decode : Ty → Bytes → Option (Value × Bytes)
  | .uint _, b => do
    let (value, rest) ← cut 32 b
    some (.int (ofBe value), rest)
  | .int _, b => do
    let (value, rest) ← cut 32 b
    some (.int ((ofBe value : Int).bmod (2 ^ 256)), rest)
  | .bytesN bit, b => do
    let (value, b) ← cut bit b
    let (_, rest) ← cut (32 - bit) b
    some (.bin value, rest)
  | .address, b => do
    let (_, b) ← cut 12 b
    let (address, rest) ← cut 20 b
    some (.bin address, rest)
  | _, b => do
    let (value, rest) ← cut 32 b
    some (.int (ofBe value), rest)

/-- A part outside of the binary raises. -/
def binary_part (b : Bytes) (pos len : Nat) : Option Bytes := if pos + len ≤ b.length then some
    ((b.drop pos).take len) else none

/-- mirrors lib/abi.ex:24-28 -/
def decode_dynamic (data : Bytes) (value : Nat) : Option Bytes := do
  let base ← binary_part data value (data.length - value)
  let (len, rest) ← cut 32 base
  let len := ofBe len
  let slots := len / 32 + 1
  binary_part rest (slots * 32 - len) len

/-- What is made of a head: an offset leads to the value. -/
def resolve (data : Bytes) : Ty × Value → Option Value
  | (.bytes, .int value) => (decode_dynamic data value.toNat).map .bin
  | (.string, .int value) => (decode_dynamic data value.toNat).map .bin
  | (_, value) => some value

/-- One step of the `Enum.reduce` of `decode_types`. -/
def decode_next (acc : List Value × Bytes) (type : Ty) : Option (List Value × Bytes) := do
  let (value, rest) ← decode type acc.2
  some (acc.1 ++ [value], rest)

/-- mirrors lib/abi.ex:13-33 -/
def decode_types (types : List Ty) (data : Bytes) : Option (List Value) := do
  let (ret, _) ← types.foldlM decode_next ([], data)
  (types.zip ret).mapM (resolve data)

/-! ## What is written -/

/-- The values of a type. -/
def InRange : Ty → Value → Prop
  | .uint bit, .int v => 0 ≤ v ∧ v < 2 ^ (8 * bit.1)
  | .int bit, .int v => -2 ^ (8 * bit.1 - 1) ≤ v ∧ v < 2 ^ (8 * bit.1 - 1)
  | .bytesN bit, .bin b => b.length = bit
  | .address, .bin b => b.length = 20
  | .bytes, .bin _ => True
  | .string, .bin _ => True
  | _, _ => False

/-- What fills the last word of `n` bytes. -/
def fill (n : Nat) : Bytes := List.replicate ((32 - n % 32) % 32) 0

/-- The tail of an argument. -/
def tail : Ty × Value → Bytes
  | (type, .bin b) => if type.dynamic then word b.length ++ (b ++ fill b.length) else []
  | (_, .int _) => []

/-- Head and tail as `place` takes them. -/
def part (p : Ty × Value) : Bytes × Bytes :=
    if p.1.dynamic then ([], tail p) else ((encode p.1 p.2).getD [], [])

/-- The heads, from the offset of the first tail on. -/
def heads : Nat → List (Ty × Value) → Bytes
  | _, [] => []
  | o, p :: ps => (if p.1.dynamic then word o else (encode p.1 p.2).getD []) ++ heads
      (o + (tail p).length) ps

def tails : List (Ty × Value) → Bytes
  | [] => []
  | p :: ps => tail p ++ tails ps

variable {type : Ty} {value : Value} {p : Ty × Value} {ps : List (Ty × Value)}

@[simp] theorem word_length (v : Int) : (word v).length = 32 := be_length _ _

theorem ofBe_word (v : Int) : (ofBe (word v) : Int) = v % 2 ^ 256 := by
  have h0 : 0 ≤ v % 2 ^ 256 := Int.emod_nonneg v (by decide)
  have h1 : v % 2 ^ 256 < 2 ^ 256 := Int.emod_lt_of_pos v (by decide)
  rw [word, ofBe_be (by omega), Int.toNat_of_nonneg h0]

theorem ofBe_word_nat {n : Nat} (h : n < 2 ^ 256) : ofBe (word n) = n := by
  have hw := ofBe_word n
  rw [Int.emod_eq_of_lt (Int.natCast_nonneg n) (by omega)] at hw
  exact Int.ofNat.inj hw

/-- A short binary goes to the end of its word. -/
theorem word_ofBe {b : Bytes} (h : b.length ≤ 32) : word (ofBe b) = List.replicate
    (32 - b.length) 0 ++ b := by
  have hlt := ofBe_lt b
  have hle : 256 ^ b.length ≤ 256 ^ 32 := Nat.pow_le_pow_right (by decide) h
  have hmod : ((ofBe b : Int) % 2 ^ 256).toNat = ofBe b := by
    rw [Int.emod_eq_of_lt (Int.natCast_nonneg _) (by omega), Int.toNat_natCast]
  have hadd := be_add (32 - b.length) hlt
  rw [Nat.sub_add_cancel h, be_ofBe] at hadd
  rw [word, hmod, hadd]

theorem encode_isSome (hd : type.dynamic = false) (h : InRange type value) :
    ∃ w, encode type value = some w ∧ w.length = 32 := by
  cases type with
  | bytes => cases hd
  | string => cases hd
  | _ =>
    cases value with
    | int v => exact ⟨_, rfl, word_length _⟩
    | bin b => first | exact ⟨_, rfl, word_length _⟩ | exact absurd h (fun h => h)

theorem value_bin (hd : type.dynamic = true) (h : InRange type value) : ∃ b, value = .bin b := by
  cases value with
  | bin b => exact ⟨b, rfl⟩
  | int v =>
    cases type with
    | bytes => exact absurd h (fun h => h)
    | string => exact absurd h (fun h => h)
    | _ => cases hd

/-! ## The layout -/

theorem foldl_place : ∀ (ps : List (Ty × Value)) (h b : Bytes) (o : Nat), (∀ p ∈ ps, InRange p.1 p.2) →
    (ps.map part).foldl place (h, b, o) = (h ++ heads o ps, b ++ tails ps, o + (tails ps).length)
  | [], h, b, o, _ => by simp [heads, tails]
  | p :: ps, h, b, o, hr => by
    obtain ⟨type, value⟩ := p
    have hp := hr _ List.mem_cons_self
    rw [List.map_cons, List.foldl_cons]
    by_cases hd : type.dynamic = true
    · rw [show part (type, value) = ([], tail (type, value)) from if_pos hd, place,
        foldl_place ps _ _ _ fun p hp => hr p (List.mem_cons_of_mem _ hp)]
      simp only [heads, tails, hd, if_true, List.append_assoc, List.length_append, Nat.add_assoc]
    · rw [Bool.not_eq_true] at hd
      obtain ⟨w, hw, hlen⟩ := encode_isSome hd hp
      have htail : tail (type, value) = [] := by cases value <;> simp [tail, hd]
      have hne : w ≠ [] := fun e => by rw [e] at hlen; cases hlen
      have hplace : place (h, b, o) (part (type, value)) = (h ++ w, b, o) := by
        cases w with
        | nil => exact absurd rfl hne
        | cons x w => simp [part, hd, hw, place]
      rw [hplace, foldl_place ps _ _ _ fun p hp => hr p (List.mem_cons_of_mem _ hp)]
      simp [heads, tails, hd, hw, htail, List.append_assoc]

/-- A head is one word. -/
theorem heads_length : ∀ (o : Nat) (ps : List (Ty × Value)), (∀ p ∈ ps, InRange p.1 p.2) →
    (heads o ps).length = 32 * ps.length
  | _, [], _ => rfl
  | o, (type, value) :: ps, hr => by
    rw [heads, List.length_append, heads_length _ ps fun p hp => hr p (List.mem_cons_of_mem _ hp),
      List.length_cons]
    by_cases hd : type.dynamic = true
    · rw [if_pos hd, word_length]
      omega
    · obtain ⟨w, hw, hlen⟩ := encode_isSome (Bool.not_eq_true _ ▸ hd) (hr _ List.mem_cons_self)
      rw [if_neg hd, hw, Option.getD_some, hlen]
      omega

theorem mapM_eq_some {α β : Type} {f : α → Option β} : ∀ {l : List α} {r : List β},
    l.mapM f = some r ↔ List.Forall₂ (fun a b => f a = some b) l r
  | [], r => by
    rw [List.mapM_nil, List.forall₂_nil_left_iff]
    exact ⟨fun h => (Option.some.inj h).symm, fun h => h ▸ rfl⟩
  | a :: l, r => by
    rw [List.mapM_cons, List.forall₂_cons_left_iff]
    refine ⟨?_, ?_⟩
    · intro h
      obtain ⟨b, hb, h⟩ := Option.bind_eq_some_iff.1 h
      obtain ⟨r, hr, h⟩ := Option.bind_eq_some_iff.1 h
      cases h
      exact ⟨b, r, hb, mapM_eq_some.1 hr, rfl⟩
    · intro hx
      obtain ⟨b, r, hb, hr, rfl⟩ := hx
      rw [hb, mapM_eq_some.2 hr]
      rfl

theorem mapM_map_some {α β : Type} {f : α → Option β} {g : α → β} {l : List α}
    (h : ∀ x ∈ l, f x = some (g x)) :
    l.mapM f = some (l.map g) :=
  mapM_eq_some.2 (List.forall₂_map_right_iff.2 (List.forall₂_same.2 h))

theorem encode_data_eq {f : Ty → Value → Option (Bytes × Bytes)} {types : List Ty} {values : List Value}
    (hr : ∀ p ∈ types.zip values, InRange p.1 p.2)
      (hf : ∀ p ∈ types.zip values, f p.1 p.2 = some (part p)) :
    encode_data f types values = some (heads (32 * types.length) (types.zip values) ++ tails
      (types.zip values)) := by
  have hm : ((types.zip values).mapM fun (type, entry) => f type entry) = some
    ((types.zip values).map part) := mapM_map_some hf
  unfold encode_data
  rw [hm, Option.bind_eq_bind, Option.bind_some, foldl_place _ _ _ _ hr]
  rfl

/-! ## Tails -/

theorem chunk_every_flatten : ∀ (n : Nat) {b : Bytes}, b.length = n * 32 → (chunk_every n b).flatten = b
  | 0, b, h => (List.length_eq_zero_iff.1 (by omega)).symm
  | n + 1, b, h => by
    rw [chunk_every, List.flatten_cons, chunk_every_flatten n (by rw [List.length_drop]; omega),
      List.take_append_drop]

theorem chunk_every_length : ∀ (n : Nat) (b : Bytes), (chunk_every n b).length = n
  | 0, _ => rfl
  | n + 1, b => congrArg (· + 1) (chunk_every_length n (b.drop 32))

theorem mem_chunk_every : ∀ (n : Nat) {b c : Bytes}, b.length = n * 32 →
    c ∈ chunk_every n b → c.length = 32
  | n + 1, b, c, h, hc => by
    rcases List.mem_cons.1 hc with rfl | hc
    · rw [List.length_take]
      omega
    · exact mem_chunk_every n (by rw [List.length_drop]; omega) hc

/-- Words are written as they are. -/
theorem heads_words (o : Nat) : ∀ {l : List Bytes}, (∀ c ∈ l, c.length = 32) →
    heads o ((List.replicate l.length bytes32).zip (l.map .bin)) = l.flatten ∧
      tails ((List.replicate l.length bytes32).zip (l.map .bin)) = []
  | [], _ => ⟨rfl, rfl⟩
  | c :: l, h => by
    have hc := h c List.mem_cons_self
    obtain ⟨h1, h2⟩ := @heads_words o l fun x hx => h x (List.mem_cons_of_mem _ hx)
    have hw : encode bytes32 (.bin c) = some c := by
      change some (word (ofBe c)) = some c
      rw [word_ofBe (by omega), hc]
      rfl
    have ht : tail (bytes32, .bin c) = [] := rfl
    have hd : bytes32.dynamic = false := rfl
    rw [List.length_cons, List.replicate_succ, List.map_cons, List.zip_cons_cons, heads, tails,
      hw, ht, hd, h2]
    exact ⟨by rw [List.length_nil, Nat.add_zero, h1]; rfl, rfl⟩

theorem fill_length (n : Nat) : n + (fill n).length = (n + 31) / 32 * 32 := by
  rw [fill, List.length_replicate]
  omega

/-- A dynamic value is written as its bytes, filled to whole words. -/
theorem encode_dynamic (b : Bytes) :
    encode_data encode_static (dynamic b).1 (dynamic b).2.1 = some (b ++ fill b.length) := by
  have hlen : (b ++ List.replicate 31 (0 : UInt8)).length = b.length + 31 := by
    rw [List.length_append, List.length_replicate]
  have htake : (b ++ List.replicate 31 0).take ((b.length + 31) / 32 * 32) = b ++ fill b.length := by
    have hf := fill_length b.length
    have hfill : (fill b.length).length = (b.length + 31) / 32 * 32 - b.length := by omega
    rw [List.take_append, List.take_of_length_le (by omega), List.take_replicate, fill]
    congr 2
    rw [fill, List.length_replicate] at hfill
    omega
  unfold dynamic
  dsimp only
  rw [hlen, htake]
  have hwhole : (b ++ fill b.length).length = (b.length + 31) / 32 * 32 := by
    rw [List.length_append]
    exact fill_length _
  have hwords := heads_words (32 * ((b.length + 31) / 32)) fun c => mem_chunk_every
    ((b.length + 31) / 32) hwhole
  rw [chunk_every_length, chunk_every_flatten _ hwhole] at hwords
  have hitem : ∀ p ∈ (List.replicate ((b.length + 31) / 32) bytes32).zip
      ((chunk_every ((b.length + 31) / 32) (b ++ fill b.length)).map Value.bin), ∃ c :
        Bytes, p = (bytes32, Value.bin c) ∧ c.length = 32 := by
    intro p hp
    obtain ⟨h1, h2⟩ := List.of_mem_zip hp
    obtain ⟨c, hc, h2⟩ := List.mem_map.1 h2
    exact ⟨c, Prod.ext (List.eq_of_mem_replicate h1) h2.symm, mem_chunk_every _ hwhole hc⟩
  rw [encode_data_eq, List.length_replicate, hwords.1, hwords.2, List.append_nil]
  · intro p hp
    obtain ⟨c, rfl, hc⟩ := hitem p hp
    exact hc
  · intro p hp
    obtain ⟨c, rfl, hc⟩ := hitem p hp
    rfl

/-- `do_encode_data` gives the head and the tail of an argument. -/
theorem do_encode_data_eq (h : InRange type value) : do_encode_data type value = some
    (part (type, value)) := by
  by_cases hd : type.dynamic = true
  · obtain ⟨b, rfl⟩ := value_bin hd h
    unfold do_encode_data part
    rw [if_pos hd, if_pos hd]
    dsimp only
    rw [encode_dynamic, tail, if_pos hd]
    rfl
  · rw [Bool.not_eq_true] at hd
    obtain ⟨w, hw, -⟩ := encode_isSome hd h
    simp [do_encode_data, part, hd, encode_static, hw]

/-- **What is written**: the heads and behind them the tails. -/
theorem encode_args_eq {types : List Ty} {values : List Value}
    (h : ∀ p ∈ types.zip values, InRange p.1 p.2) :
    encode_args types values = some (heads (32 * types.length) (types.zip values) ++ tails
      (types.zip values)) :=
  encode_data_eq h fun p hp => do_encode_data_eq (h p hp)

/-! ## Reading the heads -/

/-- What the head of a static argument reads as. -/
def read : Ty × Value → Value
  | (.bytesN bit, .bin b) => .bin ((word (ofBe b)).take bit)
  | (_, value) => value

theorem pow_bit_le (bit : Bit) : (2 : Int) ^ (8 * bit.1) ≤ 2 ^ 256 :=
  pow_le_pow_right₀ (by decide) (by have := bit.2.2; omega)

theorem pow_bit_half_le (bit : Bit) : (2 : Int) ^ (8 * bit.1 - 1) ≤ 2 ^ 255 :=
  pow_le_pow_right₀ (by decide) (by have := bit.2.2; omega)

theorem decode_uint (bit : Bit) (b : Bytes) : decode (.uint bit) b = (cut 32 b).bind fun p =>
    some (.int (ofBe p.1), p.2) := rfl

theorem decode_int (bit : Bit) (b : Bytes) :
    decode (.int bit) b = (cut 32 b).bind fun p =>
      some (.int ((ofBe p.1 : Int).bmod (2 ^ 256)), p.2) := rfl

theorem decode_address (b : Bytes) :
    decode .address b = (cut 12 b).bind fun p => (cut 20 p.2).bind fun q => some (.bin q.1, q.2) := rfl

theorem decode_bytesN (bit : Bit) (b : Bytes) :
    decode (.bytesN bit) b = (cut bit b).bind fun p => (cut (32 - bit) p.2).bind fun q =>
      some (.bin p.1, q.2) := rfl

theorem decode_offset (hd : type.dynamic = true) (b : Bytes) :
    decode type b = (cut 32 b).bind fun p => some (.int (ofBe p.1), p.2) := by
  cases type with
  | bytes => rfl
  | string => rfl
  | _ => cases hd

theorem cut_word (v : Int) (rest : Bytes) : cut 32 (word v ++ rest) = some (word v, rest) :=
    cut_append (word_length v) rest

theorem decode_static (hd : type.dynamic = false) (h : InRange type value) (rest : Bytes) :
    decode type ((encode type value).getD [] ++ rest) = some (read (type, value), rest) := by
  cases type with
  | bytes => cases hd
  | string => cases hd
  | uint bit =>
    cases value with
    | bin b => exact absurd h (fun h => h)
    | int v =>
      have hv : v < 2 ^ 256 := h.2.trans_le (pow_bit_le bit)
      rw [show (encode (.uint bit) (.int v)).getD [] = word v from rfl, decode_uint, cut_word,
        Option.bind_some, ofBe_word,
        Int.emod_eq_of_lt h.1 hv]
      rfl
  | int bit =>
    cases value with
    | bin b => exact absurd h (fun h => h)
    | int v =>
      have hb := pow_bit_half_le bit
      have hv : ((v % 2 ^ 256 : Int)).bmod (2 ^ 256) = v := by
        rw [show (2 ^ 256 : Int) = ((2 ^ 256 : Nat) : Int) from rfl, Int.emod_bmod]
        refine Int.bmod_eq_of_le ?_ ?_
        · have := h.1
          omega
        · have := h.2
          omega
      rw [show (encode (.int bit) (.int v)).getD [] = word v from rfl, decode_int, cut_word,
        Option.bind_some, ofBe_word, hv]
      rfl
  | address =>
    cases value with
    | int v => exact absurd h (fun h => h)
    | bin b =>
      have hb : b.length = 20 := h
      have hw : (encode .address (.bin b)).getD [] = List.replicate 12 0 ++ b := by
        change word (ofBe b) = _
        rw [word_ofBe (by omega), hb]
      rw [hw, List.append_assoc, decode_address, cut_append List.length_replicate, Option.bind_some,
        cut_append hb]
      rfl
  | bytesN bit =>
    cases value with
    | int v => exact absurd h (fun h => h)
    | bin b =>
      have hbit := bit.2.2
      have hw : (encode (.bytesN bit) (.bin b)).getD [] = (word (ofBe b)).take bit ++
        (word (ofBe b)).drop bit :=
        (List.take_append_drop _ _).symm
      have hcut := cut_append (n := bit) (a := (word (ofBe b)).take bit)
        (by rw [List.length_take, word_length]; omega)
      have hcut' := cut_append (n := 32 - bit) (a := (word (ofBe b)).drop bit)
        (by rw [List.length_drop, word_length])
      rw [hw, List.append_assoc, decode_bytesN, hcut, Option.bind_some, hcut']
      rfl

/-- The values that the heads give, from the offset of the first tail on. -/
def raws : Nat → List (Ty × Value) → List Value
  | _, [] => []
  | o, p :: ps => (if p.1.dynamic then .int o else read p) :: raws (o + (tail p).length) ps

theorem foldlM_decode {rest : Bytes} : ∀ (ps : List (Ty × Value)) (ret : List Value) (o : Nat),
    (∀ p ∈ ps, InRange p.1 p.2) →
    o + (tails ps).length < 2 ^ 256 →
    (ps.map Prod.fst).foldlM decode_next (ret, heads o ps ++ rest) = some (ret ++ raws o ps, rest)
  | [], ret, o, _, _ => by simp [heads, raws]
  | (type, value) :: ps, ret, o, hr, ho => by
    have hp := hr _ List.mem_cons_self
    rw [tails, List.length_append] at ho
    have hdec : decode type ((if type.dynamic then word o else (encode type value).getD []) ++
        (heads (o + (tail (type, value)).length) ps ++ rest)) =
        some (if type.dynamic then .int o else read (type, value), heads
          (o + (tail (type, value)).length) ps ++ rest) := by
      by_cases hd : type.dynamic = true
      · rw [if_pos hd, if_pos hd, decode_offset hd, cut_word, Option.bind_some, ofBe_word_nat (by omega)]
      · rw [if_neg hd, if_neg hd]
        exact decode_static (Bool.not_eq_true _ ▸ hd) hp _
    have hnext := fun ret : List Value => congrArg (fun d => d.bind fun q : Value × Bytes =>
      some (ret ++ [q.1], q.2)) hdec
    rw [List.map_cons, List.foldlM_cons, heads, List.append_assoc, raws]
    refine (congrArg (fun d => d.bind fun acc => (ps.map Prod.fst).foldlM decode_next acc)
      (hnext ret)).trans ?_
    rw [Option.bind_some, Option.bind_some, foldlM_decode ps _ _
      (fun p hp => hr p (List.mem_cons_of_mem _ hp)) (by omega),
      List.append_assoc]
    rfl

/-! ## Reading a tail -/

/-- What is read where a tail with `len` bytes is filled: the bytes that end with
the word after the last one the length begins. -/
theorem decode_dynamic_eq {pre after b : Bytes} (h : b.length < 2 ^ 256) :
    decode_dynamic (pre ++ (word b.length ++ (b ++ after))) pre.length =
      binary_part (b ++ after) ((b.length / 32 + 1) * 32 - b.length) b.length := by
  have hlen : (pre ++ (word b.length ++ (b ++ after))).length = pre.length +
    (word b.length ++ (b ++ after)).length :=
    List.length_append
  have hbase : binary_part (pre ++ (word b.length ++ (b ++ after))) pre.length
      ((pre ++ (word b.length ++ (b ++ after))).length - pre.length) = some
        (word b.length ++ (b ++ after)) := by
    rw [binary_part, if_pos (by omega), List.drop_left, List.take_of_length_le (by omega)]
  unfold decode_dynamic
  rw [hbase, Option.bind_eq_bind, Option.bind_some, cut_word, Option.bind_eq_bind, Option.bind_some]
  dsimp only
  rw [ofBe_word_nat h]

/-- The shift by which a tail is misread, and what it brings in. -/
theorem binary_part_shift {k : Nat} {b w after : Bytes} (hw : w.length = k) :
    binary_part (b ++ (w ++ after)) k b.length = some ((b ++ w).drop k) := by
  have hlen : (b ++ (w ++ after)).length = b.length + (k + after.length) := by
    rw [List.length_append, List.length_append, hw]
  have hk : k ≤ (b ++ w).length := by
    rw [List.length_append, hw]
    exact Nat.le_add_left _ _
  rw [binary_part, if_pos (by omega), ← List.append_assoc, List.drop_append_of_le_length hk,
    List.take_append_of_le_length,
    List.take_of_length_le]
  · rw [List.length_drop, List.length_append]
    omega
  · rw [List.length_drop, List.length_append]
    omega

/-- The bytes of the first dynamic value. -/
def next : List (Ty × Value) → Option Bytes
  | [] => none
  | (type, .bin b) :: ps => if type.dynamic then some b else next ps
  | (_, .int _) :: ps => next ps

theorem tails_of_next_none : ∀ {ps : List (Ty × Value)}, next ps = none → tails ps = []
  | [], _ => rfl
  | (_, .int _) :: ps, h => @tails_of_next_none ps h
  | (type, .bin b) :: ps, h => by
    rw [next] at h
    split at h
    · cases h
    · rename_i hd
      rw [tails, tail, if_neg hd]
      exact tails_of_next_none h

theorem tails_of_next_some {w : Bytes} : ∀ {ps : List (Ty × Value)}, next ps = some w →
    ∃ after, tails ps = word w.length ++ after
  | (_, .int _) :: ps, h => @tails_of_next_some w ps h
  | (type, .bin b) :: ps, h => by
    rw [next] at h
    split at h
    · rename_i hd
      cases h
      rw [tails, tail, if_pos hd, List.append_assoc]
      exact ⟨_, rfl⟩
    · rename_i hd
      rw [tails, tail, if_neg hd]
      exact tails_of_next_some h

/-- The dynamic values that are read as they were written, by the next one. -/
def Fits (b : Bytes) (next : Option Bytes) : Prop :=
  if b.length % 32 = 0 then ∃ w, next = some w ∧
    b = (List.replicate (b.length / 32) (word w.length)).flatten
  else b = List.replicate b.length 0

theorem read_tail_iff (b : Bytes) (ps : List (Ty × Value)) :
    binary_part (b ++ (fill b.length ++ tails ps)) ((b.length / 32 + 1) * 32 - b.length) b.length =
      some b ↔ Fits b (next ps) := by
  unfold Fits
  by_cases h : b.length % 32 = 0
  · -- the tail has no room to spare, and the next word is read into the value
    have hfill : fill b.length = [] := by
      rw [fill, h]
      rfl
    have hk : (b.length / 32 + 1) * 32 - b.length = 32 := by omega
    rw [if_pos h, hfill, hk, List.nil_append]
    cases hn : next ps with
    | none =>
      refine iff_of_false (fun hp => ?_) fun ⟨w, hw, _⟩ => by cases hw
      rw [tails_of_next_none hn, List.append_nil, binary_part, if_neg (by omega)] at hp
      cases hp
    | some w =>
      obtain ⟨after, hafter⟩ := tails_of_next_some hn
      rw [hafter, binary_part_shift (word_length _), Option.some_inj]
      have hne : word w.length ≠ [] := fun e => by
        have := word_length w.length
        rw [e] at this
        cases this
      have hrep := @Shift.drop_repeats _ b (word w.length) (b.length / 32) hne
        (by rw [word_length]; omega)
      rw [word_length] at hrep
      rw [hrep]
      exact ⟨fun hb => ⟨w, rfl, hb⟩, fun ⟨w', hw', hb⟩ => by rw [Option.some.inj hw']; exact hb⟩
  · have hk : (b.length / 32 + 1) * 32 - b.length = 32 - b.length % 32 := by omega
    have hfill : fill b.length = List.replicate (32 - b.length % 32) 0 := by
      rw [fill, Nat.mod_eq_of_lt (by omega)]
    rw [if_neg h, hk, hfill, binary_part_shift List.length_replicate, Option.some_inj,
      Shift.drop_replicate (by omega)]

/-! ## Round trips -/

/-- The arguments that are read as they were written: a `bytesN` of 32 bytes or
of zeros, a dynamic value by what comes after it, and every number and address. -/
def Covers : List (Ty × Value) → Prop
  | [] => True
  | (.bytesN bit, .bin b) :: ps => (bit.1 = 32 ∨ b = List.replicate bit.1 0) ∧ Covers ps
  | (.bytes, .bin b) :: ps => Fits b (next ps) ∧ Covers ps
  | (.string, .bin b) :: ps => Fits b (next ps) ∧ Covers ps
  | _ :: ps => Covers ps

theorem read_bytesN_iff {bit : Bit} {b : Bytes} (h : b.length = bit.1) :
    read (.bytesN bit, .bin b) = .bin b ↔ bit.1 = 32 ∨ b = List.replicate bit.1 0 := by
  have hbit := bit.2.2
  rw [read, word_ofBe (by omega), h, Value.bin.injEq]
  by_cases h32 : bit.1 = 32
  · refine iff_of_true ?_ (.inl h32)
    rw [h32, Nat.sub_self, List.replicate_zero, List.nil_append, List.take_of_length_le (by omega)]
  · rw [Shift.take_replicate (by omega) h, or_iff_right h32]

theorem resolve_dynamic_iff (hd : type.dynamic = true) {pre b : Bytes} (h : b.length < 2 ^ 256) :
    resolve (pre ++ (tail (type, .bin b) ++ tails ps)) (type, .int pre.length) = some (.bin b) ↔
      Fits b (next ps) := by
  have hmap : resolve (pre ++ (tail (type, .bin b) ++ tails ps)) (type, .int pre.length) =
      (decode_dynamic (pre ++ (word b.length ++ (b ++ (fill b.length ++ tails ps)))) pre.length).map .bin := by
    rw [tail, if_pos hd, List.append_assoc, List.append_assoc]
    cases type with
    | bytes => rfl
    | string => rfl
    | _ => cases hd
  rw [hmap, decode_dynamic_eq h, Option.map_eq_some_iff, ← read_tail_iff]
  exact ⟨fun ⟨b', hb, he⟩ => Value.bin.inj he ▸ hb, fun hb => ⟨b, hb, rfl⟩⟩

/-- What the values come to, where the tails of `ps` are at the end of the data. -/
theorem resolve_iff : ∀ (ps : List (Ty × Value)) (pre : Bytes), (∀ p ∈ ps, InRange p.1 p.2) →
    (tails ps).length < 2 ^ 256 →
    (((ps.map Prod.fst).zip (raws pre.length ps)).mapM (resolve (pre ++ tails ps)) = some
      (ps.map Prod.snd) ↔ Covers ps)
  | [], pre, _, _ => iff_of_true rfl trivial
  | (type, value) :: ps, pre, hr, hlen => by
    have hp : InRange type value := hr _ List.mem_cons_self
    rw [tails, List.length_append] at hlen
    have ih := resolve_iff ps (pre ++ tail (type, value))
      (fun p hp => hr p (List.mem_cons_of_mem _ hp)) (by omega)
    rw [mapM_eq_some, List.length_append, List.append_assoc] at ih
    rw [mapM_eq_some, tails, List.map_cons, List.map_cons, raws, List.zip_cons_cons,
      List.forall₂_cons, ih]
    dsimp only
    by_cases hd : type.dynamic = true
    · obtain ⟨b, rfl⟩ := value_bin hd hp
      have hb : b.length < 2 ^ 256 := by
        rw [tail, if_pos hd, List.length_append, List.length_append] at hlen
        omega
      rw [if_pos hd, resolve_dynamic_iff hd hb]
      cases type with
      | bytes => rfl
      | string => rfl
      | _ => cases hd
    · rw [if_neg hd]
      cases type with
      | bytes => exact absurd rfl hd
      | string => exact absurd rfl hd
      | bytesN bit =>
        cases value with
        | int v => exact absurd hp (fun h => h)
        | bin b =>
          rw [show resolve _ (Ty.bytesN bit, read (.bytesN bit, .bin b)) = some
            (read (.bytesN bit, .bin b)) from rfl,
            Option.some_inj, read_bytesN_iff hp]
          rfl
      | _ => exact and_iff_right rfl

/-- **Round trips of arguments.** Every list of values of its types is written,
and reading gives the values back exactly when each of them is one of those that
are read as they were written. No binary has 2^256 bytes. -/
theorem round_trip_iff (types : List Ty) (values : List Value) (h : List.Forall₂ InRange types values) :
    ∃ data, encode_args types values = some data ∧
      (data.length < 2 ^ 256 → (decode_types types data = some values ↔ Covers (types.zip values))) := by
  have hr : ∀ p ∈ types.zip values, InRange p.1 p.2 := fun p hp => (List.forall₂_iff_zip.1 h).2 hp
  have hfst : (types.zip values).map Prod.fst = types := List.map_fst_zip h.length_eq.le
  have hsnd : (types.zip values).map Prod.snd = values := List.map_snd_zip h.length_eq.ge
  have hlength : (types.zip values).length = types.length := by
    rw [List.length_zip, h.length_eq, Nat.min_self]
  refine ⟨_, encode_args_eq hr, fun hlen => ?_⟩
  have hheads := heads_length (32 * types.length) (types.zip values) hr
  rw [hlength] at hheads
  rw [List.length_append, hheads] at hlen
  have hfold := @foldlM_decode (tails (types.zip values)) (types.zip values) []
    (32 * types.length) hr hlen
  have hresolve := resolve_iff (types.zip values) (heads (32 * types.length) (types.zip values)) hr (by omega)
  rw [hfst] at hfold
  rw [hfst, hsnd, hheads] at hresolve
  unfold decode_types
  rw [hfold, Option.bind_eq_bind, Option.bind_some]
  exact hresolve

/-- A number, a name that is the length of the next as a word, and a name of one zero. -/
theorem round_trip_mixed :
    let types : List Ty := [.uint ⟨1, by decide⟩, .bytes, .string]
    let values : List Value := [.int 5, .bin (be 32 1), .bin [0]]
    Covers (types.zip values) ∧
      ∃ data, encode_args types values = some data ∧ decode_types types data = some values := by
  intro types values
  obtain ⟨data, hdata, hiff⟩ := round_trip_iff types values
    (.cons ⟨by decide, by decide⟩ (.cons trivial (.cons trivial .nil)))
  have hlen : (encode_args types values).map List.length = some 224 := by decide +kernel
  rw [hdata, Option.map_some, Option.some.injEq] at hlen
  have hword : word 1 = be 32 1 := by decide +kernel
  have hcovers : Covers (types.zip values) := by
    refine ⟨?_, ?_, trivial⟩
    · rw [Fits, if_pos (by rw [be_length])]
      refine ⟨[0], rfl, ?_⟩
      rw [be_length]
      show be 32 1 = [word 1].flatten
      rw [hword, List.flatten_singleton]
    · rfl
  exact ⟨hcovers, data, hdata, (hiff (by omega)).2 hcovers⟩

/-- **Values read wrongly.** A word of bytes at the end raises, one byte comes
back as a zero, and so does a `bytes1`. -/
theorem misread :
    ((encode_args [.bytes] [.bin (be 32 1)]).isSome ∧ (encode_args [.bytes] [.bin (be 32 1)]).bind
      (decode_types [.bytes]) = none) ∧
      (encode_args [.string] [.bin [97]]).bind (decode_types [.string]) = some [.bin [0]] ∧
      (encode_args [.bytesN ⟨1, by decide⟩] [.bin [97]]).bind
        (decode_types [.bytesN ⟨1, by decide⟩]) = some [.bin [0]] := by
  decide +kernel

end Diode.L1.Abi
