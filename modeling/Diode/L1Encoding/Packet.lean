import Diode.Core.Bytes

/-!
# Length-prefixed packets

A port with `{:packet, 4}` puts a big-endian length before every binary, and
takes that many bytes off the stream for each it receives. The fields of a
binary are little-endian integers and binaries of a known size; a reader gives
the value of a field and the bytes behind it.

**Results.**
* `unpack_packet`: a packet is taken off the stream whole, whatever follows it,
  when its length fits the header; `unpack_exact`: otherwise bytes of it stay.
* `u64_le`, `u32_le`, `address_bytes`, `word_bytes`: a reader gives back what was
  written.
-/
namespace Diode.L1.Packet
open Diode.Core

/-- Little-endian, `n` bytes. -/
def le (n v : Nat) : Bytes := (be n v).reverse

def ofLe (b : Bytes) : Nat := ofBe b.reverse

@[simp] theorem le_length (n v : Nat) : (le n v).length = n := by
  rw [le, List.length_reverse, be_length]

theorem ofLe_le (n v : Nat) : ofLe (le n v) = v % 256 ^ n := by
  rw [ofLe, le, List.reverse_reverse, ← be_mod, ofBe_be (Nat.mod_lt _ (Nat.pow_pos (by decide)))]

theorem cut_cons (x : UInt8) (rest : Bytes) : cut 1 (x :: rest) = some ([x], rest) :=
    @cut_append 1 [x] rfl rest

/-! ## The stream -/

/-- A binary behind a header that says it has `num` bytes. -/
def packetOf (num : Nat) (b : Bytes) : Bytes := be 4 num ++ b

def packet (b : Bytes) : Bytes := packetOf b.length b

def unpack (b : Bytes) : Option (Bytes × Bytes) := do
  let (size, rest) ← cut 4 b
  cut (ofBe size) rest

theorem unpack_packetOf (num : Nat) (b rest : Bytes) : unpack (packetOf num b ++ rest) = cut
    (num % 2 ^ 32) (b ++ rest) := by
  have h : ofBe (be 4 num) = num % 2 ^ 32 := by
    rw [← be_mod, ofBe_be (Nat.mod_lt _ (Nat.pow_pos (by decide)))]
    rfl
  rw [unpack, packetOf, List.append_assoc, cut_append (be_length ..), Option.bind_eq_bind,
    Option.bind_some]
  dsimp only
  rw [h]

theorem unpack_packet {b : Bytes} (h : b.length < 2 ^ 32) (rest : Bytes) :
    unpack (packet b ++ rest) = some (b, rest) := by
  rw [packet, unpack_packetOf, Nat.mod_eq_of_lt h, cut_append rfl]

/-- A packet longer than its header can say leaves bytes on the stream. -/
theorem unpack_exact {b p : Bytes} (h : unpack (packet b) = some (p, [])) : p = b ∧
    b.length < 2 ^ 32 := by
  rw [← List.append_nil (packet b), packet, unpack_packetOf, List.append_nil] at h
  have hlen := cut_length h
  have hlt : b.length % 2 ^ 32 < 2 ^ 32 := Nat.mod_lt _ (by decide)
  unfold cut at h
  split at h
  · obtain ⟨rfl, hd⟩ := Prod.mk.inj (Option.some.inj h)
    rw [List.length_take, List.length_nil] at hlen
    have hfit : b.length < 2 ^ 32 := by omega
    exact ⟨List.take_of_length_le (by omega), hfit⟩
  · nomatch h

/-! ## Fields -/

/-- `<<x::little-size(64), rest::binary>>` -/
def u64 (b : Bytes) : Option (BitVec 64 × Bytes) := do
  let (x, rest) ← cut 8 b
  some (BitVec.ofNat 64 (ofLe x), rest)

/-- `<<x::little-size(32), rest::binary>>` -/
def u32 (b : Bytes) : Option (BitVec 32 × Bytes) := do
  let (x, rest) ← cut 4 b
  some (BitVec.ofNat 32 (ofLe x), rest)

/-- `<<x::binary-size(20), rest::binary>>` -/
def address (b : Bytes) : Option (Addr × Bytes) := do
  let (x, rest) ← cut 20 b
  some (BitVec.ofNat 160 (ofBe x), rest)

/-- `<<x::binary-size(32), rest::binary>>` -/
def word (b : Bytes) : Option (Word × Bytes) := do
  let (x, rest) ← cut 32 b
  some (BitVec.ofNat 256 (ofBe x), rest)

@[simp] theorem u64_le (n : Nat) (rest : Bytes) : u64 (le 8 n ++ rest) = some
    (BitVec.ofNat 64 n, rest) := by
  rw [u64, cut_append (le_length ..), Option.bind_eq_bind, Option.bind_some]
  dsimp only
  rw [ofLe_le, show (256 : Nat) ^ 8 =
    2 ^ 64 from by decide, ← BitVec.toNat_ofNat, BitVec.ofNat_toNat, BitVec.setWidth_eq]

@[simp] theorem u32_le (n : Nat) (rest : Bytes) : u32 (le 4 n ++ rest) = some
    (BitVec.ofNat 32 n, rest) := by
  rw [u32, cut_append (le_length ..), Option.bind_eq_bind, Option.bind_some]
  dsimp only
  rw [ofLe_le, show (256 : Nat) ^ 4 =
    2 ^ 32 from by decide, ← BitVec.toNat_ofNat, BitVec.ofNat_toNat, BitVec.setWidth_eq]

@[simp] theorem address_bytes (a : Addr) (rest : Bytes) : address (Addr.bytes a ++ rest) =
    some (a, rest) := by
  rw [address, cut_append (Addr.bytes_length a), Option.bind_eq_bind, Option.bind_some]
  dsimp only
  rw [Addr.ofBe_bytes]

@[simp] theorem word_bytes (w : Word) (rest : Bytes) :
    word (Word.bytes w ++ rest) = some (w, rest) := by
  rw [word, cut_append (Word.bytes_length w), Option.bind_eq_bind, Option.bind_some]
  dsimp only
  rw [Word.ofBe_bytes]

/-- The field ends the binary. -/
def last {α : Type} : Option (α × Bytes) → Option α
  | some (x, []) => some x
  | _ => none

/-! ## Reading a stream -/

/-- `n` bytes off the stream; `none` waits for more. -/
def skip (n : Nat) (b : Bytes) : Option Bytes := (cut n b).map Prod.snd

theorem skip_append {n : Nat} {a : Bytes} (h : a.length = n) (rest : Bytes) :
    skip n (a ++ rest) = some rest := by
  rw [skip, cut_append h, Option.map_some]

theorem skip_all {a : Bytes} {n : Nat} (h : a.length = n) : skip n a = some [] := by
  have := skip_append h []
  rwa [List.append_nil] at this

/-- The header of a packet is read and not looked at. -/
theorem skip_packet (b rest : Bytes) : skip 4 (packet b ++ rest) = some (b ++ rest) := by
  rw [packet, packetOf, List.append_assoc]
  exact skip_append (be_length ..) _

end Diode.L1.Packet
