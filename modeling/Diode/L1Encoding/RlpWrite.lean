import Diode.L1Encoding.Rlp
import Diode.L1Encoding.RlpRead

/-!
# Writing RLP

`Rlp.encode!` on nested lists of binaries, and the numbers it takes beside
them. Reading gives back what was written, whatever follows it
(`do_decode_encode`), so no two terms are written alike.

* `rlp_round_trip`: for every term with fewer than 2^64 bytes to write.
-/
namespace Diode.L1.Rlp
open Diode.Core

/-- `:binary.encode_unsigned` -/
def encode_unsigned (n : Nat) : Bytes := if n = 0 then [0] else unsigned n

/-- A head byte past 255, from 2^64 bytes on, raises; here it is cut.
mirrors lib/rlp.ex:22-32 -/
def with_length (offset : Nat) (data : Bytes) : Bytes :=
  if data.length ≤ 55 then UInt8.ofNat (offset + data.length) :: data
  else UInt8.ofNat ((encode_unsigned data.length).length + offset + 55) ::
    (encode_unsigned data.length ++ data)

/-- mirrors lib/rlp.ex:8-12 -/
def encode_bin : Bytes → Bytes
  | [x] => if x < 0x80 then [x] else with_length 0x80 [x]
  | data => with_length 0x80 data

mutual

/-- mirrors lib/rlp.ex:8-16 -/
def encode : Item → Bytes
  | .bin data => encode_bin data
  | .list items => with_length 0xC0 (encode_list items)

def encode_list : List Item → Bytes
  | [] => []
  | x :: items => encode x ++ encode_list items

end

/-- A number, as `do_encode!` turns it into a binary.
mirrors lib/rlp.ex:64-72 -/
def Item.num (n : Nat) : Item := .bin (if n = 0 then [] else encode_unsigned n)

/-- `nil` is the empty binary.
mirrors lib/rlp.ex:40-42 -/
def Item.opt (b : Option Bytes) : Item := .bin (b.getD [])

/-- What an item is written of. -/
def Item.payload : Item → Bytes
  | .bin data => data
  | .list items => encode_list items

theorem num_eq (n : Nat) : Item.num n = .bin (unsigned n) := by
  unfold Item.num encode_unsigned
  by_cases h : n = 0
  · rw [if_pos h, h]
    rfl
  · rw [if_neg h, if_neg h]

/-! ## Heads -/

theorem byteSize_pos {n : Nat} (h : 0 < n) : 0 < byteSize n := by
  unfold byteSize
  rw [if_neg (by omega)]
  omega

theorem byteSize_div {n : Nat} (h : 0 < n) : byteSize n = byteSize (n / 256) + 1 := by
  have hpos := byteSize_pos h
  obtain ⟨k, hk⟩ : ∃ k, byteSize n = k + 1 := ⟨byteSize n - 1, by omega⟩
  have hdown : byteSize (n / 256) ≤ k := by
    have hlt := lt_byteSize n
    rw [hk, Nat.pow_succ] at hlt
    refine byteSize_le ?_
    rw [Nat.pow_mul, Nat.div_lt_iff_lt_mul (by decide)]
    exact hlt
  have hup : byteSize n ≤ byteSize (n / 256) + 1 := by
    have hlt := lt_byteSize (n / 256)
    rw [Nat.div_lt_iff_lt_mul (by decide), ← Nat.pow_succ] at hlt
    refine byteSize_le ?_
    rw [Nat.pow_mul]
    exact hlt
  omega

/-- The last byte of a number. -/
theorem unsigned_snoc {n : Nat} (h : 0 < n) : unsigned n = unsigned (n / 256) ++
    [UInt8.ofNat (n % 256)] := by
  rw [unsigned, unsigned, byteSize_div h, be]

theorem with_length_short {offset : Nat} {data : Bytes} (h : data.length ≤ 55) :
    with_length offset data = UInt8.ofNat (offset + data.length) :: data := if_pos h

theorem with_length_long {offset : Nat} {data : Bytes} (h : 55 < data.length) :
    with_length offset data =
      UInt8.ofNat (offset + 55 + byteSize data.length) :: (unsigned data.length ++ data) := by
  have hne : data.length ≠ 0 := by omega
  unfold with_length encode_unsigned
  rw [if_neg (by omega), if_neg hne]
  congr 2
  rw [unsigned, be_length]
  omega

/-- The form of the native encoder. -/
theorem with_length_eq (offset : Nat) (data : Bytes) :
    with_length offset data = lengthPrefix offset data := by
  unfold lengthPrefix
  by_cases h : data.length ≤ 55
  · rw [if_pos h, with_length_short h]
  · rw [if_neg h, with_length_long (by omega)]
    rfl

theorem encode_bin_eq : ∀ data : Bytes, encode_bin data = encodeBytes data
  | [] => with_length_eq 0x80 []
  | [x] => by
    unfold encode_bin encodeBytes
    dsimp only
    rw [with_length_eq]
  | x :: y :: data => with_length_eq 0x80 (x :: y :: data)

theorem length_lt_with_length (offset : Nat) (data : Bytes) :
    data.length < (with_length offset data).length := by
  by_cases h : data.length ≤ 55
  · rw [with_length_short h, List.length_cons]
    omega
  · rw [with_length_long (by omega), List.length_cons, List.length_append]
    omega

theorem encode_bin_cases (data : Bytes) :
    (∃ x : UInt8, x < 0x80 ∧ data = [x] ∧ encode_bin data = [x]) ∨
      encode_bin data = with_length 0x80 data := by
  unfold encode_bin
  split
  · rename_i x
    by_cases hx : x < 0x80
    · exact .inl ⟨x, hx, rfl, if_pos hx⟩
    · exact .inr (if_neg hx)
  · exact .inr rfl

theorem payload_le : ∀ t : Item, t.payload.length ≤ (encode t).length
  | .bin data => by
    rcases encode_bin_cases data with ⟨x, -, rfl, h⟩ | h
    · exact Nat.le_of_eq (congrArg List.length h).symm
    · unfold encode
      rw [h]
      exact (length_lt_with_length 0x80 data).le
  | .list items => by
    unfold encode
    exact (length_lt_with_length 0xC0 (encode_list items)).le

theorem encode_pos : ∀ t : Item, 0 < (encode t).length
  | .bin data => by
    unfold encode
    rcases encode_bin_cases data with ⟨x, -, -, h⟩ | h
    · rw [h]
      exact Nat.one_pos
    · rw [h]
      exact Nat.zero_lt_of_lt (length_lt_with_length 0x80 data)
  | .list items => by
    unfold encode
    exact Nat.zero_lt_of_lt (length_lt_with_length 0xC0 (encode_list items))

/-! ## Reading what was written -/

/-- A short payload is cut off by its head alone. -/
theorem cut_short {data : Bytes} (offset : Nat) (rest : Bytes) (h : data.length ≤ 55)
    (ho : offset + 55 < 256) :
    with_length offset data ++ rest = UInt8.ofNat (offset + data.length) :: (data ++ rest) ∧
      (UInt8.ofNat (offset + data.length)).toNat = offset + data.length := by
  rw [with_length_short h, List.cons_append, UInt8.toNat_ofNat']
  exact ⟨rfl, by omega⟩

/-- A long one by the length that follows the head. -/
theorem cut_long {data : Bytes} (offset : Nat) (rest : Bytes) (h : 55 < data.length)
    (hlt : data.length < 2 ^ 64)
    (ho : offset + 63 < 256) :
    ∃ head size, with_length offset data ++ rest = head :: (size ++ (data ++ rest)) ∧
      head.toNat = offset + 55 + size.length ∧
      0 < size.length ∧ size.length ≤ 8 ∧ ofBe size = data.length := by
  have hpos : 0 < byteSize data.length := byteSize_pos (by omega)
  have hle : byteSize data.length ≤ 8 := byteSize_le hlt
  have hlen : (unsigned data.length).length = byteSize data.length := be_length ..
  refine ⟨UInt8.ofNat (offset + 55 + byteSize data.length), unsigned data.length, ?_, ?_, ?_, ?_,
    ofBe_unsigned _⟩
  · rw [with_length_long h, List.cons_append, List.append_assoc]
  · rw [UInt8.toNat_ofNat', hlen]
    omega
  · rw [hlen]
    exact hpos
  · rw [hlen]
    exact hle

theorem decode_bin {data : Bytes} (depth : Nat) (rest : Bytes) (h : data.length < 2 ^ 64) :
    do_decode (depth + 1) (encode_bin data ++ rest) = some (.bin data, rest) := by
  have hprefix : do_decode (depth + 1) (with_length 0x80 data ++ rest) = some (.bin data, rest) := by
    by_cases hs : data.length ≤ 55
    · obtain ⟨he, hn⟩ := cut_short 0x80 rest hs (by decide)
      rw [he, do_decode]
      dsimp only
      rw [hn, if_neg (by omega), if_pos (by omega), Nat.add_sub_cancel_left, cut_append rfl]
      rfl
    · obtain ⟨head, size, he, hn, hp, hl, hv⟩ := cut_long 0x80 rest (by omega) h (by decide)
      rw [he, do_decode]
      dsimp only
      rw [hn, if_neg (by omega), if_neg (by omega), if_pos (by omega), Nat.add_sub_cancel_left,
        cut_append rfl,
        Option.bind_eq_bind, Option.bind_some]
      dsimp only
      rw [hv, cut_append rfl]
      rfl
  rcases encode_bin_cases data with ⟨x, hx, rfl, he⟩ | he
  · have hx' : x.toNat ≤ 0x7F := by
      have : x.toNat < 128 := hx
      omega
    rw [he, List.singleton_append, do_decode]
    dsimp only
    rw [if_pos hx']
  · rw [he]
    exact hprefix

/-- A list is read as far as its items are. -/
theorem decode_items {items : List Item} {depth : Nat} (rest : Bytes)
    (h : (encode_list items).length < 2 ^ 64)
    (hitems : do_decode_list (do_decode depth) (encode_list items).length
      (encode_list items) = some items) :
    do_decode (depth + 1) (with_length 0xC0 (encode_list items) ++ rest) = some
      (.list items, rest) := by
  by_cases hs : (encode_list items).length ≤ 55
  · obtain ⟨he, hn⟩ := cut_short 0xC0 rest hs (by decide)
    rw [he, do_decode]
    dsimp only
    rw [hn, if_neg (by omega), if_neg (by omega), if_neg (by omega), if_pos (by omega),
      Nat.add_sub_cancel_left,
      cut_append rfl, Option.bind_eq_bind, Option.bind_some]
    dsimp only
    rw [hitems]
    rfl
  · obtain ⟨head, size, he, hn, hp, hl, hv⟩ := cut_long 0xC0 rest (by omega) h (by decide)
    rw [he, do_decode]
    dsimp only
    rw [hn, if_neg (by omega), if_neg (by omega), if_neg (by omega), if_neg (by omega),
      Nat.add_sub_cancel_left,
      cut_append rfl, Option.bind_eq_bind, Option.bind_some]
    dsimp only
    rw [hv, cut_append rfl, Option.bind_some]
    dsimp only
    rw [hitems]
    rfl

mutual

/-- **What was written is read, and no more.** -/
theorem do_decode_encode : ∀ (t : Item) (depth : Nat) (rest : Bytes), t.payload.length < 2 ^ 64 →
    (encode t).length ≤ depth →
    do_decode depth (encode t ++ rest) = some (t, rest)
  | t, 0, _, _, hd => absurd (encode_pos t) (Nat.not_lt.2 hd)
  | .bin data, depth + 1, rest, h, _ => decode_bin depth rest h
  | .list items, depth + 1, rest, h, hd => by
    have hlt := length_lt_with_length 0xC0 (encode_list items)
    have hle : (with_length 0xC0 (encode_list items)).length ≤ depth + 1 := hd
    exact decode_items rest h (do_decode_list_encode items depth _ h (by omega) (le_refl _))

theorem do_decode_list_encode : ∀ (items : List Item) (depth n : Nat),
    (encode_list items).length < 2 ^ 64 →
    (encode_list items).length ≤ depth → (encode_list items).length ≤ n →
    do_decode_list (do_decode depth) n (encode_list items) = some items
  | [], _, n, _, _, _ => by cases n <;> rfl
  | x :: items, _, 0, _, _, hn => by
    have hlen : (encode_list (x :: items)).length = (encode x).length +
      (encode_list items).length := List.length_append
    have hpos := encode_pos x
    omega
  | x :: items, depth, n + 1, h, hd, hn => by
    have hlen : (encode_list (x :: items)).length = (encode x).length +
      (encode_list items).length := List.length_append
    have hx := do_decode_encode x depth (encode_list items) (by have := payload_le x; omega) (by omega)
    have hlt := do_decode_lt hx
    rw [List.length_append] at hlt
    have hrest := do_decode_list_encode items depth n (by omega) (by omega) (by omega)
    obtain ⟨y, b, hb⟩ : ∃ y b, encode_list (x :: items) = y :: b :=
      List.exists_cons_of_length_pos (by omega)
    have hstep : do_decode_list (do_decode depth) (n + 1)
      (y :: b) = (do_decode depth (y :: b)).bind fun r =>
        (do_decode_list (do_decode depth) n r.2).bind fun list => some (r.1 :: list) := rfl
    rw [hb, hstep, ← hb, encode_list, hx, Option.bind_some, hrest]
    rfl

end

/-- **RLP.** A term comes back from its encoding, an item ends where its
encoding does, and different terms have different encodings. -/
theorem rlp_round_trip (t : Item) (h : t.payload.length < 2 ^ 64) :
    decode (encode t) = some t ∧
      (∀ rest, do_decode (encode t ++ rest).length (encode t ++ rest) = some (t, rest)) ∧
      ∀ u : Item, u.payload.length < 2 ^ 64 → encode t = encode u → t = u := by
  have hread : ∀ (t : Item) (rest : Bytes), t.payload.length < 2 ^ 64 →
      do_decode (encode t ++ rest).length (encode t ++ rest) = some (t, rest) := fun t rest h =>
    do_decode_encode t _ rest h (by rw [List.length_append]; omega)
  have hdecode : ∀ t : Item, t.payload.length < 2 ^ 64 → decode (encode t) = some t := by
    intro t h
    have := hread t [] h
    rw [List.append_nil] at this
    rw [decode, this]
  refine ⟨hdecode t h, fun rest => hread t rest h, fun u hu he => ?_⟩
  have := hdecode t h
  rw [he, hdecode u hu] at this
  exact (Option.some.inj this).symm

/-- A list in a list, with a long string. -/
def nested : Item := .list [.bin [1], .list [.bin (List.replicate 60 7), .bin []], .bin [0x80]]

theorem rlp_round_trip_nested :
    decode (encode nested) = some nested ∧
      (∀ rest, do_decode (encode nested ++ rest).length (encode nested ++ rest) = some (nested, rest)) ∧
      ∀ u : Item, u.payload.length < 2 ^ 64 → encode nested = encode u → nested = u :=
  rlp_round_trip nested (by decide)

end Diode.L1.Rlp
