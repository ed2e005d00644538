import Diode.Core.Bytes

/-!
# What a trie node hashes

The external-term-format byte strings of c_src/merkletree.cpp: a leaf bucket
(`Leaf::to_erl_ext`), a pair of child hashes and the list of the sixteen root
hashes (`to_erl_ext`). Every length is written as one byte.

* `nodeExt_inj`, `listExt_inj`, `leafExt_inj`: each form is injective (for
  keys of fewer than 256 bytes).
* `leafExt_ne_nodeExt`: no leaf string is a node string.
-/
namespace Diode.L1.Ext
open Diode.Core

/-- A bucket entry. The source also caches `key_hash = hash(key)`; here it is
recomputed from the key.
mirrors c_src/merkletree.hpp:127-139 -/
abbrev Pair := Bytes × Word

/-- `to_erl` of a byte range: a BINARY_EXT whose length is truncated to a byte.
mirrors c_src/merkletree.cpp:91-98 -/
def toErl (b : Bytes) : Bytes := [109, 0, 0, 0, UInt8.ofNat b.length] ++ b

/-- mirrors c_src/merkletree.cpp:83-85 -/
def toErlWord (w : Word) : Bytes := toErl (Word.bytes w)

/-- One byte from up to eight bits, most significant first.
mirrors c_src/merkletree.hpp:56-67 -/
def packByte (l : List Bool) : UInt8 :=
  UInt8.ofNat (l.zipIdx.foldl (fun acc p => if p.1 then acc + 2 ^ (7 - p.2) else acc) 0)

/-- The bytes `begin()..end()` of a `bits_t`. -/
def packBits : List Bool → Bytes
  | [] => []
  | a :: b :: c :: d :: e :: f :: g :: h :: l => packByte [a, b, c, d, e, f, g, h] :: packBits l
  | l => [packByte l]

/-- The bitstring (or, at whole bytes, the binary) of a node prefix.
mirrors c_src/merkletree.cpp:55-68 -/
def prefixErl (bits : List Bool) : Bytes :=
  if bits.length % 8 > 0 then
    [77, 0, 0, 0, UInt8.ofNat (bits.length / 8 + 1), UInt8.ofNat (bits.length % 8)] ++ packBits bits
  else toErl (packBits bits)

/-- mirrors c_src/merkletree.cpp:73-78 -/
def pairErl (p : Pair) : Bytes := [104, 2] ++ toErl p.1 ++ toErlWord p.2

/-- `Leaf::to_erl_ext`.
mirrors c_src/merkletree.cpp:47-81 -/
def leafExt (bits : List Bool) (num : Nat) (bucket : List Pair) : Bytes :=
  [131, 108, 0, 0, 0, UInt8.ofNat (bucket.length + 2)] ++ prefixErl bits ++ [97, UInt8.ofNat num] ++
    bucket.flatMap pairErl ++ [106]

/-- `to_erl_ext(binary, left, right)`.
mirrors c_src/merkletree.cpp:100-111 -/
def nodeExt (left right : Word) : Bytes :=
  [131, 108, 0, 0, 0, 2] ++ toErlWord left ++ toErlWord right ++ [106]

/-- `to_erl_ext(binary, values, n)`.
mirrors c_src/merkletree.cpp:113-125 -/
def listExt (values : List Word) : Bytes :=
  [131, 108, 0, 0, 0, UInt8.ofNat values.length] ++ values.flatMap toErlWord ++ [106]

theorem toErlWord_length (w : Word) : (toErlWord w).length = 37 := by simp [toErlWord, toErl]

theorem toErlWord_inj {u v : Word} (h : toErlWord u = toErlWord v) : u = v := by
  unfold toErlWord toErl at h
  exact Word.bytes_inj (List.append_inj' h (by simp)).2

theorem toErl_append_inj {a b s t : Bytes} (ha : a.length < 256) (hb : b.length < 256)
    (h : toErl a ++ s = toErl b ++ t) : a = b ∧ s = t := by
  simp only [toErl, List.cons_append, List.nil_append, List.cons.injEq, true_and] at h
  have hl : a.length = b.length := by
    have := congrArg UInt8.toNat h.1
    simp only [UInt8.toNat_ofNat'] at this
    omega
  exact List.append_inj h.2 hl

theorem toErlWord_append_inj {u v : Word} {s t : Bytes} (h : toErlWord u ++ s = toErlWord v ++ t) :
    u = v ∧ s = t := by
  obtain ⟨h1, h2⟩ := List.append_inj h (by simp [toErlWord_length])
  exact ⟨toErlWord_inj h1, h2⟩

theorem nodeExt_inj {a b c d : Word} (h : nodeExt a b = nodeExt c d) : a = c ∧ b = d := by
  unfold nodeExt at h
  simp only [List.append_assoc, List.append_cancel_left_eq] at h
  obtain ⟨h1, h2⟩ := toErlWord_append_inj h
  exact ⟨h1, (toErlWord_append_inj h2).1⟩

theorem flatMap_word_inj : ∀ {l m : List Word} {s t : Bytes}, l.length = m.length →
    l.flatMap toErlWord ++ s = m.flatMap toErlWord ++ t → l = m
  | [], [], _, _, _, _ => rfl
  | [], _ :: _, _, _, h, _ => by simp at h
  | _ :: _, [], _, _, h, _ => by simp at h
  | u :: l, v :: m, s, t, hl, h => by
    simp only [List.flatMap_cons, List.append_assoc] at h
    obtain ⟨rfl, h2⟩ := toErlWord_append_inj h
    rw [flatMap_word_inj (by simpa using hl) h2]

theorem listExt_inj {l m : List Word} (hl : l.length = m.length) (h : listExt l = listExt m) :
    l = m := by
  unfold listExt at h
  rw [hl, List.append_assoc, List.append_assoc, List.append_cancel_left_eq] at h
  exact flatMap_word_inj hl h

theorem flatMap_pair_inj : ∀ {b c : List Pair}, (∀ p ∈ b, p.1.length < 256) →
    (∀ p ∈ c, p.1.length < 256) → b.flatMap pairErl ++ [106] = c.flatMap pairErl ++ [106] → b = c
  | [], [], _, _, _ => rfl
  | [], q :: c, _, _, h => by simp [pairErl] at h
  | p :: b, [], _, _, h => by simp [pairErl] at h
  | p :: b, q :: c, hb, hc, h => by
    simp only [List.flatMap_cons, pairErl, List.append_assoc, List.append_cancel_left_eq] at h
    obtain ⟨h1, h2⟩ := toErl_append_inj (hb p (by simp)) (hc q (by simp)) h
    obtain ⟨h3, h4⟩ := toErlWord_append_inj h2
    rw [flatMap_pair_inj (fun x hx => hb x (by simp [hx])) (fun x hx => hc x (by simp [hx])) h4]
    rw [Prod.ext h1 h3]

theorem leafExt_inj {bits : List Bool} {i : Nat} {b c : List Pair}
    (hb : ∀ p ∈ b, p.1.length < 256) (hc : ∀ p ∈ c, p.1.length < 256)
    (h : leafExt bits i b = leafExt bits i c) : b = c := by
  simp only [leafExt, List.cons_append, List.nil_append, List.append_assoc, List.cons.injEq,
    true_and] at h
  have := List.append_cancel_left h.2
  simp only [List.cons.injEq, true_and] at this
  exact flatMap_pair_inj hb hc this

theorem packBits_length : ∀ l : List Bool, (packBits l).length = (l.length + 7) / 8
  | [] | [_] | [_, _] | [_, _, _] | [_, _, _, _] | [_, _, _, _, _] | [_, _, _, _, _, _]
  | [_, _, _, _, _, _, _] => by simp [packBits]
  | _ :: _ :: _ :: _ :: _ :: _ :: _ :: _ :: l => by
    simp only [packBits, List.length_cons, packBits_length l]; omega

/-- A prefix has at most 16 bytes, a child hash 32: the strings part at the
first length byte. -/
theorem leafExt_ne_nodeExt {bits : List Bool} (hb : bits.length ≤ 128) (i : Nat) (b : List Pair)
    (u v : Word) : leafExt bits i b ≠ nodeExt u v := by
  intro h
  simp only [leafExt, nodeExt, List.cons_append, List.nil_append, List.append_assoc,
    List.cons.injEq, true_and] at h
  have h2 := h.2
  unfold prefixErl at h2
  split at h2
  · simp [toErlWord, toErl] at h2
  · simp only [toErlWord, toErl, List.cons_append, List.nil_append, List.cons.injEq, true_and,
      packBits_length, Word.bytes_length] at h2
    have := congrArg UInt8.toNat h2.1
    simp only [UInt8.toNat_ofNat'] at this
    omega

end Diode.L1.Ext
