import Diode.Core.Bytes

/-!
# Reading hex and RLP

`Base16.decode` and `Rlp.decode!` as far as requests to a node go through them.
Both raise on input they do not know, here `none`. The depth of a list is
bounded by its bytes, so that many levels are enough (`do_decode_enough`).
-/
namespace Diode.L1
open Diode.Core

namespace Base16

def digit (c : UInt8) : Option UInt8 :=
  if 48 ≤ c ∧ c ≤ 57 then some (c - 48)
  else if 65 ≤ c ∧ c ≤ 70 then some (c - 55)
  else if 97 ≤ c ∧ c ≤ 102 then some (c - 87)
  else none

/-- `Base.decode16!(bin, case: :mixed)` -/
def decode16 : Bytes → Option Bytes
  | [] => some []
  | [_] => none
  | c :: d :: rest => do
    let hi ← digit c
    let lo ← digit d
    let bin ← decode16 rest
    some ((hi * 16 + lo) :: bin)

/-- An odd number of digits gets a leading zero.
mirrors lib/base16.ex:49-61 -/
def do_decode (bin : Bytes) : Option Bytes :=
  if bin.length % 2 = 0 then decode16 bin else decode16 (48 :: bin)

/-- The clause for "0x"; the one for "0X" gives an integer.
mirrors lib/base16.ex:33-39 -/
def decode : Bytes → Option Bytes
  | 48 :: 120 :: hex => do_decode hex
  | _ => none

end Base16

namespace Rlp

inductive Item where
  | bin (data : Bytes)
  | list (items : List Item)

/-- mirrors lib/rlp.ex:102-109 -/
def do_decode_list (item : Bytes → Option (Item × Bytes)) : Nat → Bytes → Option (List Item)
  | _, [] => some []
  | 0, _ => none
  | n + 1, b => do
    let (x, rest) ← item b
    let list ← do_decode_list item n rest
    some (x :: list)

/-- mirrors lib/rlp.ex:74-100 -/
def do_decode : Nat → Bytes → Option (Item × Bytes)
  | 0, _ => none
  | _, [] => none
  | depth + 1, x :: rest =>
    let head := x.toNat
    if head ≤ 0x7F then some (.bin [x], rest)
    else if head ≤ 0xB7 then do
      let (item, rest) ← cut (head - 0x80) rest
      some (.bin item, rest)
    else if head ≤ 0xBF then do
      let (size, rest) ← cut (head - 0xB7) rest
      let (item, rest) ← cut (ofBe size) rest
      some (.bin item, rest)
    else if head ≤ 0xF7 then do
      let (list, rest) ← cut (head - 0xC0) rest
      let items ← do_decode_list (do_decode depth) list.length list
      some (.list items, rest)
    else do
      let (size, rest) ← cut (head - 0xF7) rest
      let (list, rest) ← cut (ofBe size) rest
      let items ← do_decode_list (do_decode depth) list.length list
      some (.list items, rest)

/-- mirrors lib/rlp.ex:35-38 -/
def decode (bin : Bytes) : Option Item :=
  match do_decode bin.length bin with
  | some (term, []) => some term
  | _ => none

theorem do_decode_list_congr {f g : Bytes → Option (Item × Bytes)} {m : Nat}
    (hfg : ∀ b, b.length ≤ m → f b = g b)
    (hlt : ∀ b x rest, f b = some (x, rest) → rest.length < b.length) :
    ∀ (n : Nat) {k : Nat} {b : Bytes}, b.length ≤ m → b.length ≤ n → b.length ≤ k →
      do_decode_list f n b = do_decode_list g k b
  | n, k, [], _, _, _ => by cases n <;> cases k <;> rfl
  | n + 1, k + 1, y :: b, hm, hn, hk => by
    unfold do_decode_list
    rw [hfg _ hm]
    cases hg : g (y :: b) with
    | none => rfl
    | some r =>
      have hrest := hlt _ r.1 r.2 (by rw [hfg _ hm, hg])
      simp only [List.length_cons] at hrest hm hn hk
      simp only [Option.bind_eq_bind, Option.bind_some]
      rw [do_decode_list_congr hfg hlt n (b := r.2) (k := k) (by omega) (by omega) (by omega)]

theorem do_decode_lt {n : Nat} {b rest : Bytes} {x : Item} (h : do_decode n b = some (x, rest)) :
    rest.length < b.length := by
  unfold do_decode at h
  split at h
  · nomatch h
  · nomatch h
  · rename_i y r
    dsimp only at h
    rw [List.length_cons]
    split at h
    · have hr : r = rest := (Prod.mk.inj (Option.some.inj h)).2
      rw [← hr]
      omega
    · split at h
      · obtain ⟨⟨d, r₁⟩, hc, h⟩ := Option.bind_eq_some_iff.1 h
        have hr : r₁ = rest := (Prod.mk.inj (Option.some.inj h)).2
        have := cut_length hc
        rw [← hr]
        omega
      · split at h
        · obtain ⟨⟨d, r₁⟩, hc, h⟩ := Option.bind_eq_some_iff.1 h
          obtain ⟨⟨d', r₂⟩, hc', h⟩ := Option.bind_eq_some_iff.1 h
          have hr : r₂ = rest := (Prod.mk.inj (Option.some.inj h)).2
          have := cut_length hc
          have : d'.length + r₂.length = r₁.length := cut_length hc'
          rw [← hr]
          omega
        · split at h
          · obtain ⟨⟨d, r₁⟩, hc, h⟩ := Option.bind_eq_some_iff.1 h
            obtain ⟨l, _, h⟩ := Option.bind_eq_some_iff.1 h
            have hr : r₁ = rest := (Prod.mk.inj (Option.some.inj h)).2
            have := cut_length hc
            rw [← hr]
            omega
          · obtain ⟨⟨d, r₁⟩, hc, h⟩ := Option.bind_eq_some_iff.1 h
            obtain ⟨⟨d', r₂⟩, hc', h⟩ := Option.bind_eq_some_iff.1 h
            obtain ⟨l, _, h⟩ := Option.bind_eq_some_iff.1 h
            have hr : r₂ = rest := (Prod.mk.inj (Option.some.inj h)).2
            have := cut_length hc
            have : d'.length + r₂.length = r₁.length := cut_length hc'
            rw [← hr]
            omega

/-- More levels than bytes change nothing. -/
theorem do_decode_enough : ∀ (n : Nat) {m : Nat} {b : Bytes}, b.length ≤ n → b.length ≤ m →
    do_decode n b = do_decode m b
  | 0, m, [], _, _ => by cases m <;> rfl
  | n + 1, m, [], _, _ => by cases m <;> rfl
  | n + 1, m + 1, x :: b, hn, hm => by
    rw [List.length_cons] at hn hm
    have hlist : ∀ {k : Nat} {d r b' : Bytes}, cut k b' = some (d, r) → b'.length ≤ b.length →
        do_decode_list (do_decode n) d.length d = do_decode_list (do_decode m) d.length d := by
      intro k d r b' hc hb
      have := cut_length hc
      have hnm : ∀ c : Bytes, c.length ≤ d.length → do_decode n c = do_decode m c := fun c hcl =>
        do_decode_enough n (by omega) (by omega)
      exact do_decode_list_congr hnm (fun _ _ _ => do_decode_lt) _ (by omega) (by omega) (by omega)
    unfold do_decode
    dsimp only
    split
    · rfl
    · split
      · rfl
      · split
        · rfl
        · split
          · cases hc : cut (x.toNat - 0xC0) b with
            | none => rfl
            | some p =>
              simp only [Option.bind_eq_bind, Option.bind_some]
              rw [@hlist _ p.1 p.2 b hc (by omega)]
          · cases hc : cut (x.toNat - 0xF7) b with
            | none => rfl
            | some p =>
              simp only [Option.bind_eq_bind, Option.bind_some]
              cases hc' : cut (ofBe p.1) p.2 with
              | none => rfl
              | some q =>
                have : p.1.length + p.2.length = b.length := cut_length hc
                simp only [Option.bind_some]
                rw [@hlist _ q.1 q.2 p.2 hc' (by omega)]

end Rlp
end Diode.L1
