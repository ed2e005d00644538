import Diode.Core.Bytes

/-!
# SHA-256

Model of c_src/sha256_std.c on a message given whole: `sha256_init`, one
`sha256_update` and `sha256_final`, which together run the compression over
the message, a byte 0x80, zeros and the length in bits.

Not modelled: the 64-bit overflow of the length counters.
-/
namespace Diode.Core.Sha256

abbrev U32 := BitVec 32

/-- mirrors c_src/sha256_std.c:41 -/
def ROTR (x : U32) (n : Nat) : U32 := x >>> n ||| x <<< (32 - n)

def CH (x y z : U32) : U32 := (x &&& y) ^^^ (~~~x &&& z)

def MAJ (x y z : U32) : U32 := (x &&& y) ^^^ (x &&& z) ^^^ (y &&& z)

def SHA256_F1 (x : U32) : U32 := ROTR x 2 ^^^ ROTR x 13 ^^^ ROTR x 22

def SHA256_F2 (x : U32) : U32 := ROTR x 6 ^^^ ROTR x 11 ^^^ ROTR x 25

def SHA256_F3 (x : U32) : U32 := ROTR x 7 ^^^ ROTR x 18 ^^^ x >>> 3

def SHA256_F4 (x : U32) : U32 := ROTR x 17 ^^^ ROTR x 19 ^^^ x >>> 10

def sha256_k : List U32 :=
  [0x428a2f98, 0x71374491, 0xb5c0fbcf, 0xe9b5dba5, 0x3956c25b, 0x59f111f1, 0x923f82a4, 0xab1c5ed5,
   0xd807aa98, 0x12835b01, 0x243185be, 0x550c7dc3, 0x72be5d74, 0x80deb1fe, 0x9bdc06a7, 0xc19bf174,
   0xe49b69c1, 0xefbe4786, 0x0fc19dc6, 0x240ca1cc, 0x2de92c6f, 0x4a7484aa, 0x5cb0a9dc, 0x76f988da,
   0x983e5152, 0xa831c66d, 0xb00327c8, 0xbf597fc7, 0xc6e00bf3, 0xd5a79147, 0x06ca6351, 0x14292967,
   0x27b70a85, 0x2e1b2138, 0x4d2c6dfc, 0x53380d13, 0x650a7354, 0x766a0abb, 0x81c2c92e, 0x92722c85,
   0xa2bfe8a1, 0xa81a664b, 0xc24b8b70, 0xc76c51a3, 0xd192e819, 0xd6990624, 0xf40e3585, 0x106aa070,
   0x19a4c116, 0x1e376c08, 0x2748774c, 0x34b0bcb5, 0x391c0cb3, 0x4ed8aa4a, 0x5b9cca4f, 0x682e6ff3,
   0x748f82ee, 0x78a5636f, 0x84c87814, 0x8cc70208, 0x90befffa, 0xa4506ceb, 0xbef9a3f7, 0xc67178f2]

/-- `PACK32` over the bytes of a block. -/
def pack32 : List UInt8 → List U32
  | a :: b :: c :: d :: l =>
    BitVec.ofNat 32 (((a.toNat * 256 + b.toNat) * 256 + c.toNat) * 256 + d.toNat) :: pack32 l
  | _ => []

/-- `SHA256_SCR` for `n` further words; `w` has the latest word first. -/
def scr : Nat → List U32 → List U32
  | 0, w => w
  | n + 1, w =>
    scr n ((SHA256_F4 (w.getD 1 0) + w.getD 6 0 + SHA256_F3 (w.getD 14 0) + w.getD 15 0) :: w)

/-- The registers `wv[0]` to `wv[7]`. -/
structure Regs where
  a : U32
  b : U32
  c : U32
  d : U32
  e : U32
  f : U32
  g : U32
  h : U32

def sha256_h0 : Regs :=
  ⟨0x6a09e667, 0xbb67ae85, 0x3c6ef372, 0xa54ff53a, 0x510e527f, 0x9b05688c, 0x1f83d9ab, 0x5be0cd19⟩

/-- mirrors c_src/sha256_std.c:237-249 -/
def round (r : Regs) (k w : U32) : Regs :=
  let t1 := r.h + SHA256_F2 r.e + CH r.e r.f r.g + k + w
  let t2 := SHA256_F1 r.a + MAJ r.a r.b r.c
  ⟨t1 + t2, r.a, r.b, r.c, r.d + t1, r.e, r.f, r.g⟩

def rounds : List U32 → List U32 → Regs → Regs
  | k :: ks, w :: ws, r => rounds ks ws (round r k w)
  | _, _, r => r

/-- One block.
mirrors c_src/sha256_std.c:210-254 -/
def sha256_transf (h : Regs) (block : List UInt8) : Regs :=
  let r := rounds sha256_k (scr 48 (pack32 block).reverse).reverse h
  ⟨h.a + r.a, h.b + r.b, h.c + r.c, h.d + r.d, h.e + r.e, h.f + r.f, h.g + r.g, h.h + r.h⟩

/-- The blocks `n` of a padded message. -/
def blocks : Nat → List UInt8 → Regs → Regs
  | 0, _, h => h
  | n + 1, m, h => blocks n (m.drop 64) (sha256_transf h (m.take 64))

/-- The message with its padding.
mirrors c_src/sha256_std.c:584-606 -/
def pad (m : List UInt8) : List UInt8 :=
  m ++ 0x80 :: List.replicate ((119 - m.length % 64) % 64) 0 ++ be 8 (m.length * 8)

/-- mirrors c_src/sha256_std.c:525-532 -/
def sha256 (m : Bytes) : Word :=
  let r := blocks ((pad m).length / 64) (pad m) sha256_h0
  r.a ++ r.b ++ r.c ++ r.d ++ r.e ++ r.f ++ r.g ++ r.h

/-! ## On numbers

The same compression on numbers, with their own operations. `digest` evaluates
much faster than `sha256`, with which it agrees (`sha256_eq`). -/

/-- `f n`, with `n` evaluated first. -/
def force {α : Type} (n : Nat) (f : Nat → α) : α :=
  match n with
  | 0 => f 0
  | m + 1 => f (m + 1)

@[simp] theorem force_eq {α : Type} (n : Nat) (f : Nat → α) : force n f = f n := by
  cases n <;> rfl

def add (x y : Nat) : Nat := (x.add y).mod 4294967296

def rotr (x n m : Nat) : Nat := (x.shiftRight n).lor ((x.shiftLeft m).mod 4294967296)

def ch (x y z : Nat) : Nat := (x.land y).xor ((Nat.sub 4294967295 x).land z)

def maj (x y z : Nat) : Nat := ((x.land y).xor (x.land z)).xor (y.land z)

def f1 (x : Nat) : Nat := ((rotr x 2 30).xor (rotr x 13 19)).xor (rotr x 22 10)

def f2 (x : Nat) : Nat := ((rotr x 6 26).xor (rotr x 11 21)).xor (rotr x 25 7)

def f3 (x : Nat) : Nat := ((rotr x 7 25).xor (rotr x 18 14)).xor (x.shiftRight 3)

def f4 (x : Nat) : Nat := ((rotr x 17 15).xor (rotr x 19 13)).xor (x.shiftRight 10)

@[simp] theorem toNat_add (x y : U32) : (x + y).toNat = add x.toNat y.toNat := BitVec.toNat_add x y

theorem toNat_ROTR (x : U32) (n : Nat) : (ROTR x n).toNat = rotr x.toNat n (32 - n) := by
  simp only [ROTR, BitVec.toNat_or, BitVec.toNat_ushiftRight, BitVec.toNat_shiftLeft]
  rfl

@[simp] theorem toNat_CH (x y z : U32) : (CH x y z).toNat = ch x.toNat y.toNat z.toNat := by
  simp only [CH, BitVec.toNat_xor, BitVec.toNat_and, BitVec.toNat_not]
  rfl

@[simp] theorem toNat_MAJ (x y z : U32) : (MAJ x y z).toNat = maj x.toNat y.toNat z.toNat := by
  simp only [MAJ, BitVec.toNat_xor, BitVec.toNat_and]
  rfl

@[simp] theorem toNat_F1 (x : U32) : (SHA256_F1 x).toNat = f1 x.toNat := by
  simp only [SHA256_F1, BitVec.toNat_xor, toNat_ROTR]
  rfl

@[simp] theorem toNat_F2 (x : U32) : (SHA256_F2 x).toNat = f2 x.toNat := by
  simp only [SHA256_F2, BitVec.toNat_xor, toNat_ROTR]
  rfl

@[simp] theorem toNat_F3 (x : U32) : (SHA256_F3 x).toNat = f3 x.toNat := by
  simp only [SHA256_F3, BitVec.toNat_xor, toNat_ROTR, BitVec.toNat_ushiftRight]
  rfl

@[simp] theorem toNat_F4 (x : U32) : (SHA256_F4 x).toNat = f4 x.toNat := by
  simp only [SHA256_F4, BitVec.toNat_xor, toNat_ROTR, BitVec.toNat_ushiftRight]
  rfl

structure NatRegs where
  a : Nat
  b : Nat
  c : Nat
  d : Nat
  e : Nat
  f : Nat
  g : Nat
  h : Nat

def Regs.toNat (r : Regs) : NatRegs :=
  ⟨r.a.toNat, r.b.toNat, r.c.toNat, r.d.toNat, r.e.toNat, r.f.toNat, r.g.toNat, r.h.toNat⟩

def natRounds : List Nat → List Nat → NatRegs → NatRegs
  | k :: ks, w :: ws, ⟨a, b, c, d, e, f, g, h⟩ =>
    force (add (add (add (add h (f2 e)) (ch e f g)) k) w) fun t1 =>
    force (add t1 (add (f1 a) (maj a b c))) fun a' =>
    force (add d t1) fun e' => natRounds ks ws ⟨a', a, b, c, e', e, f, g⟩
  | _, _, r => r

theorem natRounds_eq : ∀ (ks ws : List U32) (r : Regs),
    natRounds (ks.map BitVec.toNat) (ws.map BitVec.toNat) r.toNat = (rounds ks ws r).toNat
  | [], _, _ => rfl
  | _ :: _, [], _ => rfl
  | k :: ks, w :: ws, r => by
    rw [rounds, ← natRounds_eq ks ws]
    simp only [List.map_cons, natRounds, Regs.toNat, force_eq, round, toNat_add, toNat_F1, toNat_F2,
      toNat_CH, toNat_MAJ]

/-- A word of a packed schedule, the latest first. -/
def word (v i : Nat) : Nat := (v.shiftRight (Nat.mul 32 i)).mod 4294967296

def pack : List U32 → Nat
  | [] => 0
  | w :: l => pack l * 4294967296 + w.toNat

theorem word_eq (v i : Nat) : word v i = (v >>> (32 * i)) % 4294967296 := rfl

theorem word_pack : ∀ (l : List U32) (i : Nat), word (pack l) i = (l.getD i 0).toNat
  | [], i => by simp [word_eq, pack]
  | w :: l, 0 => by
    have := w.isLt
    simp only [word_eq, pack, Nat.mul_zero, Nat.shiftRight_zero, List.getD_cons_zero]
    omega
  | w :: l, i + 1 => by
    have hw : w.toNat < 4294967296 := w.isLt
    have hshift : (pack l * 4294967296 + w.toNat) >>> 32 = pack l := by
      rw [Nat.shiftRight_eq_div_pow]
      omega
    rw [List.getD_cons_succ, ← word_pack l i, word_eq, word_eq, pack,
      show 32 * (i + 1) = 32 + 32 * i by omega, Nat.shiftRight_add, hshift]

def natScr : Nat → Nat → Nat
  | 0, v => v
  | n + 1, v =>
    force ((v.mul 4294967296).add (add (add (add (f4 (word v 1)) (word v 6)) (f3 (word v 14))) (word v 15))) fun v =>
    natScr n v

theorem natScr_pack : ∀ (n : Nat) (w : List U32), natScr n (pack w) = pack (scr n w)
  | 0, _ => rfl
  | n + 1, w => by
    rw [scr, ← natScr_pack n, natScr, force_eq]
    simp only [pack, toNat_add, toNat_F3, toNat_F4, word_pack]
    rfl

/-- The words of a packed schedule, the oldest first. -/
def split : Nat → Nat → List Nat → List Nat
  | 0, _, l => l
  | n + 1, v, l => force (v.div 4294967296) fun u => force (v.mod 4294967296) fun w =>
      split n u (w :: l)

theorem split_pack : ∀ (w : List U32) (l : List Nat), split w.length (pack w) l = w.reverse.map
    BitVec.toNat ++ l
  | [], _ => rfl
  | x :: w, l => by
    have hx : x.toNat < 4294967296 := x.isLt
    have hdiv : (pack w * 4294967296 + x.toNat).div 4294967296 = pack w := by
      change (pack w * 4294967296 + x.toNat) / 4294967296 = pack w
      omega
    have hmod : (pack w * 4294967296 + x.toNat).mod 4294967296 = x.toNat := by
      change (pack w * 4294967296 + x.toNat) % 4294967296 = x.toNat
      omega
    rw [List.length_cons, split, force_eq, force_eq, pack, hdiv, hmod, split_pack w]
    simp only [List.reverse_cons, List.map_append, List.map_cons, List.map_nil, List.append_assoc,
      List.cons_append,
      List.nil_append]

def natPack : List UInt8 → Nat → Nat
  | a :: b :: c :: d :: l, v =>
    force (v * 4294967296 + (((a.toNat * 256 + b.toNat) * 256 + c.toNat) * 256 + d.toNat)) fun v => natPack l v
  | _, v => v

theorem natPack_eq : ∀ (block : List UInt8) (w : List U32), natPack block (pack w) = pack
    ((pack32 block).reverse ++ w)
  | a :: b :: c :: d :: l, w => by
    have ha := a.toNat_lt
    have hb := b.toNat_lt
    have hc := c.toNat_lt
    have hd := d.toNat_lt
    have hword : (BitVec.ofNat 32 (((a.toNat * 256 + b.toNat) * 256 + c.toNat) * 256 + d.toNat)).toNat =
        ((a.toNat * 256 + b.toNat) * 256 + c.toNat) * 256 + d.toNat := by
      rw [BitVec.toNat_ofNat, Nat.mod_eq_of_lt (by omega)]
    have hrest := natPack_eq l
      (BitVec.ofNat 32 (((a.toNat * 256 + b.toNat) * 256 + c.toNat) * 256 + d.toNat) :: w)
    rw [pack, hword] at hrest
    rw [natPack, force_eq, pack32, List.reverse_cons, List.append_assoc]
    exact hrest
  | [], _ => rfl
  | [_], _ => rfl
  | [_, _], _ => rfl
  | [_, _, _], _ => rfl

theorem scr_length : ∀ (n : Nat) (w : List U32), (scr n w).length = n + w.length
  | 0, w => (Nat.zero_add _).symm
  | n + 1, w => by
    rw [scr, scr_length n, List.length_cons]
    omega

def nat_k : List Nat :=
  [0x428a2f98, 0x71374491, 0xb5c0fbcf, 0xe9b5dba5, 0x3956c25b, 0x59f111f1, 0x923f82a4, 0xab1c5ed5,
   0xd807aa98, 0x12835b01, 0x243185be, 0x550c7dc3, 0x72be5d74, 0x80deb1fe, 0x9bdc06a7, 0xc19bf174,
   0xe49b69c1, 0xefbe4786, 0x0fc19dc6, 0x240ca1cc, 0x2de92c6f, 0x4a7484aa, 0x5cb0a9dc, 0x76f988da,
   0x983e5152, 0xa831c66d, 0xb00327c8, 0xbf597fc7, 0xc6e00bf3, 0xd5a79147, 0x06ca6351, 0x14292967,
   0x27b70a85, 0x2e1b2138, 0x4d2c6dfc, 0x53380d13, 0x650a7354, 0x766a0abb, 0x81c2c92e, 0x92722c85,
   0xa2bfe8a1, 0xa81a664b, 0xc24b8b70, 0xc76c51a3, 0xd192e819, 0xd6990624, 0xf40e3585, 0x106aa070,
   0x19a4c116, 0x1e376c08, 0x2748774c, 0x34b0bcb5, 0x391c0cb3, 0x4ed8aa4a, 0x5b9cca4f, 0x682e6ff3,
   0x748f82ee, 0x78a5636f, 0x84c87814, 0x8cc70208, 0x90befffa, 0xa4506ceb, 0xbef9a3f7, 0xc67178f2]

theorem pack32_length : ∀ l : List UInt8, (pack32 l).length = l.length / 4
  | _ :: _ :: _ :: _ :: l => by
    simp only [pack32, List.length_cons, pack32_length l]
    omega
  | [] => rfl
  | [_] => by simp [pack32]
  | [_, _] => by simp [pack32]
  | [_, _, _] => by simp [pack32]

def natTransf (h : NatRegs) (block : List UInt8) : NatRegs :=
  let r := natRounds nat_k (split 64 (natScr 48 (natPack block 0)) []) h
  ⟨add h.a r.a, add h.b r.b, add h.c r.c, add h.d r.d, add h.e r.e, add h.f r.f,
    add h.g r.g, add h.h r.h⟩

theorem natTransf_eq (h : Regs) {block : List UInt8} (hb : block.length = 64) :
    natTransf h.toNat block = (sha256_transf h block).toNat := by
  have hpack : natPack block 0 = pack (pack32 block).reverse := by
    rw [← List.append_nil (pack32 block).reverse, ← natPack_eq]
    rfl
  have hlen : 64 = (scr 48 (pack32 block).reverse).length := by
    rw [scr_length, List.length_reverse, pack32_length, hb]
  have hk : nat_k = sha256_k.map BitVec.toNat := rfl
  rw [natTransf, hpack, natScr_pack, hlen, split_pack, List.append_nil, hk, natRounds_eq]
  simp only [sha256_transf, Regs.toNat, toNat_add]

def natBlocks (transf : NatRegs → List UInt8 → NatRegs) : Nat → List UInt8 → NatRegs → NatRegs
  | 0, _, h => h
  | n + 1, m, h => natBlocks transf n (m.drop 64) (transf h (m.take 64))

theorem natBlocks_eq : ∀ (n : Nat) {m : List UInt8} (h : Regs), m.length = 64 * n →
    natBlocks natTransf n m h.toNat = (blocks n m h).toNat
  | 0, _, _, _ => rfl
  | n + 1, m, h, hm => by
    have htake : (m.take 64).length = 64 := by
      rw [List.length_take]
      omega
    have hdrop : (m.drop 64).length = 64 * n := by
      rw [List.length_drop]
      omega
    rw [natBlocks, natTransf_eq h htake, natBlocks_eq n _ hdrop, blocks]

theorem pad_length (m : List UInt8) : (pad m).length = 64 * ((m.length + 72) / 64) := by
  simp only [pad, List.length_append, List.length_cons, List.length_replicate, be_length]
  omega

def digest (m : Bytes) : Word :=
  let r := natBlocks natTransf ((m.length + 72) / 64) (pad m) sha256_h0.toNat
  BitVec.ofNat 32 r.a ++ BitVec.ofNat 32 r.b ++ BitVec.ofNat 32 r.c ++ BitVec.ofNat 32 r.d ++
    BitVec.ofNat 32 r.e ++
    BitVec.ofNat 32 r.f ++ BitVec.ofNat 32 r.g ++ BitVec.ofNat 32 r.h

theorem sha256_eq : sha256 = digest := by
  funext m
  unfold sha256 digest
  rw [natBlocks_eq _ _ (pad_length m), pad_length, Nat.mul_div_cancel_left _ (by decide)]
  simp only [Regs.toNat, BitVec.ofNat_toNat, BitVec.setWidth_eq]

end Diode.Core.Sha256
