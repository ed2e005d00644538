import Diode.Core.SMap
import Diode.L1Encoding.Ext

/-!
# The canonical shape of a storage trie and its root hash

A `Tree` of c_src/merkletree.cpp seen as a value: a binary trie over the bits
of `key_hash`, with buckets of at most `LEAF_SIZE` pairs at the leaves. This
module says what the sharing, the dirty flags and the hash caches of
`ItemPool` must add up to: a shape and hashes that depend on the content only.

* `split` is the trie that `split_node` makes of a sorted bucket.
* `canonicalRoot`: the root hash of a content, computed from scratch.
* `half_putSlot`: a write goes to the side its key hash points to.
* `canonicalRoot_inj`: with `sha` injective on the strings hashed, equal roots
  mean equal contents.
-/
namespace Diode.L2
open Diode.Core Diode.L1.Ext

def LEAF_SIZE : Nat := 16

/-- Bits a `bits_t` can hold (`m_value[16]`). -/
def MAX_BITS : Nat := 128

inductive Trie where
  | leaf (bucket : List Pair)
  | node (left right : Trie)
  deriving DecidableEq, Repr

/-- Pairs in the order `Item::each` visits them.
mirrors c_src/merkletree.cpp:222-231 -/
def Trie.pairs : Trie → List Pair
  | .leaf b => b
  | .node l r => l.pairs ++ r.pairs

/-- The bucket built by putting the pairs into an empty one, one by one. -/
def ofPairs (ps : List Pair) : List Pair := ps.foldl (fun b p => Assoc.put b p.1 p.2) []

section
variable (sha : Bytes → Word)

/-- `key_hash.bit(i)`.
mirrors c_src/merkletree.hpp:86-90 -/
def hashBit (key : Bytes) (i : Nat) : Bool := (sha key).getMsbD i

/-- The first `n` bits of `key_hash`. -/
def hashPrefix (key : Bytes) (n : Nat) : List Bool := (List.range n).map (hashBit sha key)

/-- The pairs of a bucket whose key hash has bit `d` equal to `b`; `decide` is
true for the pairs with the bit `LEFT`, which is 0.
mirrors c_src/merkletree.cpp:181-183 -/
def half (b : Bool) (d : Nat) (c : List Pair) : List Pair := c.filter fun p => hashBit sha p.1 d == b

/-- mirrors c_src/merkletree.cpp:325-327 -/
def hashToLeafindex (key : Bytes) : Nat := (sha key).toNat % 256 % LEAF_SIZE

/-- `split_node` on a bucket at depth `d` with `n` levels left below it.
mirrors c_src/merkletree.cpp:274-308 -/
def split : Nat → Nat → List Pair → Trie
  | 0, _, b => .leaf b
  | n + 1, d, b =>
    if b.length ≤ LEAF_SIZE then .leaf b
    else .node (split n (d + 1) (half sha false d b)) (split n (d + 1) (half sha true d b))

/-- The trie below the prefix `bits` for the pairs `c`. -/
def shapeAt (bits : List Bool) (c : List Pair) : Trie :=
    split sha (MAX_BITS - bits.length) bits.length c

/-- The entries of a bucket with leaf index `i`.
mirrors c_src/merkletree.cpp:329-340 -/
def bucketToLeaf (b : List Pair) (i : Nat) : List Pair := b.filter fun p => hashToLeafindex sha p.1 = i

/-- The sixteen hashes of a leaf.
mirrors c_src/merkletree.cpp:342-351 -/
def bucketToLeafes (bits : List Bool) (b : List Pair) : List Word :=
  (List.range LEAF_SIZE).map fun i => sha (leafExt bits i (bucketToLeaf sha b i))

/-- The sixteen hashes of an internal node from those of its children.
mirrors c_src/merkletree.cpp:389-393 -/
def nodeHashes (left right : List Word) : List Word :=
    List.zipWith (fun l r => sha (nodeExt l r)) left right

/-- The hashes of the node with prefix `bits`. -/
def Trie.hashes : List Bool → Trie → List Word
  | bits, .leaf b => bucketToLeafes sha bits b
  | bits, .node l r => nodeHashes sha (l.hashes (bits ++ [false])) (r.hashes (bits ++ [true]))

/-- `root_hash` of a trie that is collapsed already.
mirrors c_src/merkletree.cpp:399-407 -/
def rootOf (t : Trie) : Word := sha (listExt (t.hashes sha []))

/-- The root hash of a content, computed from scratch. -/
def canonicalRoot (content : List Pair) : Word := rootOf sha (shapeAt sha [] content)

/-- mirrors c_src/merkletree.hpp:230-243 -/
inductive Proof where
  | pair (left right : Proof)
  | hash (h : Word)
  | term (t : Bytes)
  deriving DecidableEq, Repr

/-- `do_get_proofs` on a trie that is collapsed already.
mirrors c_src/merkletree.cpp:445-474 -/
def Trie.proof (key : Bytes) : List Bool → Trie → Proof
  | bits, .leaf b => .term
      (leafExt bits (hashToLeafindex sha key) (bucketToLeaf sha b (hashToLeafindex sha key)))
  | bits, .node l r =>
    if hashBit sha key bits.length then
      .pair (.hash ((l.hashes sha (bits ++ [false])).getD (hashToLeafindex sha key) 0))
        (r.proof key (bits ++ [true]))
    else .pair (l.proof key (bits ++ [false]))
      (.hash ((r.hashes sha (bits ++ [true])).getD (hashToLeafindex sha key) 0))

/-- The proof of a key in a content, computed from scratch. -/
def canonicalProof (key : Bytes) (content : List Pair) : Proof :=
    (shapeAt sha [] content).proof sha key []

/-! ## Well-formedness -/

/-- `key_hash` starts with `bits`. -/
def Under (bits : List Bool) (key : Bytes) : Prop := hashPrefix sha key bits.length = bits

/-- Buckets are sorted, not over-full, free of zero values, and every pair lies
under its node's prefix. -/
def Trie.WF : List Bool → Trie → Prop
  | bits, .leaf b => Assoc.Sorted b ∧ b.length ≤ LEAF_SIZE ∧ ∀ p ∈ b, p.2 ≠ 0 ∧ Under sha bits p.1
  | bits, .node l r => bits.length < MAX_BITS ∧ l.WF (bits ++ [false]) ∧ r.WF (bits ++ [true])

/-- No 17 of the keys share the first 128 bits of their hash. -/
def NoCrowd (K : Bytes → Prop) : Prop :=
  ∀ (bits : List Bool) (ks : List Bytes), ks.Nodup →
    (∀ k ∈ ks, K k ∧ hashPrefix sha k MAX_BITS = bits) →
    ks.length ≤ LEAF_SIZE

variable {sha}

theorem under_snoc {bits : List Bool} {b : Bool} {key : Bytes} :
    Under sha (bits ++ [b]) key ↔ Under sha bits key ∧ hashBit sha key bits.length = b := by
  unfold Under hashPrefix
  rw [List.length_append, List.length_singleton, List.range_succ, List.map_append, List.map_singleton]
  refine ⟨?_, ?_⟩
  · intro h
    obtain ⟨h1, h2⟩ := List.append_inj' h rfl
    exact ⟨h1, List.singleton_inj.1 h2⟩
  · intro hx
    obtain ⟨h1, h2⟩ := hx
    rw [h1, h2]

theorem under_nil (key : Bytes) : Under sha [] key := rfl

/-! ## Buckets as sets of pairs -/

theorem sorted_nodup {l : List Pair} (h : Assoc.Sorted l) : (l.map Prod.fst).Nodup := by
  rw [List.Nodup, List.pairwise_map]
  exact h.imp fun hlt => ne_of_lt hlt

theorem sorted_perm_eq {l m : List Pair} (hl : Assoc.Sorted l) (hm : Assoc.Sorted m) (h : l.Perm m) :
    l = m :=
  h.eq_of_pairwise (fun _ _ _ _ h1 h2 => absurd (lt_trans h1 h2) (lt_irrefl _)) hl hm

theorem put_perm {l : List Pair} {k : Bytes} {v : Word} (h : ∀ p ∈ l, p.1 ≠ k) :
    (Assoc.put l k v).Perm ((k, v) :: l) := by
  induction l with
  | nil => simp [Assoc.put]
  | cons p l ih =>
    simp only [Assoc.put, h p (by simp), if_false]
    split
    · exact List.Perm.refl _
    · exact ((ih fun q hq => h q (by simp [hq])).cons p).trans (List.Perm.swap _ _ _)

theorem foldl_put_perm : ∀ (ps b : List Pair), (ps.map Prod.fst).Nodup →
    (∀ p ∈ ps, ∀ q ∈ b, q.1 ≠ p.1) → (ps.foldl (fun b p => Assoc.put b p.1 p.2) b).Perm (ps ++ b)
  | [], b, _, _ => List.Perm.refl _
  | p :: ps, b, hn, hd => by
    simp only [List.map_cons, List.nodup_cons, List.mem_map, not_exists, not_and] at hn
    have hp := put_perm (v := p.2) (hd p (by simp))
    have := foldl_put_perm ps (Assoc.put b p.1 p.2) hn.2 (by
      intro q hq x hx
      rcases List.mem_cons.1 (hp.mem_iff.1 hx) with rfl | hx
      · exact fun e => hn.1 q hq e.symm
      · exact hd q (by simp [hq]) x hx)
    exact this.trans ((hp.append_left ps).trans List.perm_middle)

theorem foldl_put_sorted : ∀ (ps b : List Pair), Assoc.Sorted b →
    Assoc.Sorted (ps.foldl (fun b p => Assoc.put b p.1 p.2) b)
  | [], _, h => h
  | _ :: ps, _, h => foldl_put_sorted ps _ (Assoc.sorted_put h _ _)

theorem ofPairs_sorted (ps : List Pair) : Assoc.Sorted (ofPairs ps) :=
  foldl_put_sorted ps [] List.Pairwise.nil

theorem ofPairs_perm {ps : List Pair} (h : (ps.map Prod.fst).Nodup) : (ofPairs ps).Perm ps := by
  have := foldl_put_perm ps [] h (by simp)
  rwa [List.append_nil] at this

theorem ofPairs_eq {ps c : List Pair} (h : (ps.map Prod.fst).Nodup) (hc : Assoc.Sorted c)
    (hp : c.Perm ps) : ofPairs ps = c :=
  sorted_perm_eq (ofPairs_sorted ps) hc ((ofPairs_perm h).trans hp.symm)

theorem half_perm (d : Nat) (b : List Pair) : (half sha false d b ++ half sha true d b).Perm b := by
  have := List.filter_append_perm (fun p : Pair => hashBit sha p.1 d == false) b
  have hn : (b.filter fun p => !(hashBit sha p.1 d == false)) = half sha true d b := by
    simp [half]
  rwa [hn] at this

theorem mem_half {b : Bool} {d : Nat} {c : List Pair} {p : Pair} :
    p ∈ half sha b d c ↔ p ∈ c ∧ hashBit sha p.1 d = b := by simp [half]

theorem half_sorted {b : Bool} {d : Nat} {c : List Pair} (h : Assoc.Sorted c) :
    Assoc.Sorted (half sha b d c) := Assoc.sorted_filter h _

theorem half_length (d : Nat) (c : List Pair) :
    (half sha false d c).length + (half sha true d c).length = c.length := by
  rw [← List.length_append, (half_perm d c).length_eq]

theorem split_perm : ∀ (n d : Nat) (b : List Pair), (split sha n d b).pairs.Perm b
  | 0, _, _ => List.Perm.refl _
  | n + 1, d, b => by
    simp only [split]
    split
    · exact List.Perm.refl _
    · refine ((split_perm n (d + 1) _).append (split_perm n (d + 1) _)).trans ?_
      exact half_perm d b

/-- No 17 pairs share the first 128 bits of their key hash. -/
def Sparse (sha : Bytes → Word) (b : List Pair) : Prop :=
  ∀ p ∈ b, (b.filter fun q => hashPrefix sha q.1 MAX_BITS = hashPrefix sha p.1 MAX_BITS).length ≤ LEAF_SIZE

instance (b : List Pair) : Decidable (Sparse sha b) := inferInstanceAs (Decidable (∀ p ∈ b, _))

theorem sparse_sublist {b c : List Pair} (h : Sparse sha b) (hc : c.Sublist b) : Sparse sha c :=
  fun p hp => (hc.filter _).length_le.trans (h p (hc.mem hp))

/-- Pairs under one prefix of 128 bits fit in a leaf. -/
theorem Sparse.length_le {b : List Pair} (h : Sparse sha b) (bits : List Bool)
    (hb : ∀ p ∈ b, hashPrefix sha p.1 MAX_BITS = bits) : b.length ≤ LEAF_SIZE := by
  cases b with
  | nil => exact Nat.zero_le _
  | cons p l =>
    have := h p (by simp)
    rwa [List.filter_eq_self.2 fun q hq => by simp [hb q hq, hb p (by simp)]] at this

theorem sparse_of_noCrowd {K : Bytes → Prop} (h : NoCrowd sha K) {b : List Pair}
    (hs : Assoc.Sorted b) (hK : ∀ p ∈ b, K p.1) : Sparse sha b := by
  intro p _
  have := h (hashPrefix sha p.1 MAX_BITS)
    ((b.filter fun q => hashPrefix sha q.1 MAX_BITS = hashPrefix sha p.1 MAX_BITS).map Prod.fst)
    (sorted_nodup (Assoc.sorted_filter hs _)) (by
      intro k hk
      obtain ⟨q, hq, rfl⟩ := List.mem_map.1 hk
      obtain ⟨hqb, hqe⟩ := List.mem_filter.1 hq
      exact ⟨hK q hqb, of_decide_eq_true hqe⟩)
  simpa using this

/-- With no crowd the split always ends in buckets that fit. -/
theorem split_wf : ∀ (n : Nat) (bits : List Bool) (b : List Pair), bits.length + n = MAX_BITS →
    Assoc.Sorted b → (∀ p ∈ b, p.2 ≠ 0 ∧ Under sha bits p.1) → Sparse sha b →
    (split sha n bits.length b).WF sha bits
  | 0, bits, b, hn, hs, hu, hx => by
    refine ⟨hs, hx.length_le bits fun p hp => ?_, hu⟩
    have := (hu p hp).2
    rw [Under] at this
    rwa [show bits.length = MAX_BITS by omega] at this
  | n + 1, bits, b, hn, hs, hu, hx => by
    simp only [split]
    split
    · exact ⟨hs, by assumption, hu⟩
    · have key : ∀ c : Bool, (split sha n (bits.length + 1) (half sha c bits.length b)).WF sha
        (bits ++ [c]) := by
        intro c
        have hl : (bits ++ [c]).length = bits.length + 1 := by simp
        rw [← hl]
        refine split_wf n _ _ (by rw [hl]; omega) (half_sorted hs) (fun p hp => ?_)
          (sparse_sublist hx List.filter_sublist)
        obtain ⟨hp, hb⟩ := mem_half.1 hp
        exact ⟨(hu p hp).1, under_snoc.2 ⟨(hu p hp).2, hb⟩⟩
      exact ⟨by omega, key false, key true⟩

theorem shapeAt_small {bits : List Bool} {c : List Pair} (h : c.length ≤ LEAF_SIZE) :
    shapeAt sha bits c = .leaf c := by
  unfold shapeAt
  cases MAX_BITS - bits.length with
  | zero => rfl
  | succ n => simp [split, h]

theorem shapeAt_big {bits : List Bool} {c : List Pair} (h : LEAF_SIZE < c.length)
    (hb : bits.length < MAX_BITS) :
    shapeAt sha bits c = .node (shapeAt sha (bits ++ [false]) (half sha false bits.length c))
      (shapeAt sha (bits ++ [true]) (half sha true bits.length c)) := by
  obtain ⟨n, hn⟩ : ∃ n, MAX_BITS - bits.length = n + 1 := ⟨MAX_BITS - bits.length - 1, by omega⟩
  have hn' : MAX_BITS - (bits.length + 1) = n := by omega
  simp only [shapeAt, List.length_append, List.length_singleton, hn, hn', split,
    show ¬c.length ≤ LEAF_SIZE by omega,
    if_false]

/-! ## Writes -/

theorem mem_put_iff {b : List Pair} (hs : Assoc.Sorted b) {k : Bytes} {v : Word} {p : Pair} :
    p ∈ Assoc.put b k v ↔ (p.1 ≠ k ∧ p ∈ b) ∨ p = (k, v) := by
  obtain ⟨j, w⟩ := p
  rw [← Assoc.get_iff_mem (Assoc.sorted_put hs k v), Assoc.get_put, ← Assoc.get_iff_mem hs]
  by_cases h : k = j
  · subst h; simp [eq_comm]
  · simp [h, Ne.symm h, eq_comm]

theorem mem_del_iff {b : List Pair} (hs : Assoc.Sorted b) {k : Bytes} {p : Pair} :
    p ∈ Assoc.del b k ↔ p.1 ≠ k ∧ p ∈ b := by
  obtain ⟨j, w⟩ := p
  rw [← Assoc.get_iff_mem (Assoc.sorted_del hs k), Assoc.get_del hs, ← Assoc.get_iff_mem hs]
  by_cases h : k = j
  · simp [h]
  · simp [h, Ne.symm h]

/-- A zero value deletes, any other is put. -/
def putSlot (c : List Pair) (k : Bytes) (v : Word) : List Pair :=
    if v = 0 then Assoc.del c k else Assoc.put c k v

theorem mem_putSlot {c : List Pair} (hs : Assoc.Sorted c) {k : Bytes} {v : Word} {p : Pair} :
    p ∈ putSlot c k v ↔ (p.1 ≠ k ∧ p ∈ c) ∨ (v ≠ 0 ∧ p = (k, v)) := by
  unfold putSlot
  split
  · rename_i hv
    simp [mem_del_iff hs, hv]
  · rename_i hv
    simp only [mem_put_iff hs, ne_eq, hv, not_false_eq_true, true_and]

theorem putSlot_sorted {c : List Pair} (h : Assoc.Sorted c) (k : Bytes) (v : Word) :
    Assoc.Sorted (putSlot c k v) := by
  unfold putSlot; split
  · exact Assoc.sorted_del h k
  · exact Assoc.sorted_put h k v

/-- A write on the side of its key hash. -/
theorem half_putSlot {c : List Pair} (h : Assoc.Sorted c) {d : Nat} {k : Bytes} (v : Word) {b : Bool}
    (hb : hashBit sha k d = b) : half sha b d (putSlot c k v) = putSlot (half sha b d c) k v := by
  refine sorted_perm_eq (half_sorted (putSlot_sorted h k v)) (putSlot_sorted (half_sorted h) k v) ?_
  refine (List.perm_ext_iff_of_nodup ?_ ?_).2 fun p => ?_
  · exact (sorted_nodup (half_sorted (putSlot_sorted h k v))).of_map _
  · exact (sorted_nodup (putSlot_sorted (half_sorted h) k v)).of_map _
  · rw [mem_half, mem_putSlot h, mem_putSlot (half_sorted h), mem_half]
    refine ⟨?_, ?_⟩
    · rintro ⟨⟨hp, hm⟩ | ⟨hv, rfl⟩, hq⟩
      · exact .inl ⟨hp, hm, hq⟩
      · exact .inr ⟨hv, rfl⟩
    · rintro (⟨hp, hm, hq⟩ | ⟨hv, rfl⟩)
      · exact ⟨.inl ⟨hp, hm⟩, hq⟩
      · exact ⟨.inr ⟨hv, rfl⟩, hb⟩

/-- A write leaves the other side alone. -/
theorem half_putSlot_ne {c : List Pair} (h : Assoc.Sorted c) {d : Nat} {k : Bytes} (v : Word) {b : Bool}
    (hb : hashBit sha k d ≠ b) : half sha b d (putSlot c k v) = half sha b d c := by
  refine sorted_perm_eq (half_sorted (putSlot_sorted h k v)) (half_sorted h) ?_
  refine (List.perm_ext_iff_of_nodup ?_ ?_).2 fun p => ?_
  · exact (sorted_nodup (half_sorted (putSlot_sorted h k v))).of_map _
  · exact (sorted_nodup (half_sorted h)).of_map _
  · rw [mem_half, mem_putSlot h, mem_half]
    refine ⟨?_, ?_⟩
    · rintro ⟨⟨-, hm⟩ | ⟨-, rfl⟩, hq⟩
      · exact ⟨hm, hq⟩
      · exact absurd hq hb
    · intro hx
      obtain ⟨hm, hq⟩ := hx
      exact ⟨.inl ⟨fun e => hb (e ▸ hq), hm⟩, hq⟩

/-! ## The root binds the content -/

/-- Everything hashed below a node with prefix `bits`. -/
def Trie.hashed (sha : Bytes → Word) : List Bool → Trie → List Bytes
  | bits, .leaf b => (List.range LEAF_SIZE).map fun i => leafExt bits i (bucketToLeaf sha b i)
  | bits, .node l r => List.zipWith nodeExt (l.hashes sha (bits ++ [false]))
      (r.hashes sha (bits ++ [true])) ++
      (l.hashed sha (bits ++ [false]) ++ r.hashed sha (bits ++ [true]))

/-- Everything hashed for the root, keys apart. -/
def rootHashed (sha : Bytes → Word) (t : Trie) : List Bytes :=
    listExt (t.hashes sha []) :: t.hashed sha []

theorem hashes_length : ∀ (t : Trie) (bits : List Bool), (t.hashes sha bits).length = LEAF_SIZE
  | .leaf _, _ => by simp [Trie.hashes, bucketToLeafes]
  | .node l r, bits => by
    simp [Trie.hashes, nodeHashes, hashes_length l, hashes_length r]

/-- `sha` is injective on the strings of `S`. -/
def InjOn (sha : Bytes → Word) (S : List Bytes) : Prop := ∀ x ∈ S, ∀ y ∈ S, sha x = sha y → x = y

theorem InjOn.mono {S T : List Bytes} (h : InjOn sha T) (hs : ∀ x ∈ S, x ∈ T) : InjOn sha S :=
  fun x hx y hy => h x (hs x hx) y (hs y hy)

theorem map_sha_inj {S : List Bytes} (h : InjOn sha S) : ∀ {l m : List Bytes}, (∀ x ∈ l, x ∈ S) →
    (∀ x ∈ m, x ∈ S) → l.map sha = m.map sha → l = m
  | [], [], _, _, _ => rfl
  | [], _ :: _, _, _, e => by simp at e
  | _ :: _, [], _, _, e => by simp at e
  | x :: l, y :: m, hl, hm, e => by
    simp only [List.map_cons, List.cons.injEq] at e
    rw [h x (hl x (by simp)) y (hm y (by simp)) e.1,
      map_sha_inj h (fun z hz => hl z (by simp [hz])) (fun z hz => hm z (by simp [hz])) e.2]

theorem nodeHashes_eq (l r : List Word) : nodeHashes sha l r = (List.zipWith nodeExt l r).map sha := by
  simp [nodeHashes, List.map_zipWith]

theorem zipWith_nodeExt_inj : ∀ {a b c d : List Word}, a.length = b.length → c.length = d.length →
    List.zipWith nodeExt a b = List.zipWith nodeExt c d → a = c ∧ b = d
  | [], [], [], [], _, _, _ => ⟨rfl, rfl⟩
  | [], [], c :: cs, d :: ds, _, _, h => by simp at h
  | a :: as, b :: bs, [], [], _, _, h => by simp at h
  | a :: as, b :: bs, c :: cs, d :: ds, h1, h2, h => by
    simp only [List.zipWith_cons_cons, List.cons.injEq] at h
    obtain ⟨rfl, rfl⟩ := nodeExt_inj h.1
    obtain ⟨rfl, rfl⟩ := zipWith_nodeExt_inj (by simpa using h1) (by simpa using h2) h.2
    exact ⟨rfl, rfl⟩
  | [], _ :: _, _, _, h, _, _ => by simp at h
  | _ :: _, [], _, _, h, _, _ => by simp at h
  | _, _, [], _ :: _, _, h, _ => by simp at h
  | _, _, _ :: _, [], _, h, _ => by simp at h

theorem mem_bucketToLeaf {b : List Pair} {i : Nat} {p : Pair} :
    p ∈ bucketToLeaf sha b i ↔ p ∈ b ∧ hashToLeafindex sha p.1 = i := by
  simp [bucketToLeaf]

theorem hashToLeafindex_lt (k : Bytes) : hashToLeafindex sha k < LEAF_SIZE :=
  Nat.mod_lt _ (by decide)

/-- Two buckets whose sixteen leaves agree hold the same pairs. -/
theorem bucket_eq {b c : List Pair} (hb : Assoc.Sorted b) (hc : Assoc.Sorted c)
    (h : ∀ i < LEAF_SIZE, bucketToLeaf sha b i = bucketToLeaf sha c i) : b = c := by
  have key : ∀ p, p ∈ b ↔ p ∈ c := by
    intro p
    have := h _ (@hashToLeafindex_lt sha p.1)
    constructor <;> intro hp
    · exact (mem_bucketToLeaf.1 (this ▸ mem_bucketToLeaf.2 ⟨hp, rfl⟩)).1
    · exact (mem_bucketToLeaf.1 (this.symm ▸ mem_bucketToLeaf.2 ⟨hp, rfl⟩)).1
  exact sorted_perm_eq hb hc ((List.perm_ext_iff_of_nodup ((sorted_nodup hb).of_map _)
    ((sorted_nodup hc).of_map _)).2 key)

/-- Equal hashes at one prefix come from equal tries. -/
theorem hashes_inj : ∀ {t u : Trie} {bits : List Bool}, t.WF sha bits → u.WF sha bits →
    (∀ p ∈ t.pairs, p.1.length < 256) → (∀ p ∈ u.pairs, p.1.length < 256) → bits.length ≤ MAX_BITS →
    InjOn sha (t.hashed sha bits ++ u.hashed sha bits) → t.hashes sha bits = u.hashes sha bits → t = u
  | .leaf b, .leaf c, bits, ht, hu, kt, ku, _, hi, h => by
    have hmap : ∀ b : List Pair, bucketToLeafes sha bits b = ((Trie.leaf b).hashed sha bits).map sha := by
      intro b; simp [bucketToLeafes, Trie.hashed]
    simp only [Trie.hashes, hmap] at h
    have he := map_sha_inj hi (fun x hx => List.mem_append_left _ hx)
      (fun x hx => List.mem_append_right _ hx) h
    simp only [Trie.hashed, List.map_inj_left, List.mem_range] at he
    have : b = c := bucket_eq ht.1 hu.1 fun i hlt => leafExt_inj
      (fun p hp => kt p (mem_bucketToLeaf.1 hp).1)
      (fun p hp => ku p (mem_bucketToLeaf.1 hp).1) (he i hlt)
    rw [this]
  | .node l r, .node l' r', bits, ht, hu, kt, ku, _, hi, h => by
    have hlt := ht.1
    simp only [Trie.hashes, nodeHashes_eq] at h
    have he := map_sha_inj hi (fun x hx => List.mem_append_left _ (List.mem_append_left _ hx))
      (fun x hx => List.mem_append_right _ (List.mem_append_left _ hx)) h
    obtain ⟨h1, h2⟩ := zipWith_nodeExt_inj (by simp [hashes_length]) (by simp [hashes_length]) he
    have e1 : l = l' := hashes_inj ht.2.1 hu.2.1 (fun p hp => kt p (List.mem_append_left _ hp))
      (fun p hp => ku p (List.mem_append_left _ hp)) (by simp; omega)
      (hi.mono fun x hx => by simp only [Trie.hashed, List.mem_append] at hx ⊢; tauto) h1
    have e2 : r = r' := hashes_inj ht.2.2 hu.2.2 (fun p hp => kt p (List.mem_append_right _ hp))
      (fun p hp => ku p (List.mem_append_right _ hp)) (by simp; omega)
      (hi.mono fun x hx => by simp only [Trie.hashed, List.mem_append] at hx ⊢; tauto) h2
    rw [e1, e2]
  | .leaf b, .node l r, bits, ht, hu, _, _, hb, hi, h => by
    exact absurd h (leaf_ne_node hb hi)
  | .node l r, .leaf b, bits, ht, hu, _, _, hb, hi, h => by
    exact absurd h.symm (leaf_ne_node hb (hi.mono fun x hx => by
      simp only [List.mem_append] at hx ⊢; exact hx.symm))
where
  leaf_ne_node {b : List Pair} {l r : Trie} {bits : List Bool} (hb : bits.length ≤ MAX_BITS)
      (hi : InjOn sha ((Trie.leaf b).hashed sha bits ++ (Trie.node l r).hashed sha bits)) :
      (Trie.leaf b).hashes sha bits ≠ (Trie.node l r).hashes sha bits := by
    intro h
    have hmap : bucketToLeafes sha bits b = ((Trie.leaf b).hashed sha bits).map sha := by
      simp [bucketToLeafes, Trie.hashed]
    simp only [Trie.hashes, hmap, nodeHashes_eq] at h
    have he := map_sha_inj hi (fun x hx => List.mem_append_left _ hx)
      (fun x hx => List.mem_append_right _ (List.mem_append_left _ hx)) h
    have h0 := congrArg (·[0]?) he
    simp only [Trie.hashed, List.getElem?_map, List.getElem?_zipWith] at h0
    obtain ⟨x, hx⟩ : ∃ x, (l.hashes sha (bits ++ [false]))[0]? = some x :=
      ⟨_, List.getElem?_eq_getElem (by rw [hashes_length]; decide)⟩
    obtain ⟨y, hy⟩ : ∃ y, (r.hashes sha (bits ++ [true]))[0]? = some y :=
      ⟨_, List.getElem?_eq_getElem (by rw [hashes_length]; decide)⟩
    rw [hx, hy] at h0
    simp [LEAF_SIZE] at h0
    exact leafExt_ne_nodeExt hb _ _ _ _ h0

/-- **Binding.** Two contents with equal canonical roots are equal, when `sha`
is injective on what is hashed for the two. -/
theorem canonicalRoot_inj {c d : List Pair}
    (hc : (shapeAt sha [] c).WF sha []) (hd : (shapeAt sha [] d).WF sha [])
    (sc : Assoc.Sorted c) (sd : Assoc.Sorted d) (kc : ∀ p ∈ c, p.1.length < 256)
      (kd : ∀ p ∈ d, p.1.length < 256)
    (hi : InjOn sha (rootHashed sha (shapeAt sha [] c) ++ rootHashed sha (shapeAt sha [] d)))
    (h : canonicalRoot sha c = canonicalRoot sha d) : c = d := by
  have h1 := hi _ (by simp [rootHashed]) _ (by simp [rootHashed]) h
  have h2 := listExt_inj (by simp [hashes_length]) h1
  have ht := hashes_inj hc hd (fun p hp => kc p ((split_perm _ _ _).mem_iff.1 hp))
    (fun p hp => kd p ((split_perm _ _ _).mem_iff.1 hp)) (by simp) (hi.mono fun x hx => by
      simp only [rootHashed, List.mem_append, List.mem_cons] at hx ⊢; tauto) h2
  have hp : c.Perm (shapeAt sha [] c).pairs := (split_perm _ _ c).symm
  rw [ht] at hp
  exact sorted_perm_eq sc sd (hp.trans (split_perm _ _ _))

end
end Diode.L2
