import Diode.L2Trie.Isolation

/-!
# Merkle proofs

`get_proofs` walks to the leaf a key belongs in and keeps one sibling hash at
each node. `Proof.fold` is what a verifier computes from it, `Proof.leaf` the
term at its end.

* `fold_proof`: on a collapsed trie the fold is the entry of the sixteen hashes
  that the key selects.
* `split_proof_leaf`: the leaf holds the pair of the key, if there is one.
* `merkle_proofs`: so do the proofs of every tree, exactly when no collapse
  reads a destroyed tree.
-/
namespace Diode.L2
open Diode.Core Diode.L1.Ext ItemPool

section
variable (sha : Bytes → Word)

/-- The hash a proof stands for: a leaf term is hashed as it is, a pair like an
internal node. -/
def Proof.fold : Proof → Word
  | .pair l r => sha (nodeExt l.fold r.fold)
  | .hash h => h
  | .term t => sha t

/-- `Tree::root_hashes`.
mirrors c_src/merkletree.cpp:409-413 -/
def rootHashes (w : World) (t : TreeId) : Option (World × List Word) := do
  let root ← w.trees t
  let p ← updateMerkleHashCount sha w.live t FUEL w.pool root
  let (p, hv) ← ensureHashes p root
  some ({ w with pool := p }, hv)

end

/-- The leaf term of a proof. -/
def Proof.leaf : Proof → Option Bytes
  | .pair l r => l.leaf <|> r.leaf
  | .hash _ => none
  | .term t => some t

/-- The proof answers for `key` as the map `c` does: its fold is the hash that
`key` selects among `hashes`, its leaf has the pair of `key` if there is one. -/
structure Proof.Answers (sha : Bytes → Word) (key : Bytes) (get : Option Word) (hashes : List Word)
    (proof : Proof) : Prop where
  fold : hashes[(sha key).toNat % 256 % 16]? = some (proof.fold sha)
  leaf : ∃ bits pairs, proof.leaf = some (leafExt bits ((sha key).toNat % 256 % 16) pairs) ∧
    ∀ value, (key, value) ∈ pairs ↔ get = some value

section
variable {sha : Bytes → Word}

/-- The fold of a proof is one of the sixteen hashes of the node. -/
theorem fold_proof (key : Bytes) : ∀ (t : Trie) (bits : List Bool),
    (t.hashes sha bits)[hashToLeafindex sha key]? = some ((t.proof sha key bits).fold sha)
  | .leaf b, bits => by
    rw [Trie.hashes, Trie.proof, Proof.fold, bucketToLeafes, List.getElem?_map,
      List.getElem?_range (hashToLeafindex_lt key), Option.map_some]
  | .node l r, bits => by
    have hl := fold_proof key l (bits ++ [false])
    have hr := fold_proof key r (bits ++ [true])
    rw [Trie.hashes, Trie.proof, nodeHashes, List.getElem?_zipWith, hl, hr]
    dsimp only
    split
    · simp only [Proof.fold, List.getD_eq_getElem?_getD, hl, Option.getD_some]
    · simp only [Proof.fold, List.getD_eq_getElem?_getD, hr, Option.getD_some]

/-- The leaf at the end of a proof holds the pairs of the key, and the index it
is stored under. -/
theorem split_proof_leaf (key : Bytes) : ∀ (n : Nat) (bits : List Bool) (c : List Pair),
    ∃ bits' pairs, ((split sha n bits.length c).proof sha key bits).leaf = some
      (leafExt bits' (hashToLeafindex sha key) pairs) ∧
      ∀ value, (key, value) ∈ pairs ↔ (key, value) ∈ c
  | 0, bits, c => ⟨bits, bucketToLeaf sha c (hashToLeafindex sha key), rfl, fun value =>
      by rw [mem_bucketToLeaf]; simp⟩
  | n + 1, bits, c => by
    rw [split]
    split
    · exact ⟨bits, bucketToLeaf sha c (hashToLeafindex sha key), rfl, fun value =>
        by rw [mem_bucketToLeaf]; simp⟩
    · rw [Trie.proof]
      have hside : ∀ b, hashBit sha key bits.length = b → ∃ bits' pairs,
          ((split sha n (bits.length + 1) (half sha b bits.length c)).proof sha key
            (bits ++ [b])).leaf =
            some (leafExt bits' (hashToLeafindex sha key) pairs) ∧ ∀ value, (key, value) ∈ pairs ↔
              (key, value) ∈ c := by
        intro b hb
        obtain ⟨bits', pairs, h1, h2⟩ := split_proof_leaf key n (bits ++ [b]) (half sha b bits.length c)
        rw [List.length_append, List.length_singleton] at h1
        refine ⟨bits', pairs, h1, fun value => ?_⟩
        rw [h2, mem_half]
        exact and_iff_left hb
      split
      · rename_i hb
        obtain ⟨bits', pairs, h1, h2⟩ := hside true hb
        exact ⟨bits', pairs, by rw [Proof.leaf, Proof.leaf, h1]; rfl, h2⟩
      · rename_i hb
        obtain ⟨bits', pairs, h1, h2⟩ := hside false (Bool.not_eq_true _ ▸ hb)
        exact ⟨bits', pairs, by rw [Proof.leaf, h1]; rfl, h2⟩

theorem canonicalProof_answers {c : List Pair} (hc : Assoc.Sorted c) (key : Bytes) :
    (canonicalProof sha key c).Answers sha key (Assoc.get c key)
      ((shapeAt sha [] c).hashes sha []) := by
  refine ⟨fold_proof key _ _, ?_⟩
  obtain ⟨bits, pairs, h1, h2⟩ := split_proof_leaf key MAX_BITS [] c
  exact ⟨bits, pairs, h1, fun value => by rw [h2, Assoc.get_iff_mem hc]⟩

namespace Refines
variable {w : World} {m : Maps} {E : Slot → ItemId} {C : ItemId → List Pair} {t : TreeId} {r : ItemId}

theorem rootHashes (h : Refines sha w m E C) (ht : w.trees t = some r)
    (hs : collapseLive w.live FUEL w.pool r = true) :
    ∃ v, rootHashes sha w t = some (v, (shapeAt sha [] (C r)).hashes sha []) := by
  obtain ⟨-, it, hit, hb⟩ := h.root_node ht
  obtain ⟨p', E', hr, hu⟩ := updateMerkleHashCount_spec t h.held h.shape hit
    (by rw [hb]; exact fueled_FUEL _) hs
  obtain ⟨it', hit', hd, hb'⟩ := hu.node
  refine ⟨{ w with pool := p' }, ?_⟩
  simp only [Diode.L2.rootHashes, ht, hr, Option.bind_eq_bind, Option.bind_some,
    (hu.shape.hashes hit' hd).1, hb', hb]
  rfl

/-- `get_proofs` comes to its end only where no collapse reads a destroyed tree. -/
theorem live_of_getProofs (h : Refines sha w m E C) (ht : w.trees t = some r) {key : Bytes}
    {x : World × Proof}
    (hg : Diode.L2.getProofs sha w t key = some x) : collapseLive w.live FUEL w.pool r = true := by
  obtain ⟨-, it, hit, hb⟩ := h.root_node ht
  simp only [Diode.L2.getProofs, ht, Option.bind_eq_bind, Option.bind_some] at hg
  obtain ⟨p, hp, -⟩ := Option.bind_eq_some_iff.1 hg
  exact collapseLive_of_update t h.held h.shape hit (by rw [hb]; exact fueled_FUEL _) hp

end Refines

/-- **Merkle proofs.** In every state a sound run reaches, for every tree and
every key, `get_proofs` returns a proof that folds to the entry of `root_hashes`
which the key selects and whose leaf holds the pair of the key exactly when
`get_item` finds it, if and only if no collapse reads a destroyed tree. -/
theorem merkle_proofs (ops : List Op) (h : soundRun sha World.init Maps.init ops = true)
    {w : World} {os : List Obs}
    (hw : run sha World.init ops = some (w, os)) {t : TreeId} {r : ItemId} (ht : w.trees t = some r)
      (key : Bytes) :
    (∃ w₁ proof w₂ hashes value, getProofs sha w t key = some (w₁, proof) ∧
      rootHashes sha w t = some (w₂, hashes) ∧
      (step sha w (.getItem t key)).map Prod.snd = some (.value value) ∧
        proof.Answers sha key value hashes) ↔
    collapseLive w.live FUEL w.pool r = true := by
  obtain ⟨E₀, C₀, h₀⟩ := @refines_init sha
  obtain ⟨w', os', m, -, E, C, hw', -, -, href⟩ := run_refines h₀ h
  rw [hw, Option.some.injEq, Prod.mk.injEq] at hw'
  obtain ⟨rfl, rfl⟩ := hw'
  refine ⟨?_, ?_⟩
  · intro hx
    obtain ⟨w₁, proof, w₂, hashes, value, hg, -⟩ := hx
    exact href.live_of_getProofs ht hg
  · intro hs
    obtain ⟨w₁, -, hg, -⟩ := href.getProofs ht key hs
    obtain ⟨w₂, hh⟩ := href.rootHashes ht hs
    obtain ⟨-, it, hit, hb⟩ := href.root_node ht
    obtain ⟨b, hb1, hb2⟩ := getBucket_spec href.held href.shape key hit
      (by rw [hb]; exact fueled_FUEL _)
    refine ⟨w₁, _, w₂, _, Assoc.get (C r) key, hg, hh, ?_, canonicalProof_answers
      (href.shape.item r it hit).sorted key⟩
    simp [step, ht, hb1, hb2]

/-- Seventeen keys split the root; a copy is written on. -/
theorem merkle_proofs_copy :
    let ops := orphan.take 18 ++ [.insertItem 1 (addrKey 3) 2]
    ∃ w os r, run Sha256.sha256 World.init ops = some (w, os) ∧ w.trees 1 = some r ∧ ∀ key,
      ((∃ w₁ proof w₂ hashes value, getProofs Sha256.sha256 w 1 key = some (w₁, proof) ∧
        rootHashes Sha256.sha256 w 1 = some (w₂, hashes) ∧
        (step Sha256.sha256 w (.getItem 1 key)).map Prod.snd = some (.value value) ∧
        proof.Answers Sha256.sha256 key value hashes) ↔ collapseLive w.live FUEL w.pool r = true) := by
  intro ops
  have h : ((run Sha256.sha256 World.init ops).bind fun x => x.1.trees 1).isSome = true := by
    rw [Sha256.sha256_eq]; decide +kernel
  obtain ⟨r, hr⟩ := Option.isSome_iff_exists.1 h
  obtain ⟨⟨w, os⟩, hw, ht⟩ := Option.bind_eq_some_iff.1 hr
  exact ⟨w, os, r, hw, ht, merkle_proofs ops (by rw [Sha256.sha256_eq]; decide +kernel) hw ht⟩

/-- **Where no proof comes.** The root of the copy points to the destroyed tree
that split it; `get_proofs` on the copy reads it. -/
theorem orphan_get_proofs :
    ∃ w os r, run Sha256.sha256 World.init (orphan.take 20) = some (w, os) ∧ w.trees 1 = some r ∧
      getProofs Sha256.sha256 w 1 (addrKey 1) = none := by
  have h : ((run Sha256.sha256 World.init (orphan.take 20)).bind fun x => (x.1.trees 1).map fun _ =>
      (getProofs Sha256.sha256 x.1 1 (addrKey 1)).isSome) =
        some false := by rw [Sha256.sha256_eq]; decide +kernel
  simp only [Option.bind_eq_some_iff, Option.map_eq_some_iff, Option.isSome_eq_false_iff,
    Option.isNone_iff_eq_none] at h
  obtain ⟨⟨w, os⟩, hw, r, hr, h1⟩ := h
  exact ⟨w, os, r, hw, hr, h1⟩

end
end Diode.L2
