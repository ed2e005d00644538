import Diode.Core.SMap
import Diode.L4Evm.Transaction
import Mathlib.Data.List.Nodup

/-!
# The transaction pool

`Chain.Pool` keeps the transactions that wait for a block by their hash, and
proposes as many as a block is likely to hold. The proposal sorts by gas price
with the smallest first and then cuts, so that a pool that is larger than a
block gives its cheapest transactions.

* `proposal_iff`: the proposal is what it says, the dearest transactions by
  nonce, exactly for the pools that need no cut, and those of one gas price.
-/
namespace Diode.L5
open Diode.Core Diode.L4

/-- `%Chain.Pool{}`: the transactions by hash. -/
structure Pool (hash : Transaction → Word) where
  transactions : SMap Word Transaction
  keyed : ∀ key tx, transactions.get key = some tx → hash tx = key

/-- `Enum.sort` by a number, asked with `<`. Equal elements come in any order. -/
structure Sorting where
  sort : {α : Type} → (α → Nat) → List α → List α
  perm : ∀ {α : Type} (key : α → Nat) (l : List α), (sort key l).Perm l
  ascending : ∀ {α : Type} (key : α → Nat) (l : List α),
    (sort key l).Pairwise fun a b => key a ≤ key b

namespace Pool

/-- mirrors lib/chain.ex:110-112 -/
def gas_limit : Nat := 20000000

/-- mirrors lib/chain.ex:120-122 -/
def average_transaction_gas : Nat := 200000

/-- `floor(limit / avg * 1.2)`; the floats are exact here. -/
def share : Nat := gas_limit * 12 / (average_transaction_gas * 10)

section
variable {hash : Transaction → Word}

/-- mirrors lib/chain/pool.ex:16-18 -/
def init : Pool hash := ⟨.empty, fun _ _ h => by cases h⟩

/-- `Map.delete`. -/
def delete (pool : Pool hash) (key : Word) : Pool hash where
  transactions := pool.transactions.del key
  keyed k tx h := by
    rw [SMap.get_del] at h
    split at h
    · nomatch h
    · exact pool.keyed k tx h

/-- mirrors lib/chain/pool.ex:30-34 -/
def remove_transactions (pool : Pool hash) (keys : List Word) : Pool hash := keys.foldl delete pool

/-- mirrors lib/chain/pool.ex:20-22 -/
def remove_transaction (pool : Pool hash) (key : Word) : Pool hash := pool.remove_transactions [key]

/-- mirrors lib/chain/pool.ex:37-54 -/
def add_transaction (pool : Pool hash) (tx : Transaction) : Pool hash where
  transactions := pool.transactions.put (hash tx) tx
  keyed k tx' h := by
    rw [SMap.get_put] at h
    split at h
    · rename_i e
      cases h
      exact e
    · exact pool.keyed k tx' h

/-- mirrors lib/chain/pool.ex:56-66 -/
def replace_transaction (pool : Pool hash) (old_tx new_tx : Transaction) : Pool hash :=
  (pool.add_transaction new_tx).delete (hash old_tx)

/-- `Map.values`; what order they come in does not matter to a sort.
mirrors lib/chain/pool.ex:89-95 -/
def values (pool : Pool hash) : List Transaction := pool.transactions.entries.map Prod.snd

/-- mirrors lib/chain/pool.ex:69-74 -/
def flush (pool : Pool hash) : List Transaction × Pool hash := (pool.values, init)

/-- mirrors lib/chain/pool.ex:76-87 -/
def proposal (sorting : Sorting) (pool : Pool hash) : List Transaction :=
  sorting.sort Transaction.nonce
    ((sorting.sort Transaction.gasPrice pool.values).take share)

/-- What a proposal is to be. The nonces increase over all senders, so they do
for each. -/
structure Optimal (sorting : Sorting) (pool : Pool hash) : Prop where
  distinct : (pool.proposal sorting).Nodup
  pooled : ∀ tx ∈ pool.proposal sorting, tx ∈ pool.values
  bounded : (pool.proposal sorting).length ≤ share
  all : pool.values.length ≤ share → ∀ tx ∈ pool.values, tx ∈ pool.proposal sorting
  nonces : (pool.proposal sorting).Pairwise fun a b => a.nonce ≤ b.nonce
  prices : ∀ taken ∈ pool.proposal sorting, ∀ tx ∈ pool.values, tx ∉ pool.proposal sorting →
    tx.gasPrice ≤ taken.gasPrice

end

/-! ## Cutting a sorted list -/

section
variable {α : Type} {key : α → Nat} {l : List α} {n : Nat}

/-- The elements behind a cut are not smaller than those before it. They are not
greater either only where all are the same. -/
theorem drop_le_take_iff (h : l.Pairwise fun a b => key a ≤ key b) (hn : 0 < n) :
    (∀ a ∈ l.take n, ∀ b ∈ l.drop n, key b ≤ key a) ↔
      l.length ≤ n ∨ ∀ a ∈ l, ∀ b ∈ l, key a = key b := by
  have hcut : ∀ a ∈ l.take n, ∀ b ∈ l.drop n, key a ≤ key b := by
    rw [← List.take_append_drop n l] at h
    exact (List.pairwise_append.1 h).2.2
  constructor
  · intro hle
    by_cases hlen : l.length ≤ n
    · exact Or.inl hlen
    · right
      obtain ⟨first, hfirst⟩ : ∃ x, x ∈ l.take n :=
        List.exists_mem_of_length_pos (by rw [List.length_take]; omega)
      obtain ⟨last, hlast⟩ : ∃ x, x ∈ l.drop n :=
        List.exists_mem_of_length_pos (by rw [List.length_drop]; omega)
      have hsame : ∀ a ∈ l, key a = key first := by
        intro a ha
        have hf := hcut first hfirst last hlast
        rw [← List.take_append_drop n l, List.mem_append] at ha
        rcases ha with ha | ha
        · have h1 := hcut a ha last hlast
          have h2 := hle a ha last hlast
          have h3 := hle first hfirst last hlast
          omega
        · exact Nat.le_antisymm (hle first hfirst a ha) (hcut first hfirst a ha)
      intro a ha b hb
      rw [hsame a ha, hsame b hb]
  · rintro (hlen | hsame)
    · rw [List.drop_of_length_le hlen]
      intro a _ b hb
      nomatch hb
    · intro a ha b hb
      exact Nat.le_of_eq (hsame b (List.mem_of_mem_drop hb) a (List.mem_of_mem_take ha))

/-- In a list without repetition what is not taken is left. -/
theorem mem_drop_iff (h : l.Nodup) {a : α} : a ∈ l.drop n ↔ a ∈ l ∧ a ∉ l.take n := by
  rw [← List.take_append_drop n l] at h
  have hdisj := (List.nodup_append.1 h).2.2
  constructor
  · intro hd
    exact ⟨List.mem_of_mem_drop hd, fun ht => hdisj a ht a hd rfl⟩
  · rintro ⟨hm, ht⟩
    rw [← List.take_append_drop n l, List.mem_append] at hm
    exact hm.resolve_left ht

end

/-! ## The proposal -/

variable {hash : Transaction → Word} {sorting : Sorting} {pool : Pool hash}

/-- A transaction is pooled once. -/
theorem values_nodup (pool : Pool hash) : pool.values.Nodup := by
  have hkeys : pool.transactions.entries.map Prod.fst = pool.values.map hash := by
    unfold values
    rw [List.map_map]
    apply List.map_congr_left
    rintro ⟨key, tx⟩ hm
    exact (pool.keyed key tx ((pool.transactions.mem_iff key tx).1 hm)).symm
  have hnodup := pool.transactions.keys_nodup
  rw [hkeys] at hnodup
  exact hnodup.of_map _

/-- The pool with the cheapest transactions first. -/
def cheapest (sorting : Sorting) (pool : Pool hash) : List Transaction :=
  sorting.sort Transaction.gasPrice pool.values

theorem cheapest_perm : (cheapest sorting pool).Perm pool.values := sorting.perm ..

theorem cheapest_nodup : (cheapest sorting pool).Nodup := cheapest_perm.nodup_iff.2 pool.values_nodup

theorem proposal_perm : (pool.proposal sorting).Perm ((cheapest sorting pool).take share) :=
  sorting.perm ..

/-- What the proposal leaves out is behind the cut. -/
theorem prices_iff : (∀ taken ∈ pool.proposal sorting, ∀ tx ∈ pool.values,
      tx ∉ pool.proposal sorting → tx.gasPrice ≤ taken.gasPrice) ↔
    pool.values.length ≤ share ∨ ∀ a ∈ pool.values, ∀ b ∈ pool.values, a.gasPrice = b.gasPrice := by
  have hcut := @drop_le_take_iff _ Transaction.gasPrice (cheapest sorting pool) share
    (sorting.ascending ..) (by decide)
  have hlen : (cheapest sorting pool).length = pool.values.length := cheapest_perm.length_eq
  have hmem : ∀ tx, tx ∈ cheapest sorting pool ↔ tx ∈ pool.values := fun tx => cheapest_perm.mem_iff
  have htaken : ∀ tx, tx ∈ pool.proposal sorting ↔ tx ∈ (cheapest sorting pool).take share :=
    fun tx => proposal_perm.mem_iff
  simp only [mem_drop_iff cheapest_nodup, hlen, hmem, and_imp] at hcut
  simp only [htaken]
  exact hcut

/-- **The proposal** is right but for the end it is cut from. -/
theorem proposal_iff (sorting : Sorting) (pool : Pool hash) : Optimal sorting pool ↔
    pool.values.length ≤ share ∨ ∀ a ∈ pool.values, ∀ b ∈ pool.values, a.gasPrice = b.gasPrice := by
  rw [← prices_iff]
  refine ⟨fun h => h.prices, fun h => ⟨?_, fun tx htx => ?_, ?_, fun hlen tx htx => ?_, ?_, h⟩⟩
  · exact proposal_perm.nodup_iff.2 (cheapest_nodup.sublist (List.take_sublist ..))
  · exact cheapest_perm.mem_iff.1 (List.mem_of_mem_take (proposal_perm.mem_iff.1 htx))
  · rw [proposal_perm.length_eq, List.length_take]
    omega
  · have hle : (cheapest sorting pool).length ≤ share := by rwa [cheapest_perm.length_eq]
    rw [proposal_perm.mem_iff, List.take_of_length_le hle]
    exact cheapest_perm.mem_iff.2 htx
  · exact sorting.ascending ..

/-- Sorting by merging. -/
def merging : Sorting where
  sort key l := l.mergeSort fun a b => key a ≤ key b
  perm key l := List.mergeSort_perm ..
  ascending key l := by
    have h := @List.pairwise_mergeSort _ (fun a b => decide (key a ≤ key b))
      (fun a b c => by simp; omega) (fun a b => by simp; omega) l
    exact h.imp fun hab => of_decide_eq_true hab

/-- A transaction with a nonce and a gas price, and the hash of such. -/
def priced (n : Nat) : Transaction := ⟨n, n, 21000, some 1, 0, none, [], none, none⟩

def nonceHash (tx : Transaction) : Word := BitVec.ofNat 256 tx.nonce

/-- One transaction too many, each of its own price. -/
def crowded : Pool nonceHash :=
  (List.range 121).foldl (fun pool n => pool.add_transaction (priced n)) init

/-- The dearest transaction is left out. -/
theorem crowded_cheapest : ¬Optimal merging crowded := by
  intro h
  rcases prices_iff.1 h.prices with hlen | hsame
  · revert hlen
    decide +kernel
  · have h0 : priced 0 ∈ crowded.values := by decide +kernel
    have h1 : priced 1 ∈ crowded.values := by decide +kernel
    exact absurd (hsame _ h0 _ h1) (by decide)

end Pool
end Diode.L5
