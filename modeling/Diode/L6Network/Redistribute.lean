import Mathlib.Data.List.TakeWhile
import Diode.L6Network.Nearest

/-!
# Redistribution

A node that joins, or is back, is sent the stored objects between the middle of
the way from its predecessor on the ring and the middle of the way to its
successor, as a range of keys. The middle of two keys is the half of their sum.
Where the way passes zero that is the place opposite to the middle: the first
node on the ring is also sent the half ring before its arc, the last one the half
ring after it.

* `redistribute_iff`: exactly the objects on the arc are sent if none is stored on
  that half ring.
-/
namespace Diode.L6.KBuckets
open Diode.Core

section
variable {ι : Type} (key : ι → Word)

/-- mirrors lib/kbuckets.ex:366-372 -/
def integer (x : ι) : Nat := (key x).toNat

/-- mirrors lib/kbuckets.ex:141-151 -/
def to_ring_list (l : List ι) (k : Nat) : List ι :=
  let sorted := (l.filter fun a => integer key a ≠ k).insertionSort fun a b =>
    integer key a < integer key b
  let (pre, post) := sorted.span fun a => integer key a < k
  post ++ pre

/-- mirrors lib/kbuckets.ex:156-158 -/
def next (l : List ι) (k : Nat) : List ι := to_ring_list key l k

/-- mirrors lib/kbuckets.ex:171-174 -/
def prev (l : List ι) (k : Nat) : List ι := (to_ring_list key l k).reverse

end

/-- The ring is `2 ^ 256` around. -/
abbrev ring : Nat := 2 ^ 256

/-- mirrors lib/kademlia.ex:359 -/
def max_key : Nat := 2 ^ 256 - 1

/-- mirrors lib/kademlia.ex:473-477 -/
def filter_online (self_id : Addr) (online : Addr → Bool) (list : List Item) : List Item :=
  list.filter fun item => item.node_id = self_id || online item.node_id

section
variable {ν : Type}

/-- The `WHERE` of the two queries. -/
def Selected (range_start range_end x : Nat) : Prop :=
  if range_start < range_end then range_start ≤ x ∧ x ≤ range_end else range_start ≤ x ∨ x ≤ range_end

instance (s e x : Nat) : Decidable (Selected s e x) := by
  unfold Selected
  infer_instance

/-- The objects of a range and the rows kept in `p2p_objects`: a row whose key is
not the one of its object is deleted.
mirrors lib/model/kademliasql.ex:79-106 -/
def objects (key_hash : ν → Option Word) (table : List (Word × ν)) (range_start range_end : Nat) :
    List (Word × ν) × List (Word × ν) :=
  ((table.filter fun row => Selected range_start range_end row.1.toNat).filter fun row =>
    key_hash row.2 = some row.1,
    table.filter fun row => ¬Selected range_start range_end row.1.toNat ∨ key_hash row.2 = some row.1)

/-- The two `case` expressions of `redistribute`: the key of the first of a list of
nodes, or the node's own. -/
def first_key (hash : Addr → Word) (list : List Item) (nodei : Nat) : Nat :=
  match list with
  | first :: _ => integer (Item.key hash) first
  | [] => nodei

/-- The `store` messages and the table after; `none` where the node is not found.
mirrors lib/kademlia.ex:360-385 -/
def redistribute (hash : Addr → Word) (online : Addr → Bool) (key_hash : ν → Option Word)
    (network : KBucket)
    (table : List (Word × ν)) (node : Addr) : Option (List (Item × Word × ν) × List (Word × ν)) := do
  let list := network.tree.to_list
  let node ← item (Item.key hash) list (hash node)
  let nodei := integer (Item.key hash) node
  let previ := first_key hash
    (filter_online network.self_id online (prev (Item.key hash) list nodei)) nodei
  let nexti := first_key hash
    (filter_online network.self_id online (next (Item.key hash) list nodei)) nodei
  let range_start := (previ + nodei) / 2 % max_key
  let range_end := (nexti + nodei) / 2 % max_key
  let (objs, table) := objects key_hash table range_start range_end
  return (objs.map fun row => (node, row), table)

end

/-! ## The arc of a node -/

/-- Of the other nodes `p` comes last before `k`, and `s` first after it. -/
structure Neighbours (others : List Nat) (k p s : Nat) : Prop where
  pred_mem : p ∈ others
  pred : ∀ o ∈ others, clockwise ring p k ≤ clockwise ring o k
  succ_mem : s ∈ others
  succ : ∀ o ∈ others, clockwise ring k s ≤ clockwise ring k o

/-- From the middle of the way from `p` to the middle of the way to `s`. -/
def OnArc (p k s x : Nat) : Prop := OnWay ring (midway ring p k) (midway ring k s) x

/-- Off the arc, on the half ring before it if the way from `p` passes zero, on
the one after it if the way to `s` does. -/
def Opposite (p k s x : Nat) : Prop :=
  ¬OnArc p k s x ∧
    (k < p ∧ ring / 2 ≤ clockwise ring (midway ring p k) x ∨ s < k ∧ clockwise ring
      (midway ring k s) x ≤ ring / 2)

/-- The keys a node is to have. -/
def Share (others : List Nat) (k x : Nat) : Prop := others = [] ∨ ∃ p s, Neighbours others k p s ∧ OnArc p k s x

/-- The keys it is sent besides. -/
def Stray (others : List Nat) (k x : Nat) : Prop := ∃ p s, Neighbours others k p s ∧ Opposite p k s x

variable {others : List Nat} {k p s x : Nat}

theorem selected_alone : Selected ((k + k) / 2 % max_key) ((k + k) / 2 % max_key) x := by
  unfold Selected
  rw [if_neg (Nat.lt_irrefl _)]
  omega

theorem selected_of_lt {a b : Nat} (h : a < b) : Selected a b x ↔ a ≤ x ∧ x ≤ b := by
  unfold Selected
  rw [if_pos h]

theorem selected_of_le {a b : Nat} (h : b ≤ a) : Selected a b x ↔ a ≤ x ∨ x ≤ b := by
  unfold Selected
  rw [if_neg (Nat.not_lt.2 h)]

theorem ring_eq : ring = 2 * 2 ^ 255 := rfl

/-- Between two other nodes: the middles are the halves of the sums. -/
theorem selected_between (hp : p < k) (hs : k < s) (hsr : s < ring) :
    (Selected ((p + k) / 2) ((s + k) / 2) x ↔ OnArc p k s x) ∧ ¬Opposite p k s x := by
  have hmp : midway ring p k = (p + k) / 2 := midway_of_le hp.le (by omega)
  have hms : midway ring k s = (s + k) / 2 := (midway_of_le hs.le hsr).trans (by rw [Nat.add_comm])
  refine ⟨?_, fun h => by have := h.2; omega⟩
  rw [selected_of_lt (by omega), OnArc, hmp, hms, onWay_of_le (by omega) (by omega)]

/-- The first node on the ring: its arc begins on the other half. -/
theorem selected_first (hs : k < s) (hsp : s ≤ p) (hp : p < ring) (hx : x < ring) :
    Selected ((p + k) / 2) ((s + k) / 2) x ↔ OnArc p k s x ∨ Opposite p k s x := by
  have hms : midway ring k s = (s + k) / 2 := (midway_of_le hs.le (by omega)).trans
    (by rw [Nat.add_comm])
  have hmp : midway ring p k = if p + k < ring then (p + k) / 2 + 2 ^ 255 else (p + k) / 2 - 2 ^ 255 :=
    midway_of_lt (by omega) hp ring_eq
  rw [selected_of_le (by omega), Opposite, OnArc, hms, hmp]
  have hnot : ¬s < k := by omega
  simp only [hnot, false_and, or_false, show k < p by omega, true_and]
  by_cases h : p + k < ring
  · rw [if_pos h, onWay_of_lt (by omega) (by rw [ring_eq] at *; omega) hx]
    unfold clockwise
    split <;> rw [ring_eq] at * <;> omega
  · rw [if_neg h, onWay_of_le (by rw [ring_eq] at *; omega) (by omega)]
    unfold clockwise
    split <;> rw [ring_eq] at * <;> omega

/-- The last node on the ring: its arc ends on the other half. -/
theorem selected_last (hp : p < k) (hsp : s ≤ p) (hk : k < ring) (hx : x < ring) :
    Selected ((p + k) / 2) ((s + k) / 2) x ↔ OnArc p k s x ∨ Opposite p k s x := by
  have hmp : midway ring p k = (p + k) / 2 := midway_of_le hp.le (by omega)
  have hms : midway ring k s = if k + s < ring then (k + s) / 2 + 2 ^ 255 else (k + s) / 2 - 2 ^ 255 :=
    midway_of_lt (by omega) hk ring_eq
  rw [selected_of_le (by omega), Opposite, OnArc, hms, hmp]
  have hnot : ¬k < p := by omega
  simp only [hnot, false_and, false_or, show s < k by omega, true_and]
  by_cases h : k + s < ring
  · rw [if_pos h, onWay_of_le (by rw [ring_eq] at *; omega) (by rw [ring_eq] at *; omega)]
    unfold clockwise
    split <;> rw [ring_eq] at * <;> omega
  · rw [if_neg h, onWay_of_lt (by rw [ring_eq] at *; omega) (by omega) hx]
    unfold clockwise
    split <;> rw [ring_eq] at * <;> omega

/-- What is selected is the arc with what is opposite. -/
theorem selected_iff (hp : p < ring) (hk : k < ring) (hs : s < ring) (hx : x < ring)
    (hpk : p ≠ k) (hsk : s ≠ k)
    (hpred : clockwise ring p k ≤ clockwise ring s k)
      (hsucc : clockwise ring k s ≤ clockwise ring k p) :
    Selected ((p + k) / 2 % max_key) ((s + k) / 2 % max_key) x ↔ OnArc p k s x ∨ Opposite p k s x := by
  have hmod : ∀ a, a < ring → a ≠ k → (a + k) / 2 % max_key = (a + k) / 2 := fun a ha hak =>
    Nat.mod_eq_of_lt (by rw [ring_eq] at *; unfold max_key; omega)
  rw [hmod p hp hpk, hmod s hs hsk]
  rcases Nat.lt_or_gt_of_ne hpk with hlow | hhigh
  · rcases Nat.lt_or_gt_of_ne hsk with hlast | hmid
    · rw [clockwise_of_le hlow.le, clockwise_of_le hlast.le] at hpred
      exact selected_last hlow (by omega) hk hx
    · obtain ⟨hiff, hnot⟩ := @selected_between k p s x hlow hmid hs
      rw [hiff, or_iff_left hnot]
  · have hmid : k < s := by
      by_contra hle
      rw [clockwise_of_lt (show s < k by omega), clockwise_of_le hhigh.le] at hsucc
      omega
    rw [clockwise_of_le hmid.le, clockwise_of_le hhigh.le] at hsucc
    exact selected_first hmid (by omega) hp hx

/-! ## The order of the ring list -/

section
variable {ι : Type} {key : ι → Word} {l : List ι}

theorem sorted_by (f : ι → Nat) : ∀ l : List ι, (l.insertionSort fun a b => f a < f b).Pairwise
    fun a b => f a ≤ f b
  | [] => .nil
  | a :: l => by
    rw [List.insertionSort_cons]
    have hsort := sorted_by f l
    generalize l.insertionSort (fun a b => f a < f b) = sorted at hsort
    induction sorted with
    | nil => simp
    | cons b bs ih =>
      obtain ⟨hb, hbs⟩ := List.pairwise_cons.1 hsort
      rw [List.orderedInsert_cons]
      split
      · rename_i hlt
        refine List.pairwise_cons.2 ⟨fun c hc => ?_, hsort⟩
        rcases List.mem_cons.1 hc with rfl | hc
        · exact hlt.le
        · exact hlt.le.trans (hb c hc)
      · rename_i hle
        refine List.pairwise_cons.2 ⟨fun c hc => ?_, ih hbs⟩
        rcases List.mem_cons.1 ((List.perm_orderedInsert ..).mem_iff.1 hc) with rfl | hc
        · exact Nat.not_lt.1 hle
        · exact hb c hc

/-- Of a sorted list the rest has no smaller ones. -/
theorem not_lt_of_mem_dropWhile {f : ι → Nat} : ∀ {l : List ι}, l.Pairwise (fun a b => f a ≤ f b) →
    ∀ {a : ι}, a ∈ l.dropWhile (fun a => f a < k) → k ≤ f a
  | b :: l, hs, a, ha => by
    obtain ⟨hb, hl⟩ := List.pairwise_cons.1 hs
    rw [List.dropWhile_cons] at ha
    split at ha
    · exact not_lt_of_mem_dropWhile hl ha
    · rename_i hge
      have hge : k ≤ f b := by simpa using hge
      rcases List.mem_cons.1 ha with rfl | ha
      · exact hge
      · exact hge.trans (hb a ha)

theorem to_ring_list_eq (key : ι → Word) (l : List ι) (k : Nat) : ∃ sorted : List ι,
    (sorted.Pairwise fun a b => integer key a ≤ integer key b) ∧
      (∀ a, a ∈ sorted ↔ a ∈ l ∧ integer key a ≠ k) ∧
      to_ring_list key l k = sorted.dropWhile (fun a => integer key a < k) ++ sorted.takeWhile
        fun a => integer key a < k := by
  refine ⟨_, sorted_by (integer key) (l.filter fun a => integer key a ≠ k), fun a => ?_, ?_⟩
  · rw [(List.perm_insertionSort ..).mem_iff, List.mem_filter, decide_eq_true_eq]
  · unfold to_ring_list
    dsimp only
    rw [List.span_eq_takeWhile_dropWhile]

theorem mem_to_ring_list {a : ι} : a ∈ to_ring_list key l k ↔ a ∈ l ∧ integer key a ≠ k := by
  obtain ⟨sorted, -, hmem, heq⟩ := to_ring_list_eq key l k
  rw [heq, List.mem_append, or_comm, ← List.mem_append, List.takeWhile_append_dropWhile, hmem]

/-- The ring list is in clockwise order from the key. -/
theorem pairwise_to_ring_list :
    (to_ring_list key l k).Pairwise fun a b => clockwise ring k (integer key a) ≤ clockwise ring k
      (integer key b) := by
  obtain ⟨sorted, hsort, -, heq⟩ := to_ring_list_eq key l k
  have hlow : ∀ a ∈ sorted.takeWhile (fun a => integer key a < k), integer key a < k := fun a ha => by
    simpa using List.mem_takeWhile_imp ha
  have hhigh : ∀ a ∈ sorted.dropWhile (fun a => integer key a < k), k ≤ integer key a := fun a ha =>
    not_lt_of_mem_dropWhile hsort ha
  rw [heq, List.pairwise_append]
  refine ⟨?_, ?_, fun a ha b hb => ?_⟩
  · refine (hsort.sublist (List.dropWhile_sublist _)).imp_of_mem fun ha hb hle => ?_
    rw [clockwise_of_le (hhigh _ ha), clockwise_of_le (hhigh _ hb)]
    omega
  · refine (hsort.sublist (List.takeWhile_sublist _)).imp_of_mem fun ha hb hle => ?_
    rw [clockwise_of_lt (hlow _ ha), clockwise_of_lt (hlow _ hb)]
    omega
  · have := hlow b hb
    have : integer key a < ring := (key a).isLt
    rw [clockwise_of_le (hhigh a ha), clockwise_of_lt (hlow b hb)]
    omega

end

/-! ## The neighbours -/

/-- The keys of the online nodes but that one. -/
def online_others (hash : Addr → Word) (online : Addr → Bool) (network : KBucket) (k : Nat) : List Nat :=
  ((filter_online network.self_id online network.tree.to_list).map (integer (Item.key hash))).filter
    fun o => o ≠ k

variable {hash : Addr → Word} {online : Addr → Bool} {network : KBucket}

theorem mem_online_others {o : Nat} : o ∈ online_others hash online network k ↔
    ∃ x ∈ filter_online network.self_id online (to_ring_list (Item.key hash) network.tree.to_list k),
      integer (Item.key hash) x = o := by
  simp only [online_others, filter_online, List.mem_filter, List.mem_map, mem_to_ring_list,
    decide_eq_true_eq]
  refine ⟨?_, ?_⟩
  · intro h
    obtain ⟨⟨x, ⟨hx, hon⟩, rfl⟩, hne⟩ := h
    exact ⟨x, ⟨⟨hx, hne⟩, hon⟩, rfl⟩
  · intro h
    obtain ⟨x, ⟨⟨hx, hne⟩, hon⟩, rfl⟩ := h
    exact ⟨⟨x, ⟨hx, hon⟩, rfl⟩, hne⟩

theorem online_others_lt {o : Nat} (ho : o ∈ online_others hash online network k) :
    o < ring ∧ o ≠ k := by
  obtain ⟨x, hx, rfl⟩ := mem_online_others.1 ho
  exact ⟨(x.key hash).isLt, (mem_to_ring_list.1 (List.mem_of_mem_filter hx)).2⟩

/-- The first node of `next` and that of `prev` are the neighbours. -/
theorem neighbours_spec (hk : k < ring) :
    let p := first_key hash (filter_online network.self_id online
      (prev (Item.key hash) network.tree.to_list k)) k
    let s := first_key hash (filter_online network.self_id online
      (next (Item.key hash) network.tree.to_list k)) k
    (online_others hash online network k = [] ∧ p = k ∧ s = k) ∨
      Neighbours (online_others hash online network k) k p s := by
  have hmem := @mem_online_others k hash online network
  have hlt := @online_others_lt k hash online network
  have hsort : (filter_online network.self_id online
    (to_ring_list (Item.key hash) network.tree.to_list k)).Pairwise
      fun a b => clockwise ring k (integer (Item.key hash) a) ≤ clockwise ring k
        (integer (Item.key hash) b) :=
    pairwise_to_ring_list.filter _
  have hrev : filter_online network.self_id online (prev (Item.key hash) network.tree.to_list k) =
      (filter_online network.self_id online
        (to_ring_list (Item.key hash) network.tree.to_list k)).reverse :=
    List.filter_reverse ..
  rw [hrev, next]
  generalize filter_online network.self_id online
    (to_ring_list (Item.key hash) network.tree.to_list k) = r at *
  cases hr : r with
  | nil =>
    refine .inl ⟨List.eq_nil_iff_forall_not_mem.2 fun o ho => ?_, rfl, rfl⟩
    obtain ⟨x, hx, -⟩ := hmem.1 ho
    rw [hr] at hx
    exact List.not_mem_nil hx
  | cons s rest =>
    obtain ⟨p, rest', hp⟩ := List.exists_cons_of_ne_nil (show (s :: rest).reverse ≠ [] by simp)
    have hpr : p ∈ r := by
      rw [hr, ← List.mem_reverse, hp]
      exact List.mem_cons_self
    have hfirst : ∀ x ∈ r, clockwise ring k (integer (Item.key hash) s) ≤ clockwise ring k
      (integer (Item.key hash) x) := by
      rw [hr] at hsort ⊢
      intro x hx
      rcases List.mem_cons.1 hx with rfl | hx
      · exact Nat.le_refl _
      · exact (List.pairwise_cons.1 hsort).1 x hx
    have hlast : ∀ x ∈ r, clockwise ring k (integer (Item.key hash) x) ≤ clockwise ring k
      (integer (Item.key hash) p) := by
      intro x hx
      rw [hr, ← List.pairwise_reverse, hp] at hsort
      rw [hr, ← List.mem_reverse, hp] at hx
      rcases List.mem_cons.1 hx with rfl | hx
      · exact Nat.le_refl _
      · exact (List.pairwise_cons.1 hsort).1 x hx
    rw [hp]
    refine .inr ⟨hmem.2 ⟨p, hpr, rfl⟩, fun o ho => ?_, hmem.2 ⟨s, by simp [hr], rfl⟩, fun o ho => ?_⟩
    · obtain ⟨x, hx, rfl⟩ := hmem.1 ho
      have hpo := hlt (hmem.2 ⟨p, hpr, rfl⟩)
      have hxo := hlt ho
      have := hlast x hx
      have := clockwise_add hk hpo.1 hpo.2.symm
      have := clockwise_add hk hxo.1 hxo.2.symm
      show clockwise ring (integer (Item.key hash) p) k ≤ _
      omega
    · obtain ⟨x, hx, rfl⟩ := hmem.1 ho
      exact hfirst x hx

/-! ## What is sent -/

section
variable {ν : Type} {key_hash : ν → Option Word} {table : List (Word × ν)} {node : Addr}

/-- There is one predecessor and one successor. -/
theorem Neighbours.unique {p' s' : Nat} (h : Neighbours others k p s)
    (h' : Neighbours others k p' s') (hk : k < ring)
    (hlt : ∀ o ∈ others, o < ring) : p = p' ∧ s = s' := by
  have hp := Nat.le_antisymm (h.pred _ h'.pred_mem) (h'.pred _ h.pred_mem)
  have hs := Nat.le_antisymm (h.succ _ h'.succ_mem) (h'.succ _ h.succ_mem)
  exact ⟨clockwise_inj_left (hlt _ h.pred_mem) (hlt _ h'.pred_mem) hp,
    clockwise_inj_right hk (hlt _ h.succ_mem) (hlt _ h'.succ_mem) hs⟩

theorem Neighbours.share_iff (h : Neighbours others k p s) (hk : k < ring)
    (hlt : ∀ o ∈ others, o < ring) :
    Share others k x ↔ OnArc p k s x := by
  refine ⟨?_, ?_⟩
  · rintro (hnil | ⟨p', s', h', harc⟩)
    · exact absurd (hnil ▸ h.pred_mem) List.not_mem_nil
    · obtain ⟨rfl, rfl⟩ := h.unique h' hk hlt
      exact harc
  · intro harc
    exact .inr ⟨p, s, h, harc⟩

theorem Neighbours.stray_iff (h : Neighbours others k p s) (hk : k < ring)
    (hlt : ∀ o ∈ others, o < ring) :
    Stray others k x ↔ Opposite p k s x := by
  refine ⟨?_, ?_⟩
  · intro hx
    obtain ⟨p', s', h', hopp⟩ := hx
    obtain ⟨rfl, rfl⟩ := h.unique h' hk hlt
    exact hopp
  · intro hopp
    exact ⟨p, s, h, hopp⟩

/-- A key is selected if the node is to have it, or if it is stray, never both. -/
theorem selected_share (hk : k < ring) (hx : x < ring) :
    (Selected
        ((first_key hash (filter_online network.self_id online (prev (Item.key hash) network.tree.to_list k)) k + k) / 2 % max_key)
        ((first_key hash (filter_online network.self_id online (next (Item.key hash) network.tree.to_list k)) k + k) / 2 % max_key)
        x ↔ Share (online_others hash online network k) k x) ↔
      ¬Stray (online_others hash online network k) k x := by
  rcases @neighbours_spec k hash online network hk with ⟨hnil, hp, hs⟩ | hn
  · rw [hp, hs, Share]
    refine iff_of_true (iff_of_true selected_alone (.inl hnil)) ?_
    intro hy
    obtain ⟨p, s, h, -⟩ := hy
    exact absurd (hnil ▸ h.pred_mem) List.not_mem_nil
  · have hp := online_others_lt hn.pred_mem
    have hs := online_others_lt hn.succ_mem
    have hlt : ∀ o ∈ online_others hash online network k, o < ring := fun o ho =>
      (online_others_lt ho).1
    rw [selected_iff hp.1 hk hs.1 hx hp.2 hs.2 (hn.pred _ hn.succ_mem) (hn.succ _ hn.pred_mem),
      hn.share_iff hk hlt,
      hn.stray_iff hk hlt]
    refine ⟨?_, ?_⟩
    · exact fun h hopp => hopp.1 (h.1 (.inr hopp))
    · exact fun h => or_iff_left h

/-- Between two other nodes nothing is stray. -/
theorem Neighbours.not_stray (h : Neighbours others k p s) (hlt : ∀ o ∈ others, o < ring)
    (hp : p < k) (hs : k < s) :
    ¬Stray others k x := by
  have hk : k < ring := hs.trans (hlt _ h.succ_mem)
  rw [h.stray_iff hk hlt]
  intro hopp
  have := hopp.2
  omega

theorem filter_eq_filter_iff {α : Type} {p q : α → Bool} : ∀ {l : List α}, l.filter p = l.filter q ↔
    ∀ x ∈ l, p x = q x := by
  intro l
  refine ⟨?_, ?_⟩
  · intro h x hx
    have hmem := congrArg (x ∈ ·) h
    simpa [hx] using hmem
  · exact List.filter_congr

/-- Objects with the right keys stay, and are sent if selected. -/
theorem objects_valid (hvalid : ∀ row ∈ table, key_hash row.2 = some row.1) (a b : Nat) :
    objects key_hash table a b = (table.filter fun row => Selected a b row.1.toNat, table) := by
  refine Prod.ext (List.filter_eq_self.2 fun row hrow => ?_) (List.filter_eq_self.2 fun row hrow => ?_)
  · exact decide_eq_true (hvalid row (List.mem_of_mem_filter hrow))
  · exact decide_eq_true (.inr (hvalid row hrow))

open Classical in
/-- A node of the network, which another node's twin key does not hide, is sent
exactly the stored objects on its arc if none is stored on the half ring that is
opposite. -/
theorem redistribute_iff (hash : Addr → Word) (online : Addr → Bool) (key_hash : ν → Option Word)
    (network : KBucket)
    (table : List (Word × ν)) (node : Addr) (hnode : ∃ x ∈ network.tree.to_list, x.key hash = hash node)
    (hvalid : ∀ row ∈ table, key_hash row.2 = some row.1) :
    (∃ x ∈ network.tree.to_list, x.key hash = hash node ∧
      redistribute hash online key_hash network table node = some
        ((table.filter fun row => Share (online_others hash online network (hash node).toNat) (hash node).toNat row.1.toNat).map
          fun row => (x, row), table)) ↔
    ¬Hidden (Item.key hash) network.tree.to_list (hash node) ∧
      ∀ row ∈ table, ¬Stray (online_others hash online network (hash node).toNat)
        (hash node).toNat row.1.toNat := by
  have hk : (hash node).toNat < ring := (hash node).isLt
  cases hitem : item (Item.key hash) network.tree.to_list (hash node) with
  | none =>
    refine iff_of_false ?_ fun h => ?_
    · intro hz
      obtain ⟨x, -, -, h⟩ := hz
      simp [redistribute, hitem] at h
    · have hmem := (found_iff.2 h.1).member.2 hnode
      simp [member?, hitem] at hmem
  | some x =>
    obtain ⟨-, hx, hxk⟩ := item_some hitem
    have hfound : Found (Item.key hash) network.tree.to_list (hash node) :=
      ⟨fun y hy => (item_some hy).2, iff_of_true (by simp [member?, hitem]) ⟨x, hx, hxk⟩⟩
    have hkey : integer (Item.key hash) x = (hash node).toNat := congrArg BitVec.toNat hxk
    rw [and_iff_right (found_iff.1 hfound)]
    simp only [redistribute, hitem, Option.bind_eq_bind, Option.bind_some, hkey, objects_valid hvalid]
    refine ⟨?_, ?_⟩
    · rintro ⟨y, hy, hyk, h⟩ row hrow
      have hrows := congrArg (List.map Prod.snd) (congrArg Prod.fst (Option.some.inj h))
      simp only [List.map_map, Function.comp_def, List.map_id'] at hrows
      have hiff := filter_eq_filter_iff.1 hrows row hrow
      exact (selected_share hk row.1.isLt).1 (by simpa using hiff)
    · intro h
      refine ⟨x, hx, hxk, ?_⟩
      rw [List.filter_congr fun row hrow => decide_eq_decide.2
        ((selected_share hk row.1.isLt).2 (h row hrow))]
      rfl

end

/-! ## Three nodes, and two -/

/-- Nodes 1 to 3 around node 2. -/
def three : KBucket :=
  ⟨1, .leaf [] (((SMap.empty.put 1 ⟨1, some (-1), none, 0⟩).put 2 ⟨2, some 0, none, 0⟩).put 3 ⟨3, some 0, none, 0⟩)⟩

/-- The node itself with key 3, and node 1. -/
def two : KBucket := ⟨3, .leaf []
    ((SMap.empty.put 1 ⟨1, some 0, none, 0⟩).put 3 ⟨3, some (-1), none, 0⟩)⟩

open Classical in
theorem redistribute_three :
    ∃ x ∈ three.tree.to_list, x.key (BitVec.setWidth 256) = BitVec.setWidth 256 (2 : Addr) ∧
      redistribute (BitVec.setWidth 256) (fun _ => true) (fun v : Word => some v) three
        [(1, 1), (100, 100)] 2 = some
        (([(1, 1), (100, 100)].filter fun row : Word × Word =>
            Share (online_others (BitVec.setWidth 256) (fun _ => true) three
              (BitVec.setWidth 256 (2 : Addr)).toNat)
              (BitVec.setWidth 256 (2 : Addr)).toNat row.1.toNat).map fun row => (x, row),
                [(1, 1), (100, 100)]) := by
  refine (redistribute_iff (BitVec.setWidth 256) (fun _ => true) (fun v : Word => some v) three
    [(1, 1), (100, 100)] 2
    ⟨⟨2, some 0, none, 0⟩, by decide, by decide⟩ (by simp)).2 ⟨?_, fun row _ => ?_⟩
  · intro hx
    obtain ⟨-, x, -, -, h, -, -⟩ := hx
    rcases h with ⟨h, -⟩ | ⟨h, -⟩
    · exact absurd h (by decide)
    · exact absurd h (by decide)
  · have hothers : online_others (BitVec.setWidth 256) (fun _ => true) three
      (BitVec.setWidth 256 (2 : Addr)).toNat = [1, 3] := by
      decide
    rw [hothers]
    exact @Neighbours.not_stray [1, 3] 2 1 3 _ ⟨by decide, by decide, by decide, by decide⟩
      (by decide) (by decide) (by decide)

open Classical in
/-- Of two nodes the one with the lower key is sent everything. -/
theorem lower_of_two_sent_all :
    ¬∃ x ∈ two.tree.to_list, x.key (BitVec.setWidth 256) = BitVec.setWidth 256 (1 : Addr) ∧
      redistribute (BitVec.setWidth 256) (fun _ => true) (fun v : Word => some v) two
        [(100, 100)] 1 = some
        (([(100, 100)].filter fun row : Word × Word =>
            Share (online_others (BitVec.setWidth 256) (fun _ => true) two
              (BitVec.setWidth 256 (1 : Addr)).toNat)
              (BitVec.setWidth 256 (1 : Addr)).toNat row.1.toNat).map fun row => (x, row),
                [(100, 100)]) := by
  intro hx
  obtain ⟨x, -, -, h⟩ := hx
  have hsent : (redistribute (BitVec.setWidth 256) (fun _ => true) (fun v : Word => some v) two
    [(100, 100)] 1).map
      (fun r => r.1.length) = some 1 := by decide
  have hothers : online_others (BitVec.setWidth 256) (fun _ => true) two
    (BitVec.setWidth 256 (1 : Addr)).toNat = [3] := by decide
  have hshare : ¬Share [3] 1 100 := by
    rintro (h | ⟨p, s, hn, harc⟩)
    · cases h
    · obtain rfl := List.mem_singleton.1 hn.pred_mem
      obtain rfl := List.mem_singleton.1 hn.succ_mem
      exact absurd harc (by unfold OnArc; decide)
  rw [h, hothers] at hsent
  simp [hshare] at hsent

end Diode.L6.KBuckets
