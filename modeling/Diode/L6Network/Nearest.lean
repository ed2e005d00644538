import Mathlib.Data.List.Sort
import Diode.Core.Ring
import Diode.L6Network.KBuckets

/-!
# Distance and lookup

Keys are points of a ring of `2 ^ 256`, but `distance` goes around it one step
short: it is the distance of a ring where the first and the last key are the
same point (`distance_eq`). So it is right for keys less than half the ring
apart.

A key is looked up as the nearest of all items, and of equally near ones the
sort puts the last first.

* `lookup_iff`: when the distance of two keys is right, when a key is found in a
  list of items, and when in a tree of k-buckets.
-/
namespace Diode.L6.KBuckets
open Diode.Core

/-- The last key. -/
def top : Word := BitVec.allOnes 256

/-- `0x7FFF…` is `2 ^ 255 - 1`, `0xFFFF…` is `2 ^ 256 - 1`. mirrors lib/kbuckets.ex:201-209 -/
def distance (a b : Word) : Nat :=
  let dist := Nat.dist a.toNat b.toNat
  if dist > 2 ^ 255 - 1 then 2 ^ 256 - 1 - dist else dist

section
variable {ι : Type} (key : ι → Word)

/-- `Enum.sort` asks with the earlier element first, so equal ones change places.
mirrors lib/kbuckets.ex:116-122 -/
def nearest (l : List ι) (item : Word) : List ι :=
  l.insertionSort fun a b => distance item (key a) < distance item (key b)

/-- mirrors lib/kbuckets.ex:127-131 -/
def nearest_n (l : List ι) (item : Word) (n : Nat) : List ι := (nearest key l item).take n

/-- mirrors lib/kbuckets.ex:283-297 -/
def item (l : List ι) (item_id : Word) : Option ι :=
  match nearest_n key l item_id 1 with
  | ret :: _ => if key ret = item_id then some ret else none
  | [] => none

/-- mirrors lib/kbuckets.ex:278-280 -/
def member? (l : List ι) (item_id : Word) : Bool := (item key l item_id).isSome

end

/-! ## The ring the distance is of -/

theorem toNat_le_top (a : Word) : a.toNat ≤ 2 ^ 256 - 1 := by
  have := a.isLt
  omega

theorem distance_eq (a b : Word) : distance a b = ringDist (2 ^ 256 - 1) a.toNat b.toNat := by
  have hle := dist_le (toNat_le_top a) (toNat_le_top b)
  unfold distance ringDist
  dsimp only
  by_cases h : Nat.dist a.toNat b.toNat > 2 ^ 255 - 1
  · rw [if_pos h]
    omega
  · rw [if_neg h]
    omega

/-- What the claim to be a distance on the ring of all keys says of three of them. -/
structure RingDistance (a b c : Word) : Prop where
  ring : distance a b = ringDist (2 ^ 256) a.toNat b.toNat
  zero : distance a b = 0 ↔ a = b
  symm : distance a b = distance b a
  triangle : distance a c ≤ distance a b + distance b c

theorem distance_ring_iff (a b : Word) :
    distance a b = ringDist (2 ^ 256) a.toNat b.toNat ↔ Nat.dist a.toNat b.toNat < 2 ^ 255 := by
  have hle := dist_le (toNat_le_top a) (toNat_le_top b)
  unfold distance ringDist
  dsimp only
  by_cases h : Nat.dist a.toNat b.toNat > 2 ^ 255 - 1
  · rw [if_pos h]
    omega
  · rw [if_neg h]
    omega

theorem distance_comm (a b : Word) : distance a b = distance b a := by
  rw [distance_eq, distance_eq, ringDist_comm]

theorem distance_triangle (a b c : Word) : distance a c ≤ distance a b + distance b c := by
  simp only [distance_eq]
  exact ringDist_triangle (toNat_le_top a) (toNat_le_top b) (toNat_le_top c)

theorem ringDistance_iff (a b c : Word) : RingDistance a b c ↔ Nat.dist a.toNat b.toNat < 2 ^ 255 := by
  refine ⟨?_, ?_⟩
  · intro h
    exact (distance_ring_iff a b).1 h.ring
  · intro h
    have hring := (distance_ring_iff a b).2 h
    refine ⟨hring, ?_, distance_comm a b, distance_triangle a b c⟩
    rw [hring, ringDist_eq_zero_of_lt a.isLt b.isLt]
    exact BitVec.toNat_inj

/-- The two keys the distance takes for one. -/
def Twins (a b : Word) : Prop := (a = 0 ∧ b = top) ∨ (a = top ∧ b = 0)

theorem top_toNat : top.toNat = 2 ^ 256 - 1 := BitVec.toNat_allOnes

theorem distance_eq_zero (a b : Word) : distance a b = 0 ↔ a = b ∨ Twins a b := by
  have hb : ∀ c : Word, c.toNat = 2 ^ 256 - 1 ↔ c = top := fun c => by
    rw [← top_toNat, BitVec.toNat_inj]
  have hz : ∀ c : Word, c.toNat = 0 ↔ c = 0 := fun c => by
    rw [← BitVec.toNat_inj]
    rfl
  rw [distance_eq, ringDist_eq_zero (toNat_le_top a) (toNat_le_top b), BitVec.toNat_inj, hz,
    hz, hb, hb, Twins]

theorem Twins.ne {a b : Word} (h : Twins a b) : a ≠ b := by
  rcases h with ⟨rfl, rfl⟩ | ⟨rfl, rfl⟩ <;> decide

/-- The keys 0 and `2 ^ 256 - 1` are at distance zero. -/
theorem twins_no_distance : ¬RingDistance 0 top 0 := by
  intro h
  exact absurd (h.zero.1 (by decide)) (by decide)

/-! ## The first of the sorted list -/

section
variable {ι : Type} {key : ι → Word} {l : List ι} {k : Word} {x : ι}

/-- The last of the nearest items comes first. -/
theorem nearest_head (h : (nearest key l k).head? = some x) :
    ∃ before after, l = before ++ x :: after ∧ (∀ y ∈ before, distance k (key x) ≤ distance k (key y)) ∧
      ∀ y ∈ after, distance k (key x) < distance k (key y) := by
  induction l generalizing x with
  | nil => simp [nearest] at h
  | cons a l ih =>
    rw [nearest, List.insertionSort_cons] at h
    change (List.orderedInsert _ a (nearest key l k)).head? = _ at h
    match hs : nearest key l k with
    | [] =>
      rw [hs] at h
      have hl : l = [] := List.eq_nil_of_length_eq_zero (by
        rw [← List.length_insertionSort (fun a b => distance k (key a) < distance k (key b)) l]
        exact congrArg List.length hs)
      obtain rfl : a = x := by simpa using h
      exact ⟨[], l, rfl, nofun, by simp [hl]⟩
    | y :: ys =>
      obtain ⟨before, after, hl, hb, ha⟩ := ih (x := y) (by rw [hs]; rfl)
      rw [hs, List.orderedInsert_cons] at h
      by_cases hlt : distance k (key a) < distance k (key y)
      · obtain rfl : a = x := by simpa [hlt] using h
        refine ⟨[], l, rfl, nofun, fun z hz => ?_⟩
        rw [hl] at hz
        rcases List.mem_append.1 hz with hz | hz
        · exact Nat.lt_of_lt_of_le hlt (hb z hz)
        · rcases List.mem_cons.1 hz with rfl | hz
          · exact hlt
          · exact Nat.lt_trans hlt (ha z hz)
      · obtain rfl : y = x := by simpa [hlt] using h
        refine ⟨a :: before, after, by rw [hl, List.cons_append], fun z hz => ?_, ha⟩
        rcases List.mem_cons.1 hz with rfl | hz
        · omega
        · exact hb z hz

theorem nearest_ne_nil (h : x ∈ l) : nearest key l k ≠ [] := by
  intro hnil
  have hlen := List.length_insertionSort (fun a b => distance k (key a) < distance k (key b)) l
  rw [← nearest, hnil] at hlen
  exact List.not_mem_nil (List.eq_nil_of_length_eq_zero hlen.symm ▸ h)

theorem item_eq : item key l k = (nearest key l k).head?.filter fun x => key x = k := by
  unfold item nearest_n
  cases nearest key l k with
  | nil => rfl
  | cons x xs =>
    by_cases hx : key x = k <;> simp [Option.filter, hx]

theorem item_some (h : item key l k = some x) : (nearest key l k).head? = some x ∧
    x ∈ l ∧ key x = k := by
  rw [item_eq, Option.filter_eq_some_iff] at h
  obtain ⟨hhead, hk⟩ := h
  obtain ⟨before, after, hl, -⟩ := nearest_head hhead
  exact ⟨hhead, by simp [hl], by simpa using hk⟩

/-! ## Lookup -/

/-- What `item` and `member?` are to do with a list of items. -/
structure Found (key : ι → Word) (l : List ι) (k : Word) : Prop where
  item : ∀ x, item key l k = some x → x ∈ l ∧ key x = k
  member : member? key l k = true ↔ ∃ x ∈ l, key x = k

/-- An item with the twin of the key comes after all items with the key. -/
def Hidden (key : ι → Word) (l : List ι) (k : Word) : Prop :=
  ∃ before x after, l = before ++ x :: after ∧ Twins k (key x) ∧ (∃ y ∈ before, key y = k) ∧
    ∀ y ∈ after, key y ≠ k

theorem found_iff : Found key l k ↔ ¬Hidden key l k := by
  refine ⟨?_, ?_⟩
  · intro h hz
    obtain ⟨before, x, after, hl, htwin, ⟨y, hy, hyk⟩, hafter⟩ := hz
    have hmem : member? key l k = true := h.member.2 ⟨y, by simp [hl, hy], hyk⟩
    obtain ⟨z, hz⟩ := Option.isSome_iff_exists.1 hmem
    obtain ⟨hhead, -, hzk⟩ := item_some hz
    obtain ⟨before', after', hl', -, hlast⟩ := nearest_head hhead
    have hzero : distance k (key x) = 0 := (distance_eq_zero ..).2 (.inr htwin)
    -- `x` comes after the item found, or is it, or has it behind it.
    rcases List.append_eq_append_iff.1 (hl.symm.trans hl') with ⟨c, hb, hc⟩ | ⟨c, hb, hc⟩
    · have hmem : z ∈ x :: after := by rw [hc]; simp
      rcases List.mem_cons.1 hmem with rfl | hmem
      · exact htwin.ne hzk.symm
      · exact hafter z hmem hzk
    · cases c with
      | nil =>
        obtain rfl := (List.cons.inj hc).1
        exact htwin.ne hzk.symm
      | cons w c =>
        have hlt := hlast x (by rw [(List.cons.inj hc).2]; simp)
        omega
  · intro h
    refine ⟨fun x hx => (item_some hx).2, fun hmem => ?_, fun ⟨y, hy, hyk⟩ => ?_⟩
    · obtain ⟨x, hx⟩ := Option.isSome_iff_exists.1 hmem
      exact ⟨x, (item_some hx).2⟩
    · obtain ⟨x, hhead⟩ := Option.isSome_iff_exists.1
        (List.isSome_head?.2 (@nearest_ne_nil ι key l k y hy))
      obtain ⟨before, after, hl, hbefore, hafter⟩ := nearest_head hhead
      have hself : distance k k = 0 := (distance_eq_zero ..).2 (.inl rfl)
      have hnone : ∀ z ∈ after, key z ≠ k := fun z hz hzk => by
        have := hafter z hz
        rw [hzk, hself] at this
        omega
      have hzero : distance k (key x) = 0 := by
        rw [hl] at hy
        rcases List.mem_append.1 hy with hy | hy
        · have := hbefore y hy
          rw [hyk, hself] at this
          omega
        · rcases List.mem_cons.1 hy with rfl | hy
          · rw [hyk, hself]
          · exact absurd hyk (hnone y hy)
      rcases (distance_eq_zero ..).1 hzero with hk | htwin
      · rw [member?, item_eq, hhead]
        simp [Option.filter, hk]
      · refine absurd ⟨before, x, after, hl, htwin, ?_, hnone⟩ h
        rw [hl] at hy
        rcases List.mem_append.1 hy with hy | hy
        · exact ⟨y, hy, hyk⟩
        · rcases List.mem_cons.1 hy with rfl | hy
          · exact absurd hyk.symm htwin.ne
          · exact absurd hyk (hnone y hy)

/-- In a list in the order of the keys only the first of the twins is hidden. -/
theorem hidden_sorted (hs : l.Pairwise fun x y => key x < key y) :
    Hidden key l k ↔ k = 0 ∧ (∃ x ∈ l, key x = 0) ∧ ∃ x ∈ l, key x = top := by
  refine ⟨?_, ?_⟩
  · intro h
    obtain ⟨before, x, after, rfl, htwin, ⟨y, hy, rfl⟩, -⟩ := h
    have hlt := (List.pairwise_append.1 hs).2.2 y hy x List.mem_cons_self
    rcases htwin with ⟨h0, h1⟩ | ⟨h0, h1⟩
    · exact ⟨h0, ⟨y, by simp [hy], h0⟩, x, by simp, h1⟩
    · rw [h1] at hlt
      exact absurd hlt BitVec.not_lt_zero
  · intro h
    obtain ⟨rfl, ⟨y, hy, hy0⟩, x, hx, hx1⟩ := h
    obtain ⟨before, after, rfl⟩ := List.append_of_mem hx
    obtain ⟨-, hafter, hbefore⟩ := List.pairwise_append.1 hs
    have hnone : ∀ z ∈ after, key z ≠ 0 := fun z hz hz0 => by
      have hlt := (List.pairwise_cons.1 hafter).1 z hz
      rw [hz0] at hlt
      exact BitVec.not_lt_zero hlt
    refine ⟨before, x, after, rfl, .inl ⟨rfl, hx1⟩, ⟨y, ?_, hy0⟩, hnone⟩
    rcases List.mem_append.1 hy with hy | hy
    · exact hy
    · rcases List.mem_cons.1 hy with rfl | hy
      · rw [hy0] at hx1
        exact absurd hx1 (by decide)
      · exact absurd hy0 (hnone y hy)

end

theorem WF.sorted_items {hash : Addr → Word} {self_id : Addr} {t : Tree} (h : WF hash self_id [] t) :
    t.to_list.Pairwise fun x y => x.key hash < y.key hash := by
  have hs : (t.to_list.map (Item.key hash)).Pairwise (· < ·) := by
    rw [h.keys, List.pairwise_map]
    exact h.sorted
  exact List.pairwise_map.1 hs

theorem lookup_iff {ι : Type} (key : ι → Word) (l : List ι) (hash : Addr → Word) (self_id : Addr)
    (ops : List Op) :
    (∀ a b c : Word, RingDistance a b c ↔ Nat.dist a.toNat b.toNat < 2 ^ 255) ∧
    (∀ k : Word, Found key l k ↔ ¬Hidden key l k) ∧
    ∃ kb, (∀ fuel, 257 ≤ fuel → run hash fuel (new hash self_id) ops = some kb) ∧
      ∀ k, Found (Item.key hash) kb.tree.to_list k ↔
        ¬(k = 0 ∧ (∃ x ∈ kb.tree.to_list, x.key hash = 0) ∧ ∃ x ∈ kb.tree.to_list,
          x.key hash = top) := by
  refine ⟨ringDistance_iff, fun k => found_iff, ?_⟩
  obtain ⟨kb, hrun, -, hwf, -⟩ := run_spec (Nat.le_refl 257) ops (new hash self_id)
    (wf_new hash self_id)
  refine ⟨kb, fun fuel hf => ?_, fun k => ?_⟩
  · exact foldlM_mono (fun _ _ _ hs => step_mono hf hs) _ _ _ hrun
  · exact found_iff.trans (not_congr (hidden_sorted hwf.sorted_items))

end Diode.L6.KBuckets
