import Mathlib.Data.List.Perm.Subperm
import Diode.Core.Bits
import Diode.Core.Bytes
import Diode.Core.SMap

/-!
# The tree of k-buckets

Peers are kept in the leaves of a binary tree over the bits of their keys. A
leaf that would reach `k` items is split when it holds the node itself, by
inserting its items one after the other into two fresh leaves; any other full
leaf ignores the newcomer. All items of a leaf may agree in the next bit, so a
split may split again.

A full leaf that is split has `k` items with the node itself among them, so no
leaf below can be full without it: nothing is ignored on the way
(`splits_all`). Keys end after 256 bits, which bounds the recursion
(`do_insert_item_spec`).

* `kbuckets_invariant`: what holds of the tree after any operations, and that
  an insertion loses no member and splits no leaf without the node itself.
-/
namespace Diode.L6.KBuckets
open Diode.Core

structure Item where
  node_id : Addr
  last_connected : Option Int
  last_error : Option Int
  retries : Int
  deriving DecidableEq

abbrev Bucket := SMap Word Item

/-- `{:leaf, prefix, bucket}` and `{:node, prefix, zero, one}`, where `p` is the prefix. -/
inductive Tree where
  | leaf (p : List Bool) (bucket : Bucket)
  | node (p : List Bool) (zero one : Tree)

structure KBucket where
  self_id : Addr
  tree : Tree

def k : Nat := 20

/-- `<<^prefix::bitstring, _::bitstring>> = key` -/
abbrev Starts (p : List Bool) (key : Word) : Prop := p <+: bits 256 key.toNat

section
variable (hash : Addr → Word)

/-- mirrors lib/kbuckets.ex:219-221 -/
def Item.key (item : Item) : Word := hash item.node_id

/-- mirrors lib/kbuckets.ex:50-52 -/
def self (self_id : Addr) : Item := ⟨self_id, some (-1), none, 0⟩

/-- mirrors lib/kbuckets.ex:40-48 -/
def new (self_id : Addr) : KBucket := ⟨self_id, .leaf [] (.put .empty (hash self_id) (self self_id))⟩

/-- mirrors lib/kbuckets.ex:358-364 -/
def is_self (self_id : Addr) (bucket : Bucket) : Bool := bucket.entries.any fun e =>
    e.2.node_id = self_id

/-- `none` where no clause matches. mirrors lib/kbuckets.ex:338-352 -/
def update_bucket (key : Word) (f : List Bool → Bucket → Option Tree) : Tree → Option Tree
  | .leaf p bucket => f p bucket
  | .node p zero one =>
    if Starts (p ++ [false]) key then (update_bucket key f zero).map fun zero => .node p zero one
    else if Starts (p ++ [true]) key then (update_bucket key f one).map fun one => .node p zero one
    else none

/-- What `do_insert_item` does to the leaf of its key. mirrors lib/kbuckets.ex:315-335 -/
def insert_leaf (self_id : Addr) (insert : Tree → Item → Option Tree) (item : Item) (p : List Bool)
    (bucket : Bucket) :
    Option Tree :=
  let orig := Tree.leaf p bucket
  let bucket := bucket.put (item.key hash) item
  if bucket.entries.length < k then some (.leaf p bucket)
  else if is_self self_id bucket then
    let new_node := Tree.node p (.leaf (p ++ [false]) .empty) (.leaf (p ++ [true]) .empty)
    bucket.entries.foldlM (fun acc e => insert acc e.2) new_node
  else some orig

/-- `none` also where the recursion is deeper than `fuel`. mirrors lib/kbuckets.ex:312-336 -/
def do_insert_item (self_id : Addr) : Nat → Tree → Item → Option Tree
  | 0, _, _ => none
  | fuel + 1, tree, item =>
    update_bucket (item.key hash) (insert_leaf hash self_id (do_insert_item self_id fuel) item) tree

inductive Op where
  | insert_item (item : Item)
  | insert_items (items : List Item)
  | update_item (item : Item)
  | delete_item (key : Word)

/-- mirrors lib/kbuckets.ex:252-276,299-310 -/
def step (fuel : Nat) (kb : KBucket) : Op → Option KBucket
  | .insert_item item => (do_insert_item hash kb.self_id fuel kb.tree item).map fun tree =>
      { kb with tree }
  | .insert_items items =>
    (items.foldlM (do_insert_item hash kb.self_id fuel) kb.tree).map fun tree => { kb with tree }
  | .update_item item =>
    let key := item.key hash
    (update_bucket key
        (fun p bucket => if (bucket.get key).isSome then some (.leaf p (bucket.put key item)) else some (.leaf p bucket))
        kb.tree).map fun tree => { kb with tree }
  | .delete_item key =>
    (update_bucket key (fun p bucket => some (.leaf p (bucket.del key))) kb.tree).map fun tree =>
      { kb with tree }

def run (fuel : Nat) (kb : KBucket) (ops : List Op) : Option KBucket := ops.foldlM (step hash fuel) kb

end

namespace Tree

def entries : Tree → List (Word × Item)
  | .leaf _ bucket => bucket.entries
  | .node _ zero one => zero.entries ++ one.entries

/-- mirrors lib/kbuckets.ex:88-104 -/
def to_list (t : Tree) : List Item := t.entries.map Prod.snd

/-- The leaves with their prefixes. -/
def leaves : Tree → List (List Bool × Bucket)
  | .leaf p bucket => [(p, bucket)]
  | .node _ zero one => zero.leaves ++ one.leaves

/-- The prefixes of the inner nodes. -/
def nodes : Tree → List (List Bool)
  | .leaf _ _ => []
  | .node p zero one => p :: (zero.nodes ++ one.nodes)

def get (t : Tree) (key : Word) : Option Item := Assoc.get t.entries key

end Tree

variable {hash : Addr → Word} {self_id : Addr} {p q : List Bool} {t t' z o : Tree} {b : Bucket}
    {key : Word} {d : Nat}

/-! ## The shape of a tree -/

structure LeafOk (hash : Addr → Word) (p : List Bool) (b : Bucket) : Prop where
  short : p.length ≤ 256
  starts : ∀ e ∈ b.entries, Starts p e.1
  keyed : ∀ e ∈ b.entries, e.2.key hash = e.1
  small : b.entries.length < k

/-- A tree at prefix `p`. Only the way to the node itself is split. -/
def WF (hash : Addr → Word) (self_id : Addr) : List Bool → Tree → Prop
  | p, .leaf q b => q = p ∧ LeafOk hash p b
  | p, .node q zero one =>
    q = p ∧ Starts p (hash self_id) ∧ WF hash self_id (p ++ [false]) zero ∧
      WF hash self_id (p ++ [true]) one

/-- No leaf is above depth `d`. -/
def Deep (d : Nat) : Tree → Prop
  | .leaf p _ => d ≤ p.length
  | .node _ zero one => Deep d zero ∧ Deep d one

theorem Deep.mono {c : Nat} (hc : c ≤ d) : ∀ {t : Tree}, Deep d t → Deep c t
  | .leaf _ _, h => Nat.le_trans hc h
  | .node _ _ _, h => ⟨h.1.mono hc, h.2.mono hc⟩

theorem Starts.of_append {r : List Bool} (h : Starts (p ++ r) key) : Starts p key :=
  (List.prefix_append p r).trans h

theorem starts_nil (key : Word) : Starts [] key := List.nil_prefix

/-- A prefix of all bits has one key. -/
theorem starts_full {a c : Word} (hp : p.length = 256) (ha : Starts p a) (hc : Starts p c) : a = c := by
  have hbits : bits 256 a.toNat = bits 256 c.toNat :=
    (ha.eq_of_length (by simp [hp])).symm.trans (hc.eq_of_length (by simp [hp]))
  have := congrArg ofBits hbits
  rw [ofBits_bits a.isLt, ofBits_bits c.isLt] at this
  exact BitVec.eq_of_toNat_eq this

theorem WF.short (h : WF hash self_id p t) : p.length ≤ 256 := by
  induction t generalizing p with
  | leaf q b => exact h.2.short
  | node q z o ihz _ =>
    have := ihz h.2.2.1
    simp at this
    omega

theorem WF.mem (h : WF hash self_id p t) : ∀ e ∈ t.entries, Starts p e.1 ∧ e.2.key hash = e.1 := by
  induction t generalizing p with
  | leaf q b => exact fun e he => ⟨h.2.starts e he, h.2.keyed e he⟩
  | node q z o ihz iho =>
    intro e he
    rcases List.mem_append.1 he with he | he
    · exact (ihz h.2.2.1 e he).imp_left Starts.of_append
    · exact (iho h.2.2.2 e he).imp_left Starts.of_append

theorem WF.sorted (h : WF hash self_id p t) : Assoc.Sorted t.entries := by
  induction t generalizing p with
  | leaf q b => exact b.sorted
  | node q z o ihz iho =>
    refine List.pairwise_append.2 ⟨ihz h.2.2.1, iho h.2.2.2, fun a ha c hc => ?_⟩
    exact BitVec.lt_def.2 (lt_of_bits a.1.isLt c.1.isLt (h.2.2.1.mem a ha).1 (h.2.2.2.mem c hc).1)

theorem WF.get_iff (h : WF hash self_id p t) (key : Word) (item : Item) :
    t.get key = some item ↔ (key, item) ∈ t.entries := Assoc.get_iff_mem h.sorted key item

theorem WF.get_none (h : WF hash self_id p t) (hs : ¬Starts p key) : t.get key = none :=
  Assoc.get_eq_none_iff.2 fun e he heq => hs (heq ▸ (h.mem e he).1)

theorem get_node (q : List Bool) (z o : Tree) (key : Word) :
    (Tree.node q z o).get key = (z.get key).or (o.get key) := Assoc.get_append ..

theorem WF.get_zero (h : WF hash self_id p (.node q z o)) (hs : Starts (p ++ [false]) key) :
    (Tree.node q z o).get key = z.get key := by
  rw [get_node, h.2.2.2.get_none fun h1 => not_both_bits hs h1, Option.or_none]

theorem WF.get_one (h : WF hash self_id p (.node q z o)) (hs : Starts (p ++ [true]) key) :
    (Tree.node q z o).get key = o.get key := by
  rw [get_node, h.2.2.1.get_none fun h0 => not_both_bits h0 hs, Option.none_or]

/-! ## What `update_bucket` does -/

/-- The tree after the leaf at `q` has become `s`. -/
structure Replaced (hash : Addr → Word) (self_id : Addr) (p q : List Bool) (t s t' : Tree) : Prop where
  wf : WF hash self_id p t'
  get : ∀ key, t'.get key = if Starts q key then s.get key else t.get key
  deep : ∀ d, Deep d t → Deep d s → Deep d t'

/-- The leaf a key leads to. -/
structure Site (hash : Addr → Word) (self_id : Addr) (p : List Bool) (key : Word) (t : Tree)
    (q : List Bool) (b : Bucket) :
    Prop where
  below : p <+: q
  starts : Starts q key
  leaf : LeafOk hash q b
  sub : b.entries ⊆ t.entries
  get : ∀ key, Starts q key → t.get key = b.get key
  deep : ∀ d, Deep d t → d ≤ q.length
  update : ∀ f s, f q b = some s → WF hash self_id q s →
    ∃ t', update_bucket key f t = some t' ∧ Replaced hash self_id p q t s t'

theorem Replaced.zero {s : Tree} (h : WF hash self_id p (.node p z o)) (hq : p ++ [false] <+: q)
    (hr : Replaced hash self_id (p ++ [false]) q z s t') : Replaced hash self_id p q (.node p z o) s
      (.node p t' o) := by
  have hwf : WF hash self_id p (.node p t' o) := ⟨rfl, h.2.1, hr.wf, h.2.2.2⟩
  refine ⟨hwf, fun key => ?_, fun d hd hs => ⟨hr.deep d hd.1 hs, hd.2⟩⟩
  by_cases hs : Starts q key
  · rw [if_pos hs, hwf.get_zero (hq.trans hs), hr.get, if_pos hs]
  · rw [if_neg hs, get_node, get_node, hr.get, if_neg hs]

theorem Replaced.one {s : Tree} (h : WF hash self_id p (.node p z o)) (hq : p ++ [true] <+: q)
    (hr : Replaced hash self_id (p ++ [true]) q o s t') : Replaced hash self_id p q (.node p z o) s
      (.node p z t') := by
  have hwf : WF hash self_id p (.node p z t') := ⟨rfl, h.2.1, h.2.2.1, hr.wf⟩
  refine ⟨hwf, fun key => ?_, fun d hd hs => ⟨hd.1, hr.deep d hd.2 hs⟩⟩
  by_cases hs : Starts q key
  · rw [if_pos hs, hwf.get_one (hq.trans hs), hr.get, if_pos hs]
  · rw [if_neg hs, get_node, get_node, hr.get, if_neg hs]

theorem exists_site (h : WF hash self_id p t) (hs : Starts p key) :
    ∃ q b, Site hash self_id p key t q b := by
  induction t generalizing p with
  | leaf q b =>
    obtain ⟨rfl, hb⟩ := h
    refine ⟨q, b, ⟨List.prefix_rfl, hs, hb, fun _ h => h, fun _ _ => rfl, fun d hd => hd, fun f s hf hwf => ?_⟩⟩
    refine ⟨s, hf, ⟨hwf, fun key => ?_, fun d _ hd => hd⟩⟩
    by_cases hq : Starts q key
    · rw [if_pos hq]
    · rw [if_neg hq, hwf.get_none hq]
      exact (@WF.get_none hash self_id q (.leaf q b) key ⟨rfl, hb⟩ hq).symm
  | node q z o ihz iho =>
    have hnode := h
    obtain ⟨rfl, hself, hz, ho⟩ := h
    have hlen : q.length < 256 := by
      have := hz.short
      simp at this
      omega
    rcases next_bit hs hlen with h0 | h1
    · obtain ⟨r, b, hr⟩ := ihz hz h0
      refine ⟨r, b, ⟨(List.prefix_append ..).trans hr.below, hr.starts, hr.leaf, fun e he => ?_, fun key hk => ?_,
        fun d hd => hr.deep d hd.1, fun f s hf hwf => ?_⟩⟩
      · exact List.mem_append_left _ (hr.sub he)
      · rw [hnode.get_zero (hr.below.trans hk), hr.get key hk]
      · obtain ⟨t', ht', hrep⟩ := hr.update f s hf hwf
        exact ⟨.node q t' o, by simp [update_bucket, h0, ht'], hrep.zero hnode hr.below⟩
    · obtain ⟨r, b, hr⟩ := iho ho h1
      have h0 : ¬Starts (q ++ [false]) key := fun h0 => not_both_bits h0 h1
      refine ⟨r, b, ⟨(List.prefix_append ..).trans hr.below, hr.starts, hr.leaf, fun e he => ?_, fun key hk => ?_,
        fun d hd => hr.deep d hd.2, fun f s hf hwf => ?_⟩⟩
      · exact List.mem_append_right _ (hr.sub he)
      · rw [hnode.get_one (hr.below.trans hk), hr.get key hk]
      · obtain ⟨t', ht', hrep⟩ := hr.update f s hf hwf
        exact ⟨.node q z t', by simp [update_bucket, h0, h1, ht'], hrep.one hnode hr.below⟩

/-! ## Insertion -/

/-- A leaf that is full without the node itself, and without the newcomer's key. -/
structure Ignored (hash : Addr → Word) (self_id : Addr) (t : Tree) (item : Item) (b : Bucket) : Prop where
  sub : b.entries ⊆ t.entries
  new : t.get (item.key hash) = none
  full : b.entries.length + 1 = k
  other : is_self self_id (b.put (item.key hash) item) = false

/-- The item is in, or the tree has what it had. -/
def Inserted (hash : Addr → Word) (self_id : Addr) (t : Tree) (item : Item) (t' : Tree) : Prop :=
  (∀ key, t'.get key = if key = item.key hash then some item else t.get key) ∨
    (∃ b, Ignored hash self_id t item b) ∧ ∀ key, t'.get key = t.get key

theorem mem_put_self (b : Bucket) (key : Word) (item : Item) : (key, item) ∈ (b.put key item).entries :=
  (SMap.mem_iff ..).2 (SMap.get_put_self ..)

theorem put_entries {e : Word × Item} {item : Item} (he : e ∈ (b.put key item).entries) :
    e = (key, item) ∨ e ∈ b.entries :=
  Assoc.mem_put he

/-- What is wanted of the recursive call. -/
def Inserts (hash : Addr → Word) (self_id : Addr) (d : Nat) (insert : Tree → Item → Option Tree) : Prop :=
  ∀ p t item, WF hash self_id p t → Starts p (item.key hash) → Deep d t →
    ∃ t', insert t item = some t' ∧ WF hash self_id p t' ∧ (∀ d, Deep d t → Deep d t') ∧
      Inserted hash self_id t item t'

/-- The items of a bucket being split, once those before `rest` are placed. -/
theorem splits_rest {insert : Tree → Item → Option Tree} {es : List (Word × Item)}
    (hins : Inserts hash self_id d insert)
    (hsort : Assoc.Sorted es) (hlen : es.length = k) (hstarts : ∀ e ∈ es, Starts q e.1)
    (hkeyed : ∀ e ∈ es, e.2.key hash = e.1) (hself : es.any (fun e => e.2.node_id = self_id) = true) :
    ∀ (rest done : List (Word × Item)) (t : Tree), es = done ++ rest → WF hash self_id q t →
      Deep d t → t.entries = done →
      ∃ t', rest.foldlM (fun acc e => insert acc e.2) t = some t' ∧ WF hash self_id q t' ∧
        Deep d t' ∧ t'.entries = es := by
  intro rest
  induction rest with
  | nil =>
    intro done t hes hwf hd hdone
    exact ⟨t, rfl, hwf, hd, by rw [hes, hdone, List.append_nil]⟩
  | cons e rest ih =>
    intro done t hes hwf hd hdone
    have he : e ∈ es := by simp [hes]
    have hes' : es = (done ++ [e]) ++ rest := by simp [hes]
    have hsort' : Assoc.Sorted (done ++ [e]) := List.Pairwise.sublist
      (List.sublist_append_left _ rest) (hes' ▸ hsort)
    have hfresh : Assoc.get done e.1 = none :=
      Assoc.get_eq_none_iff.2 fun x hx =>
        ne_of_lt ((List.pairwise_append.1 hsort').2.2 x hx e List.mem_cons_self)
    obtain ⟨t', ht', hwf', hd', hput⟩ := hins q t e.2 hwf (by rw [hkeyed e he]; exact hstarts e he) hd
    rw [Inserted, hkeyed e he] at hput
    rcases hput with hput | ⟨⟨b, hb⟩, -⟩
    · have hentries : t'.entries = done ++ [e] := by
        refine Assoc.ext hwf'.sorted hsort' fun key => ?_
        have hget := hput key
        rw [Tree.get, Tree.get, hdone] at hget
        rw [hget, Assoc.get_append]
        by_cases hk : key = e.1
        · simp [hk, hfresh, Assoc.get]
        · simp [hk, Assoc.get, Ne.symm hk]
      obtain ⟨u, hu, hrest⟩ := ih (done ++ [e]) t' hes' hwf' (hd' d hd) hentries
      exact ⟨u, by rw [List.foldlM_cons, ht']; exact hu, hrest⟩
    · -- The leaf has all the other items, so the node itself is not ignored.
      exfalso
      have hnodup : b.entries.Nodup := b.sorted.imp fun hlt h => by simp [h] at hlt
      have hsub : b.entries.Subperm done := hnodup.subperm (hdone ▸ hb.sub)
      have hle : done.length ≤ b.entries.length := by
        have hb := hb.full
        have := congrArg List.length hes
        simp only [List.length_append, List.length_cons] at this
        omega
      have hperm := hsub.perm_of_length_le hle
      obtain ⟨s, hs, hid⟩ := List.any_eq_true.1 hself
      have hother := hb.other
      rw [is_self, List.any_eq_false] at hother
      rw [hkeyed e he] at hother
      have hrest : rest = [] := by
        have hb := hb.full
        have := congrArg List.length hes
        have := hperm.length_eq
        simp only [List.length_append, List.length_cons] at *
        exact List.eq_nil_of_length_eq_zero (by omega)
      rw [hes, hrest, List.mem_append, List.mem_singleton] at hs
      rcases hs with hs | rfl
      · have hne : e.1 ≠ s.1 := (ne_of_lt
          ((List.pairwise_append.1 hsort').2.2 s hs e List.mem_cons_self)).symm
        refine hother s ((SMap.mem_iff _ s.1 s.2).2 ?_) hid
        rw [SMap.get_put_ne _ _ hne]
        exact (SMap.mem_iff ..).1 (hperm.mem_iff.2 hs)
      · exact hother s (mem_put_self ..) hid

/-- A full leaf with the node itself is split and keeps all of its items. -/
theorem splits_all {insert : Tree → Item → Option Tree} (hb : LeafOk hash q b) {item : Item}
    (hs : Starts q (item.key hash)) (hfull : (b.put (item.key hash) item).entries.length = k)
    (hself : is_self self_id (b.put (item.key hash) item) = true) (hd : d = q.length + 1)
    (hins : d ≤ 256 → Inserts hash self_id d insert) :
    ∃ s, insert_leaf hash self_id insert item q b = some s ∧ WF hash self_id q s ∧ Deep d s ∧
      s.entries = (b.put (item.key hash) item).entries := by
  have hstarts : ∀ e ∈ (b.put (item.key hash) item).entries, Starts q e.1 ∧ e.2.key hash = e.1 := by
    intro e he
    rcases put_entries he with rfl | he
    · exact ⟨hs, rfl⟩
    · exact ⟨hb.starts e he, hb.keyed e he⟩
  have hshort : q.length < 256 := by
    by_contra hlong
    have hq : q.length = 256 := by
      have := hb.short
      omega
    match hes : (b.put (item.key hash) item).entries with
    | [] => simp [hes, k] at hfull
    | [_] => simp [hes, k] at hfull
    | x :: y :: es =>
      have hsort := (b.put (item.key hash) item).sorted
      rw [hes] at hsort hstarts
      have hlt := (List.pairwise_cons.1 hsort).1 y (by simp)
      exact ne_of_lt hlt (starts_full hq (hstarts x (by simp)).1 (hstarts y (by simp)).1)
  have hown : Starts q (hash self_id) := by
    obtain ⟨e, he, hid⟩ := List.any_eq_true.1 hself
    have hid : e.2.node_id = self_id := by simpa using hid
    have hkey := (hstarts e he).2
    rw [Item.key, hid] at hkey
    exact hkey ▸ (hstarts e he).1
  have hleaf : ∀ bit : Bool, LeafOk hash (q ++ [bit]) .empty := fun bit =>
    ⟨by simp; omega, nofun, nofun, by decide⟩
  have hnode : WF hash self_id q (.node q (.leaf (q ++ [false]) .empty) (.leaf (q ++ [true]) .empty)) :=
    ⟨rfl, hown, ⟨rfl, hleaf false⟩, ⟨rfl, hleaf true⟩⟩
  obtain ⟨s, hs', hwf, hdeep, hes⟩ := splits_rest (hins (by omega))
    (b.put (item.key hash) item).sorted hfull
    (fun e he => (hstarts e he).1) (fun e he => (hstarts e he).2) hself _ [] _ rfl hnode
    ⟨by simp [Deep, hd], by simp [Deep, hd]⟩ rfl
  refine ⟨s, ?_, hwf, hdeep, hes⟩
  rw [insert_leaf]
  simp only [hfull, Nat.lt_irrefl, if_false, hself, if_true]
  exact hs'

/-- What becomes of the leaf of the item's key. -/
theorem insert_leaf_spec {insert : Tree → Item → Option Tree} (hb : LeafOk hash q b) {item : Item}
    (hs : Starts q (item.key hash)) (hins : q.length + 1 ≤ 256 → Inserts hash self_id
      (q.length + 1) insert) :
    ∃ s, insert_leaf hash self_id insert item q b = some s ∧ WF hash self_id q s ∧ Deep q.length s ∧
      ((∀ key, s.get key = if key = item.key hash then some item else b.get key) ∨
        (b.get (item.key hash) = none ∧ b.entries.length + 1 = k ∧ is_self self_id
          (b.put (item.key hash) item) = false ∧
          ∀ key, s.get key = b.get key)) := by
  have hput : ∀ key, (b.put (item.key hash) item).get key = if key = item.key hash then some item
    else b.get key := by
    intro key
    rw [SMap.get_put]
    simp only [eq_comm]
  have hsmall := hb.small
  have hlen := SMap.length_put b (item.key hash) item
  by_cases hlt : (b.put (item.key hash) item).entries.length < k
  · refine ⟨.leaf q (b.put (item.key hash) item),
      by simp [insert_leaf, hlt], ⟨rfl, hb.short, ?_, ?_, hlt⟩, Nat.le_refl _,
      .inl hput⟩
    · intro e he
      rcases put_entries he with rfl | he
      · exact hs
      · exact hb.starts e he
    · intro e he
      rcases put_entries he with rfl | he
      · rfl
      · exact hb.keyed e he
  · have hnew : b.get (item.key hash) = none := by
      cases hg : b.get (item.key hash) with
      | none => rfl
      | some old =>
        simp only [hg, Option.isSome_some, if_true] at hlen
        omega
    simp only [hnew, Option.isSome_none, Bool.false_eq_true, if_false] at hlen
    cases hself : is_self self_id (b.put (item.key hash) item) with
    | true =>
      obtain ⟨s, hs', hwf, hdeep, hes⟩ := splits_all hb hs (by omega) hself rfl hins
      refine ⟨s, hs', hwf, hdeep.mono (Nat.le_succ _), .inl fun key => ?_⟩
      rw [Tree.get, hes]
      exact hput key
    | false =>
      exact ⟨.leaf q b, by simp [insert_leaf, hlt, hself], ⟨rfl, hb⟩, Nat.le_refl _,
        .inr ⟨hnew, by omega, rfl, fun _ => rfl⟩⟩

/-- Insertion ends when there is fuel for each of the 256 bits below the leaves. -/
theorem do_insert_item_spec (fuel : Nat) : ∀ d, 257 ≤ fuel + d → Inserts hash self_id d
    (do_insert_item hash self_id fuel) := by
  induction fuel with
  | zero =>
    intro d hd p t item hwf hs hdeep
    obtain ⟨q, b, hsite⟩ := exists_site hwf hs
    have hlong := hsite.deep d hdeep
    have hshort := hsite.leaf.short
    omega
  | succ fuel ih =>
    intro d hd p t item hwf hs hdeep
    obtain ⟨q, b, hsite⟩ := exists_site hwf hs
    have hlong := hsite.deep d hdeep
    obtain ⟨s, hs', hswf, hsdeep, hget⟩ := @insert_leaf_spec hash self_id q b _ hsite.leaf
      item hsite.starts
      fun _ => ih (q.length + 1) (by omega)
    obtain ⟨t', ht', hrep⟩ := hsite.update _ s hs' hswf
    refine ⟨t', ht', hrep.wf, fun c hc => hrep.deep c hc (hsdeep.mono (hsite.deep c hc)), ?_⟩
    rcases hget with hget | ⟨hnew, hfull, hother, hget⟩
    · refine .inl fun key => ?_
      rw [hrep.get]
      by_cases hq : Starts q key
      · rw [if_pos hq, hget, hsite.get key hq]
      · have hne : key ≠ item.key hash := fun h => hq (h ▸ hsite.starts)
        rw [if_neg hq, if_neg hne]
    · refine .inr ⟨⟨b, hsite.sub, (hsite.get _ hsite.starts).trans hnew, hfull, hother⟩, fun key => ?_⟩
      rw [hrep.get]
      by_cases hq : Starts q key
      · rw [if_pos hq, hget, hsite.get key hq]
      · rw [if_neg hq]

/-! ## More fuel changes nothing -/

theorem update_bucket_mono {f g : List Bool → Bucket → Option Tree}
    (hfg : ∀ p b s, f p b = some s → g p b = some s)
    (h : update_bucket key f t = some t') : update_bucket key g t = some t' := by
  induction t generalizing t' with
  | leaf p b => exact hfg p b t' h
  | node p z o ihz iho =>
    unfold update_bucket at h ⊢
    split at h
    · rename_i h0
      obtain ⟨z', hz, rfl⟩ := Option.map_eq_some_iff.1 h
      rw [if_pos h0, ihz hz, Option.map_some]
    · rename_i h0
      split at h
      · rename_i h1
        obtain ⟨o', ho, rfl⟩ := Option.map_eq_some_iff.1 h
        rw [if_neg h0, if_pos h1, iho ho, Option.map_some]
      · nomatch h

theorem foldlM_mono {α β : Type} {f g : β → α → Option β} (hfg : ∀ s a s', f s a = some s' →
    g s a = some s') :
    ∀ (l : List α) (s s' : β), l.foldlM f s = some s' → l.foldlM g s = some s'
  | [], _, _, h => h
  | a :: l, s, s', h => by
    rw [List.foldlM_cons] at h ⊢
    obtain ⟨s₁, h₁, h₂⟩ := Option.bind_eq_some_iff.1 h
    rw [hfg s a s₁ h₁]
    exact foldlM_mono hfg l s₁ s' h₂

theorem do_insert_item_mono {fuel fuel' : Nat} (hle : fuel ≤ fuel') {item : Item}
    (h : do_insert_item hash self_id fuel t item = some t') :
      do_insert_item hash self_id fuel' t item = some t' := by
  induction fuel generalizing fuel' t t' item with
  | zero => nomatch h
  | succ fuel ih =>
    obtain ⟨m, rfl⟩ : ∃ m, fuel' = m + 1 := ⟨fuel' - 1, by omega⟩
    refine update_bucket_mono (fun p b s hs => ?_) h
    unfold insert_leaf at hs ⊢
    dsimp only at hs ⊢
    split at hs
    · rename_i hlt
      rw [if_pos hlt]
      exact hs
    · rename_i hlt
      rw [if_neg hlt]
      split at hs
      · rename_i hself
        rw [if_pos hself]
        exact foldlM_mono (fun s e s' hs => ih (by omega) hs) _ _ _ hs
      · rename_i hself
        rw [if_neg hself]
        exact hs

theorem step_mono {fuel fuel' : Nat} (hle : fuel ≤ fuel') {kb kb' : KBucket} {op : Op}
    (h : step hash fuel kb op = some kb') : step hash fuel' kb op = some kb' := by
  cases op with
  | insert_item item =>
    obtain ⟨t, ht, rfl⟩ := Option.map_eq_some_iff.1 h
    simp only [step, do_insert_item_mono hle ht, Option.map_some]
  | insert_items items =>
    obtain ⟨t, ht, rfl⟩ := Option.map_eq_some_iff.1 h
    simp only [step, foldlM_mono (fun _ _ _ hs => do_insert_item_mono hle hs) _ _ _ ht, Option.map_some]
  | update_item item => exact h
  | delete_item key => exact h

/-! ## Operations -/

variable {kb kb' : KBucket} {fuel : Nat}

/-- The keys an operation is about. -/
def Op.keys (hash : Addr → Word) : Op → List Word
  | .insert_item item => [item.key hash]
  | .insert_items items => items.map (Item.key hash)
  | .update_item item => [item.key hash]
  | .delete_item key => [key]

/-- Only a deletion takes a member away, and only the one it names. -/
structure Kept (hash : Addr → Word) (op : Op) (t t' : Tree) : Prop where
  others : ∀ key, key ∉ op.keys hash → t'.get key = t.get key
  members : ∀ key, op ≠ .delete_item key → (t.get key).isSome → (t'.get key).isSome

theorem Inserted.others {item : Item} (h : Inserted hash self_id t item t') (hk : key ≠ item.key hash) :
    t'.get key = t.get key := by
  rcases h with h | ⟨-, h⟩
  · rw [h, if_neg hk]
  · exact h key

theorem Inserted.members {item : Item} (h : Inserted hash self_id t item t') (hk : (t.get key).isSome) :
    (t'.get key).isSome := by
  rcases h with h | ⟨-, h⟩
  · rw [h]
    split
    · rfl
    · exact hk
  · rw [h]
    exact hk

theorem insert_spec (hwf : WF hash self_id [] t) (item : Item) (hf : 257 ≤ fuel) :
    ∃ t', do_insert_item hash self_id fuel t item = some t' ∧ WF hash self_id [] t' ∧
      Inserted hash self_id t item t' := by
  have hdeep : ∀ t : Tree, Deep 0 t := fun t => by
    induction t with
    | leaf p b => exact Nat.zero_le _
    | node p z o ihz iho => exact ⟨ihz, iho⟩
  obtain ⟨t', ht', hwf', -, hins⟩ := do_insert_item_spec fuel 0 hf [] t item hwf
    (starts_nil _) (hdeep t)
  exact ⟨t', ht', hwf', hins⟩

theorem insert_items_spec (hf : 257 ≤ fuel) : ∀ (items : List Item) (t : Tree), WF hash self_id [] t →
    ∃ t', items.foldlM (do_insert_item hash self_id fuel) t = some t' ∧ WF hash self_id [] t' ∧
      Kept hash (.insert_items items) t t'
  | [], t, h => ⟨t, rfl, h, fun _ _ => rfl, fun _ _ h => h⟩
  | item :: items, t, h => by
    obtain ⟨t₁, h₁, hwf₁, hins⟩ := insert_spec h item hf
    obtain ⟨t₂, h₂, hwf₂, hkept⟩ := insert_items_spec hf items t₁ hwf₁
    refine ⟨t₂, by rw [List.foldlM_cons, h₁]; exact h₂, hwf₂, fun key hk => ?_, fun key _ hm => ?_⟩
    · simp only [Op.keys, List.map_cons, List.mem_cons, not_or] at hk
      exact (hkept.others key hk.2).trans (hins.others hk.1)
    · exact hkept.members key (by simp) (hins.members hm)

/-- An operation on a leaf alone, which changes the entry of its key. -/
theorem update_spec (hwf : WF hash self_id [] t) {f : Bucket → Bucket}
    (hf : ∀ q b, Starts q key → LeafOk hash q b → LeafOk hash q (f b) ∧ ∀ j, j ≠ key →
      (f b).get j = b.get j) :
    ∃ t' q b, update_bucket key (fun p bucket => some (.leaf p (f bucket))) t = some t' ∧
      WF hash self_id [] t' ∧
      Site hash self_id [] key t q b ∧ t'.get key = (f b).get key ∧ ∀ j, j ≠ key →
        t'.get j = t.get j := by
  obtain ⟨q, b, hsite⟩ := exists_site hwf (starts_nil key)
  obtain ⟨hleaf, hget⟩ := hf q b hsite.starts hsite.leaf
  obtain ⟨t', ht', hrep⟩ := hsite.update (fun p bucket => some (.leaf p (f bucket))) _ rfl ⟨rfl, hleaf⟩
  refine ⟨t', q, b, ht', hrep.wf, hsite, by rw [hrep.get, if_pos hsite.starts]; rfl, fun j hj => ?_⟩
  rw [hrep.get]
  by_cases hq : Starts q j
  · rw [if_pos hq, hsite.get j hq]
    exact hget j hj
  · rw [if_neg hq]

theorem leafOk_del (h : LeafOk hash q b) (key : Word) : LeafOk hash q (b.del key) where
  short := h.short
  starts e he := h.starts e (Assoc.mem_del he)
  keyed e he := h.keyed e (Assoc.mem_del he)
  small := Nat.lt_of_le_of_lt (Assoc.del_length ..) h.small

theorem leafOk_update (h : LeafOk hash q b) (item : Item) (hs : Starts q (item.key hash)) :
    LeafOk hash q (if (b.get (item.key hash)).isSome then b.put (item.key hash) item else b) := by
  by_cases hg : (b.get (item.key hash)).isSome
  · rw [if_pos hg]
    refine ⟨h.short, fun e he => ?_, fun e he => ?_, ?_⟩
    · rcases put_entries he with rfl | he
      · exact hs
      · exact h.starts e he
    · rcases put_entries he with rfl | he
      · rfl
      · exact h.keyed e he
    · rw [SMap.length_put, if_pos hg, Nat.add_zero]
      exact h.small
  · rwa [if_neg hg]

theorem step_spec (hwf : WF hash kb.self_id [] kb.tree) (op : Op) (hf : 257 ≤ fuel) :
    ∃ kb', step hash fuel kb op = some kb' ∧ kb'.self_id = kb.self_id ∧ WF hash kb.self_id [] kb'.tree ∧
      Kept hash op kb.tree kb'.tree := by
  cases op with
  | insert_item item =>
    obtain ⟨t', ht', hwf', hins⟩ := insert_spec hwf item hf
    exact ⟨⟨kb.self_id, t'⟩, by simp [step, ht'], rfl, hwf',
      fun key hk => hins.others (by simpa [Op.keys] using hk), fun key _ hm => hins.members hm⟩
  | insert_items items =>
    obtain ⟨t', ht', hwf', hkept⟩ := insert_items_spec hf items kb.tree hwf
    exact ⟨⟨kb.self_id, t'⟩, by simp [step, ht'], rfl, hwf', hkept⟩
  | update_item item =>
    obtain ⟨t', q, b, ht', hwf', hsite, hkey, hother⟩ := @update_spec hash kb.self_id kb.tree
      (item.key hash) hwf
      (fun b => if (b.get (item.key hash)).isSome then b.put (item.key hash) item else b)
      fun q b hs hb => ⟨leafOk_update hb item hs, fun j hj => by
        by_cases hg : (b.get (item.key hash)).isSome
        · rw [if_pos hg, SMap.get_put_ne _ _ (Ne.symm hj)]
        · rw [if_neg hg]⟩
    have hfun : (fun (p : List Bool) (bucket : Bucket) => if (bucket.get (item.key hash)).isSome
        then some (Tree.leaf p (bucket.put (item.key hash) item)) else some (.leaf p bucket)) =
          fun p bucket =>
          some (.leaf p (if (bucket.get (item.key hash)).isSome then bucket.put (item.key hash) item else bucket)) := by
      funext p bucket
      split <;> rfl
    refine ⟨⟨kb.self_id, t'⟩, by simp only [step, hfun, ht', Option.map_some], rfl, hwf',
      fun key hk => hother key (by simpa [Op.keys] using hk), fun key _ hm => ?_⟩
    by_cases hk : key = item.key hash
    · rw [hk, hsite.get _ hsite.starts] at hm
      change (t'.get key).isSome
      rw [hk, hkey, if_pos hm, SMap.get_put_self]
      rfl
    · exact (hother key hk).symm ▸ hm
  | delete_item key =>
    obtain ⟨t', q, b, ht', hwf', -, -, hother⟩ := @update_spec hash kb.self_id kb.tree key hwf
      (fun b => b.del key)
      fun q b _ hb => ⟨leafOk_del hb key, fun j hj => by rw [SMap.get_del, if_neg (Ne.symm hj)]⟩
    refine ⟨⟨kb.self_id, t'⟩, by simp only [step, ht', Option.map_some], rfl, hwf',
      fun j hk => hother j (by simpa [Op.keys] using hk), fun j hj hm => ?_⟩
    have hne : j ≠ key := fun h => hj (by rw [h])
    exact (hother j hne).symm ▸ hm

theorem wf_new (hash : Addr → Word) (self_id : Addr) : WF hash self_id [] (new hash self_id).tree := by
  refine ⟨rfl, Nat.zero_le _, fun e _ => starts_nil _, fun e he => ?_, show 1 < 20 by decide⟩
  rcases put_entries he with rfl | he
  · rfl
  · nomatch he

theorem run_spec (hf : 257 ≤ fuel) : ∀ (ops : List Op) (kb : KBucket), WF hash kb.self_id [] kb.tree →
    ∃ kb', run hash fuel kb ops = some kb' ∧ kb'.self_id = kb.self_id ∧ WF hash kb.self_id [] kb'.tree ∧
      ∀ key, (∀ op ∈ ops, op ≠ .delete_item key) → (kb.tree.get key).isSome → (kb'.tree.get key).isSome
  | [], kb, h => ⟨kb, rfl, rfl, h, fun _ _ h => h⟩
  | op :: ops, kb, h => by
    obtain ⟨kb₁, h₁, hself, hwf₁, hkept⟩ := step_spec h op hf
    obtain ⟨kb₂, h₂, hself₂, hwf₂, hmem⟩ := run_spec hf ops kb₁ (hself.symm ▸ hwf₁)
    refine ⟨kb₂, by rw [run, List.foldlM_cons, h₁]; exact h₂, hself₂.trans hself, hself ▸ hwf₂, fun key hops hm => ?_⟩
    exact hmem key (fun op hop => hops op (List.mem_cons_of_mem _ hop))
      (hkept.members key (hops op List.mem_cons_self) hm)

/-! ## The invariant -/

structure Sound (hash : Addr → Word) (kb : KBucket) : Prop where
  placed : ∀ leaf ∈ kb.tree.leaves, ∀ e ∈ leaf.2.entries, Starts leaf.1 (e.2.key hash) ∧
    e.2.key hash = e.1
  once : (kb.tree.to_list.map (Item.key hash)).Nodup
  own : ∃ item ∈ kb.tree.to_list, item.key hash = hash kb.self_id
  small : ∀ leaf ∈ kb.tree.leaves, leaf.2.entries.length < k

theorem WF.leaves (h : WF hash self_id p t) : ∀ leaf ∈ t.leaves, p <+: leaf.1 ∧
    LeafOk hash leaf.1 leaf.2 := by
  induction t generalizing p with
  | leaf q b =>
    intro leaf hl
    obtain rfl := List.mem_singleton.1 hl
    exact ⟨h.1 ▸ List.prefix_rfl, h.1 ▸ h.2⟩
  | node q z o ihz iho =>
    intro leaf hl
    rcases List.mem_append.1 hl with hl | hl
    · exact (ihz h.2.2.1 leaf hl).imp_left (List.prefix_append ..).trans
    · exact (iho h.2.2.2 leaf hl).imp_left (List.prefix_append ..).trans

/-- A key is looked for in the leaf it starts with. -/
theorem WF.get_leaf (h : WF hash self_id p t) : ∀ leaf ∈ t.leaves, Starts leaf.1 key →
    t.get key = leaf.2.get key := by
  induction t generalizing p with
  | leaf q b =>
    intro leaf hl _
    obtain rfl := List.mem_singleton.1 hl
    rfl
  | node q z o ihz iho =>
    intro leaf hl hs
    have hnode := h
    obtain ⟨rfl, -, hz, ho⟩ := h
    rcases List.mem_append.1 hl with hl | hl
    · rw [hnode.get_zero ((hz.leaves leaf hl).1.trans hs), ihz hz leaf hl hs]
    · rw [hnode.get_one ((ho.leaves leaf hl).1.trans hs), iho ho leaf hl hs]

theorem WF.nodes (h : WF hash self_id p t) : ∀ r ∈ t.nodes, Starts r (hash self_id) := by
  induction t generalizing p with
  | leaf q b => exact nofun
  | node q z o ihz iho =>
    intro r hr
    rcases List.mem_cons.1 hr with rfl | hr
    · exact h.1 ▸ h.2.1
    · rcases List.mem_append.1 hr with hr | hr
      · exact ihz h.2.2.1 r hr
      · exact iho h.2.2.2 r hr

theorem WF.keys (h : WF hash self_id p t) : t.to_list.map (Item.key hash) = t.entries.map Prod.fst := by
  rw [Tree.to_list, List.map_map]
  exact List.map_congr_left fun e he => (h.mem e he).2

theorem WF.sound (h : WF hash kb.self_id [] kb.tree)
    (hown : (kb.tree.get (hash kb.self_id)).isSome) : Sound hash kb where
  placed leaf hl e he := by
    have hok := (h.leaves leaf hl).2
    exact ⟨by rw [hok.keyed e he]; exact hok.starts e he, hok.keyed e he⟩
  once := by
    rw [h.keys, List.Nodup, List.pairwise_map]
    exact h.sorted.imp fun hlt => ne_of_lt hlt
  own := by
    obtain ⟨item, hitem⟩ := Option.isSome_iff_exists.1 hown
    have hmem := (h.get_iff _ item).1 hitem
    exact ⟨item, List.mem_map.2 ⟨_, hmem, rfl⟩, (h.mem _ hmem).2⟩
  small leaf hl := (h.leaves leaf hl).2.small

/-- The tree a run leads to, and what one more operation does to it. -/
theorem kbuckets_invariant (hash : Addr → Word) (self_id : Addr) (ops : List Op)
    (hops : ∀ op ∈ ops, op ≠ .delete_item (hash self_id)) :
    ∃ kb, (∀ fuel, 257 ≤ fuel → run hash fuel (new hash self_id) ops = some kb) ∧
      kb.self_id = self_id ∧ Sound hash kb ∧
      ∀ op, ∃ kb', (∀ fuel, 257 ≤ fuel → step hash fuel kb op = some kb') ∧
        Kept hash op kb.tree kb'.tree ∧
        ∀ leaf ∈ kb.tree.leaves, leaf.1 ∈ kb'.tree.nodes → (leaf.2.get (hash self_id)).isSome := by
  have hnew : ((new hash self_id).tree.get (hash self_id)).isSome := by
    change ((SMap.put .empty (hash self_id) (self self_id)).get (hash self_id)).isSome
    rw [SMap.get_put_self]
    rfl
  obtain ⟨kb, hrun, hself, hwf, hmem⟩ := run_spec (Nat.le_refl 257) ops (new hash self_id)
    (wf_new hash self_id)
  change kb.self_id = self_id at hself
  subst hself
  change WF hash kb.self_id [] kb.tree at hwf
  have hown := hmem _ hops hnew
  refine ⟨kb, fun fuel hf => ?_, rfl, hwf.sound hown, fun op => ?_⟩
  · exact foldlM_mono (fun _ _ _ hs => step_mono hf hs) _ _ _ hrun
  · obtain ⟨kb', hstep, -, hwf', hkept⟩ := step_spec hwf op (Nat.le_refl 257)
    refine ⟨kb', fun fuel hf => step_mono hf hstep, hkept, fun leaf hl hnode => ?_⟩
    rw [← hwf.get_leaf leaf hl (hwf'.nodes _ hnode)]
    exact hown

/-- The six lowest bits of an address come first. -/
def low_bits (a : Addr) : Word := a.setWidth 256 <<< 250

def crowd : List Op :=
  (List.range 20).map (fun i => .insert_item (self (BitVec.ofNat 160 (i + 1)))) ++ [.delete_item (low_bits 7)]

/-- Nineteen peers beside the node itself agree with it in the first bit, so the leaf
is split twice, and one more peer is in its half. -/
theorem kbuckets_invariant_split :
    (∀ op ∈ crowd, op ≠ .delete_item (low_bits 0)) ∧
      ∃ kb, (∀ fuel, 257 ≤ fuel → run low_bits fuel (new low_bits 0) crowd = some kb) ∧
        kb.tree.nodes = [[], [false]] ∧ kb.tree.leaves.map (fun leaf => leaf.2.entries.length) = [15, 5, 0] ∧
        Sound low_bits kb := by
  have hops : ∀ op ∈ crowd, op ≠ .delete_item (low_bits 0) := by
    intro op hop
    rcases List.mem_append.1 hop with hop | hop
    · obtain ⟨i, -, rfl⟩ := List.mem_map.1 hop
      exact nofun
    · obtain rfl := List.mem_singleton.1 hop
      intro heq
      exact absurd (Op.delete_item.inj heq) (by decide)
  obtain ⟨kb, hrun, -, hsound, -⟩ := kbuckets_invariant low_bits 0 crowd hops
  have hshape : (run low_bits 257 (new low_bits 0) crowd).map (fun kb => (kb.tree.nodes,
      kb.tree.leaves.map fun leaf => leaf.2.entries.length)) = some ([[], [false]], [15, 5, 0]) := by
    decide +kernel
  rw [hrun 257 (Nat.le_refl 257), Option.map_some] at hshape
  obtain ⟨hnodes, hleaves⟩ := Prod.mk.inj (Option.some.inj hshape)
  exact ⟨hops, kb, hrun, hnodes, hleaves, hsound⟩

end Diode.L6.KBuckets
