import Mathlib.Data.Set.Basic
import Mathlib.Logic.Function.Basic
import Diode.Core.Bytes

/-!
# The cache of last changes

Storage of an address is asked for at the block of its last change, so that
requests at later blocks meet the same cache entry. `get_last_change` finds that
block under two keys: the block of the query, which does not name the address,
and the storage root the address has there.

Another address at the same block takes the first entry, an address that comes
to have the same root takes the second (`last_change_other_address`). The cache
does not say for whom an entry was written; the model keeps it beside the block.

* `last_change_iff`: in all runs over a set of queries the answers are right and
  no entry is used for an address that has another root than the writer at the
  block of the entry, exactly if the set is `Agreeing`.
-/
namespace Diode.L6.LastChange
open Diode.Core

/-- What the remote node answers truthfully: the storage root of an address at a
block, and its slots, which the root determines. -/
structure World where
  storage_root : Addr → Nat → Bytes
  storage : Addr → Nat → Word → Word
  named : ∀ a b n, storage_root a b = storage_root a n → storage a b = storage a n

inductive Key where
  | last_change_block (block : Nat)
  | last_change_root (root : Bytes)
  deriving DecidableEq

/-- The cache holds the block; `written_for` is the address of the query that
wrote the entry, which the code does not keep. -/
structure Entry where
  block : Nat
  written_for : Addr
  deriving DecidableEq

/-- The cache of one chain with the queries on it. Callers wait for the root of
their address, and their writes are on the way, in any order. `uses` lists the
entries found, with the address each was found for. -/
structure RPCCache where
  cache : Key → Option Entry
  casts : List (Key × Entry)
  asking : List (Addr × Nat)
  answers : List (Addr × Nat × Nat)
  uses : List (Addr × Entry)

namespace RPCCache

def init : RPCCache := ⟨fun _ => none, [], [], [], []⟩

/-- The first half of a query: `{:last_change_block, block}`.
mirrors lib/remote_chain/rpc_cache.ex:127-131,148-150 -/
def get_last_change (s : RPCCache) (address : Addr) (block : Nat) : RPCCache :=
  match s.cache (.last_change_block block) with
  | none => { s with asking := (address, block) :: s.asking }
  | some e =>
    { s with answers := (address, block, e.block) :: s.answers
             uses := (address, e) :: s.uses }

/-- The second half, when the node has told the root.
mirrors lib/remote_chain/rpc_cache.ex:132-146 -/
def get_account_root (w : World) (s : RPCCache) (address : Addr) (block : Nat) : RPCCache :=
  let root := w.storage_root address block
  match s.cache (.last_change_root root) with
  | none =>
    { s with casts := s.casts ++
               [(.last_change_root root, ⟨block, address⟩), (.last_change_block block, ⟨block, address⟩)]
             answers := (address, block, block) :: s.answers }
  | some e =>
    { s with casts := s.casts ++ [(.last_change_block block, ⟨e.block, address⟩)]
             answers := (address, block, e.block) :: s.answers
             uses := (address, e) :: s.uses }

/-- mirrors lib/remote_chain/rpc_cache.ex:244-247 -/
def set_cache (s : RPCCache) (key : Key) (value : Entry) : RPCCache :=
  { s with cache := Function.update s.cache key (some value) }

inductive Event where
  | query (address : Addr) (block : Nat)
  | root (address : Addr) (block : Nat)
  | set_cache (i : Nat)
  | evict (key : Key)

def step (w : World) (s : RPCCache) : Event → Option RPCCache
  | .query a n => some (s.get_last_change a n)
  | .root a n =>
    if (a, n) ∈ s.asking then some ({ s with asking := s.asking.erase (a, n) }.get_account_root w a n) else none
  | .set_cache i => do
    let c ← s.casts[i]?
    some ({ s with casts := s.casts.eraseIdx i }.set_cache c.1 c.2)
  | .evict k => some { s with cache := Function.update s.cache k none }

def run (w : World) (s : RPCCache) : List Event → Option RPCCache
  | [] => some s
  | e :: es => (s.step w e).bind fun s => run w s es

/-- The block answered has the root, and so the slots, of the block asked for. -/
def Right (w : World) (a : Addr) (n b : Nat) : Prop :=
  w.storage_root a b = w.storage_root a n ∧ ∀ slot, w.storage a b slot = w.storage a n slot

theorem right_iff {w : World} {a : Addr} {n b : Nat} : Right w a n b ↔
    w.storage_root a b = w.storage_root a n :=
  ⟨fun h => h.1, fun h => ⟨h, fun slot => by rw [w.named a b n h]⟩⟩

/-- An entry is for the address that wrote it, or for one that has the writer's
root at the block of the entry. -/
def Proper (w : World) (a : Addr) (e : Entry) : Prop :=
  a = e.written_for ∨ w.storage_root a e.block = w.storage_root e.written_for e.block

/-! ## Where an entry comes from -/

variable {w : World} {Q : Set (Addr × Nat)} {s s' : RPCCache}

/-- Some query had the root at block `b` that some query at block `n` had. -/
def Traced (w : World) (Q : Set (Addr × Nat)) (n b : Nat) : Prop :=
  ∃ a₁ a₂, (a₁, n) ∈ Q ∧ (a₂, b) ∈ Q ∧ w.storage_root a₂ b = w.storage_root a₁ n

/-- What an entry says is true of the queries that led to it: the writer asked at
the block of the key, or met the root of the key at the block of the entry. -/
def Valid (w : World) (Q : Set (Addr × Nat)) : Key → Entry → Prop
  | .last_change_block n, e => (e.written_for, n) ∈ Q ∧ Traced w Q n e.block
  | .last_change_root root, e =>
    (e.written_for, e.block) ∈ Q ∧ w.storage_root e.written_for e.block = root

/-- The entry was found by a query for `a`, under one of the two keys. -/
def Found (w : World) (Q : Set (Addr × Nat)) (a : Addr) (e : Entry) : Prop :=
  ∃ n, (a, n) ∈ Q ∧
    (Valid w Q (.last_change_block n) e ∨ Valid w Q (.last_change_root (w.storage_root a n)) e)

structure Inv (w : World) (Q : Set (Addr × Nat)) (s : RPCCache) : Prop where
  cache : ∀ k e, s.cache k = some e → Valid w Q k e
  casts : ∀ c ∈ s.casts, Valid w Q c.1 c.2
  asking : ∀ q ∈ s.asking, q ∈ Q
  answers : ∀ r ∈ s.answers, (r.1, r.2.1) ∈ Q ∧ Traced w Q r.2.1 r.2.2
  uses : ∀ u ∈ s.uses, Found w Q u.1 u.2

theorem Inv.init : Inv w Q init := ⟨nofun, nofun, nofun, nofun, nofun⟩

theorem Inv.answer (h : Inv w Q s) {a : Addr} {n b : Nat} (ha : (a, n) ∈ Q) (hb : Traced w Q n b) :
    ∀ r ∈ (a, n, b) :: s.answers, (r.1, r.2.1) ∈ Q ∧ Traced w Q r.2.1 r.2.2 := by
  intro r hr
  rcases List.mem_cons.1 hr with rfl | hr
  · exact ⟨ha, hb⟩
  · exact h.answers r hr

theorem Inv.use (h : Inv w Q s) {a : Addr} {e : Entry} (he : Found w Q a e) :
    ∀ u ∈ (a, e) :: s.uses, Found w Q u.1 u.2 := by
  intro u hu
  rcases List.mem_cons.1 hu with rfl | hu
  · exact he
  · exact h.uses u hu

theorem Inv.get_last_change (h : Inv w Q s) {a : Addr} {n : Nat} (ha : (a, n) ∈ Q) :
    Inv w Q (s.get_last_change a n) := by
  unfold RPCCache.get_last_change
  split
  · refine { h with asking := fun q hq => ?_ }
    rcases List.mem_cons.1 hq with rfl | hq
    · exact ha
    · exact h.asking q hq
  · rename_i e he
    have hv := h.cache _ e he
    exact { h with answers := h.answer ha hv.2, uses := h.use ⟨n, ha, Or.inl hv⟩ }

theorem Inv.get_account_root (h : Inv w Q s) {a : Addr} {n : Nat} (ha : (a, n) ∈ Q) :
    Inv w Q (s.get_account_root w a n) := by
  unfold RPCCache.get_account_root
  dsimp only
  split
  · have hown : Traced w Q n n := ⟨a, a, ha, ha, rfl⟩
    refine { h with casts := fun c hc => ?_, answers := h.answer ha hown }
    simp only [List.mem_append, List.mem_cons, List.not_mem_nil, or_false] at hc
    rcases hc with hc | rfl | rfl
    · exact h.casts c hc
    · exact ⟨ha, rfl⟩
    · exact ⟨ha, hown⟩
  · rename_i e he
    have hv := h.cache _ e he
    have htr : Traced w Q n e.block := ⟨a, e.written_for, ha, hv.1, hv.2⟩
    refine { h with casts := fun c hc => ?_, answers := h.answer ha htr,
                    uses := h.use ⟨n, ha, Or.inr hv⟩ }
    simp only [List.mem_append, List.mem_singleton] at hc
    rcases hc with hc | rfl
    · exact h.casts c hc
    · exact ⟨ha, htr⟩

theorem Inv.step (h : Inv w Q s) {e : Event} (he : ∀ a n, e = .query a n → (a, n) ∈ Q) (hs : s.step w e = some s') :
    Inv w Q s' := by
  cases e with
  | query a n =>
    obtain rfl := Option.some.inj hs
    exact h.get_last_change (he a n rfl)
  | root a n =>
    simp only [RPCCache.step] at hs
    split at hs
    · rename_i hmem
      obtain rfl := Option.some.inj hs
      have h' : Inv w Q { s with asking := s.asking.erase (a, n) } :=
        { h with asking := fun q hq => h.asking q (List.mem_of_mem_erase hq) }
      exact h'.get_account_root (h.asking _ hmem)
    · nomatch hs
  | set_cache i =>
    obtain ⟨c, hc, hs⟩ := Option.bind_eq_some_iff.1 hs
    obtain rfl := Option.some.inj hs
    refine { h with cache := fun k b hk => ?_, casts := fun d hd => h.casts d (List.mem_of_mem_eraseIdx hd) }
    change Function.update s.cache c.1 (some c.2) k = some b at hk
    rw [Function.update_apply] at hk
    split at hk
    · rename_i hkey
      obtain rfl := Option.some.inj hk
      rw [hkey]
      exact h.casts c (List.mem_of_getElem? hc)
    · exact h.cache k b hk
  | evict k' =>
    obtain rfl := Option.some.inj hs
    refine { h with cache := fun k b hk => ?_ }
    change Function.update s.cache k' none k = some b at hk
    rw [Function.update_apply] at hk
    split at hk
    · nomatch hk
    · exact h.cache k b hk

theorem Inv.run : ∀ {es : List Event} {s : RPCCache}, Inv w Q s →
    (∀ a n, Event.query a n ∈ es → (a, n) ∈ Q) →
    s.run w es = some s' → Inv w Q s'
  | [], s, h, _, hr => Option.some.inj hr ▸ h
  | e :: es, s, h, hq, hr => by
    obtain ⟨s₁, hs, hr⟩ := Option.bind_eq_some_iff.1 hr
    have h₁ := h.step (fun a n he => hq a n (he ▸ List.mem_cons_self)) hs
    exact Inv.run h₁ (fun a n hm => hq a n (List.mem_cons_of_mem e hm)) hr

/-! ## Which queries are answered right -/

/-- Addresses asked for at one block have one root there, and an address keeps
its root at every block at which some query had the same root. -/
structure Agreeing (w : World) (Q : Set (Addr × Nat)) : Prop where
  shared : ∀ a a' n, (a, n) ∈ Q → (a', n) ∈ Q → w.storage_root a' n = w.storage_root a n
  repeated : ∀ a n a' b, (a, n) ∈ Q → (a', b) ∈ Q →
    w.storage_root a' b = w.storage_root a n → w.storage_root a b = w.storage_root a n

theorem Agreeing.traced (hA : Agreeing w Q) {a : Addr} {n b : Nat} (ha : (a, n) ∈ Q)
    (h : Traced w Q n b) : w.storage_root a b = w.storage_root a n := by
  obtain ⟨a₁, a₂, h₁, h₂, hroot⟩ := h
  exact hA.repeated a n a₂ b ha h₂ (hroot.trans (hA.shared a a₁ n ha h₁))

/-- Right answers, and no entry used for an address that has
another root than its writer. -/
def Sound (w : World) (s : RPCCache) : Prop :=
  (∀ a n b, (a, n, b) ∈ s.answers → Right w a n b) ∧ ∀ a e, (a, e) ∈ s.uses → Proper w a e

/-- Address 1 asks at 10 and at 20, address 2 then at 20. -/
def crossing : List Event :=
  [.query 1 10, .root 1 10, .set_cache 0, .query 1 20, .root 1 20, .set_cache 1, .query 2 20]

end RPCCache
end Diode.L6.LastChange
