import Mathlib.Data.List.MinMax
import Mathlib.Data.Set.Finite.Basic
import Mathlib.Data.Set.Finite.List
import Mathlib.Data.Set.Insert
import Mathlib.Logic.Function.Basic
import Diode.Core.Bytes
import Diode.Core.Rank

/-!
# Blocks kept for the sync, and the search of their oldest parent

Blocks that do not yet connect to the chain lie in a table, or in the queue of
the worker that writes the table. For a block that comes in `search_parent`
finds the oldest ancestor that is there. A query takes it 10000 blocks or more
down the table, the queue goes on from there, and a shortcut is cached when the
block found has a round number.

A search whose block is its own oldest ancestor caches that block under its own
hash, and the next search of it goes round for ever
(`search_stored_root_twice`). A block that is new is returned as it is, also
when its parent is queued.

* `search_iff`: in every state of every run a search ends, at a block whose
  parent is not queued, exactly if it does not come to one of these two.
-/
namespace Diode.L6.Sync
open Diode.Core Relation

/-- What the sync reads of a block. -/
structure Block where
  hash : Bytes
  parent_hash : Option Bytes
  number : Nat
  miner_signature : Option Bytes
  deriving DecidableEq

/-- mirrors lib/chain/block.ex:917-942 -/
def Block.miner_signature_valid (b : Block) : Bool :=
  match b.miner_signature with
  | none => false
  | some [] => false
  | some sig => ofBe sig ≠ 0

/-- The table `blocks`, whose primary key is the hash. -/
structure Table where
  rows : List Block
  nodup : (rows.map Block.hash).Nodup

namespace Table

/-- `WHERE hash = h` -/
def get (t : Table) (h : Bytes) : Option Block := t.rows.find? fun b => b.hash = h

/-- `DELETE FROM blocks`, all but the rows that are kept. -/
def keep (t : Table) (p : Block → Bool) : Table where
  rows := t.rows.filter p
  nodup := t.nodup.sublist (List.filter_sublist.map Block.hash)

/-- The inserts of one transaction; a key that is there fails it. -/
def insert (t : Table) (blocks : List Block) : Option Table :=
  if h : ((t.rows ++ blocks).map Block.hash).Nodup then some ⟨t.rows ++ blocks, h⟩ else none

/-- The rows of `parents_of` from a hash on, at most `left` links deeper. -/
def parents_of (t : Table) : Nat → Bytes → Nat → List (Bytes × Nat)
  | 0, n, depth => [(n, depth)]
  | left + 1, n, depth =>
    match t.get n with
    | some ⟨_, some p, _, _⟩ => (n, depth) :: t.parents_of left p (depth + 1)
    | _ => [(n, depth)]

/-- `blocks INNER JOIN parents_of` -/
def joined (t : Table) (h : Bytes) (max_depth : Nat) : List (Block × Nat) :=
  (t.parents_of max_depth h 0).filterMap fun r => (t.get r.1).map fun b => (b, r.2)

end Table

/-- `ORDER BY blocks.number ASC LIMIT 1`: any row of least number, among equals
the database is free. -/
structure Picked where
  pick : List (Block × Nat) → Option (Block × Nat)
  none_iff : ∀ l, pick l = none ↔ l = []
  mem : ∀ l r, pick l = some r → r ∈ l
  least : ∀ l r, pick l = some r → ∀ q ∈ l, r.1.number ≤ q.1.number

/-- The first of the rows of least number. -/
def Picked.first : Picked where
  pick := List.argmin fun r => r.1.number
  none_iff _ := List.argmin_eq_none
  mem _ _ h := List.argmin_mem h
  least _ _ h _ hq := List.le_of_mem_argmin (f := fun r : Block × Nat => r.1.number) hq h

/-- The server with the table, the blocks its worker was sent and the hashes the
worker has cast as `:done`. -/
structure SyncSql where
  blocks : Table
  queue : Bytes → Option Block
  cache : Bytes → Option Block
  worker : List Block
  done : List Bytes

def parent_search_depth : Nat := 10000

namespace SyncSql

/-- mirrors lib/model/syncsql.ex:279-315, less the count of the rows -/
def purge_invalid_blocks_from_db_and_queue (t : Table) (queue : Bytes → Option Block) :
    Table × (Bytes → Option Block) :=
  let bad := t.rows.filter fun b => ¬ b.miner_signature_valid
  let queue : Bytes → Option Block := bad.foldl (fun queue b => Function.update queue b.hash none) queue
  (t.keep Block.miner_signature_valid, fun h => (queue h).filter Block.miner_signature_valid)

/-- mirrors lib/model/syncsql.ex:27-46 -/
def init (t : Table) : SyncSql where
  blocks := (purge_invalid_blocks_from_db_and_queue t fun _ => none).1
  queue := fun _ => none
  cache := fun _ => none
  worker := []
  done := []

/-- mirrors lib/model/syncsql.ex:317-322 -/
def queue_top : Nat → Block → (Bytes → Option Block) → Option Block
  | 0, _, _ => none
  | fuel + 1, block, queue =>
    match block.parent_hash.bind queue with
    | none => some block
    | some parent => queue_top fuel parent queue

/-- mirrors lib/model/syncsql.ex:236-262 -/
def fetch_ancestor_within_depth (sql : Picked) (t : Table) (hash : Bytes) (max_depth : Nat) :
    Option (Block × Nat) :=
  sql.pick (t.joined hash max_depth)

/-- `%{state | queue: Map.put(queue, hash, block)}`, the block sent to the worker. -/
def enqueue (s : SyncSql) (b : Block) : SyncSql :=
  { s with worker := s.worker ++ [b], queue := Function.update s.queue b.hash (some b) }

/-- mirrors lib/model/syncsql.ex:264-277 -/
def search_parent_missing_in_db (fuel : Nat) (s : SyncSql) (block : Block) : Option (Block × SyncSql) :=
  if (s.queue block.hash).isSome then do
    let top ← queue_top fuel block s.queue
    some (top, s)
  else if block.miner_signature_valid then some (block, s.enqueue block)
  else some (block, s)

/-- How far a query looks. -/
def depth (block : Block) : Nat := parent_search_depth + block.number % parent_search_depth

/-- `%{state | cache: Map.put(state.cache, hash, ancestor)}`, for a round number. -/
def remember (s : SyncSql) (hash : Bytes) (ancestor : Block) : SyncSql :=
  if ancestor.number % 1000 = 0 then { s with cache := Function.update s.cache hash (some ancestor) } else s

/-- mirrors lib/model/syncsql.ex:198-234 -/
def search_parent (sql : Picked) : Nat → SyncSql → Block → Option (Block × SyncSql)
  | 0, _, _ => none
  | fuel + 1, s, block =>
    match s.cache block.hash with
    | some cached => search_parent sql fuel s cached
    | none =>
      match fetch_ancestor_within_depth sql s.blocks block.hash (depth block) with
      | none => search_parent_missing_in_db fuel s block
      | some (ancestor, d) => do
        let ancestor2 ← queue_top fuel ancestor s.queue
        let s := s.remember block.hash ancestor2
        if d = depth block then search_parent sql fuel s ancestor2 else some (ancestor2, s)

/-- The worker writes the next `n` blocks it was sent, the last one first. If that
fails it goes down with the server, and both start again.
mirrors lib/model/syncsql.ex:70-131 -/
def worker_flush (s : SyncSql) (n : Nat) : SyncSql :=
  let accepted := (s.worker.take n).reverse.filter Block.miner_signature_valid
  match s.blocks.insert accepted with
  | some t => { s with blocks := t, worker := s.worker.drop n, done :=
      s.done ++ accepted.map Block.hash }
  | none => init s.blocks

inductive Event where
  | search (b : Block)
  | flush (n : Nat)
  | done
  | clean_before (peaknumber : Nat)
  | purge
  | restart

/-- A purge first waits until the worker has written all it was sent. -/
def step (sql : Picked) (s : SyncSql) : Event → SyncSql → Prop
  | .search b, s' => ∃ fuel r, search_parent sql fuel s b = some (r, s')
  | .flush n, s' => s' = s.worker_flush n
  | .done, s' => ∃ h rest, s.done = h :: rest ∧
      s' = { s with queue := Function.update s.queue h none, done := rest }
  | .clean_before n, s' => s' = { s with blocks := s.blocks.keep fun b => ¬ b.number < n }
  | .purge, s' => s.worker = [] ∧
      s' = { s with blocks := (purge_invalid_blocks_from_db_and_queue s.blocks s.queue).1
                    queue := (purge_invalid_blocks_from_db_and_queue s.blocks s.queue).2 }
  | .restart, s' => s' = init s.blocks

/-- The blocks in the table and the queue. -/
def held (s : SyncSql) : Set Block := {x | x ∈ s.blocks.rows ∨ ∃ h, s.queue h = some x}

/-- The states a run from some table on leads to, with all blocks that have been
in the table or the queue on the way. -/
inductive Run (sql : Picked) : Set Block → SyncSql → Prop where
  | init (t : Table) : Run sql (init t).held (init t)
  | step {S : Set Block} {s s' : SyncSql} {e : Event} (h : Run sql S s) (hs : s.step sql e s') :
      Run sql (S ∪ s'.held) s'

end SyncSql

/-! ## Parents -/

/-- A block of the set links its hash to that of its parent. -/
def Link (S : Set Block) (h h' : Bytes) : Prop := ∃ b ∈ S, b.hash = h ∧ b.parent_hash = some h'

theorem Link.mono {S S' : Set Block} (hs : S ⊆ S') {h h' : Bytes} : Link S h h' → Link S' h h'
  | ⟨b, hb, e⟩ => ⟨b, hs hb, e⟩

theorem descends_mono {S S' : Set Block} (hs : S ⊆ S') {h h' : Bytes}
    (hd : ReflTransGen (Link S) h h') :
    ReflTransGen (Link S') h h' :=
  ReflTransGen.mono (fun _ _ => Link.mono hs) _ _ hd

variable {S : Set Block} {rank : Bytes → Nat} {sql : Picked} {t : Table} {q : Bytes → Option Block}

theorem Table.get_spec {h : Bytes} {b : Block} (hg : t.get h = some b) : b ∈ t.rows ∧ b.hash = h :=
  ⟨List.mem_of_find?_eq_some hg, by simpa using List.find?_some hg⟩

/-- A query goes down the links of the table: no step at depth 0, some step below. -/
theorem Table.mem_parents_of (ht : ∀ b ∈ t.rows, b ∈ S) {h' : Bytes} {d : Nat} :
    ∀ (left : Nat) {h : Bytes} {depth : Nat}, (h', d) ∈ t.parents_of left h depth →
      depth ≤ d ∧ ReflTransGen (Link S) h h' ∧ (depth < d → TransGen (Link S) h h')
  | 0, h, depth, hm => by
    simp only [parents_of, List.mem_singleton, Prod.mk.injEq] at hm
    obtain ⟨rfl, rfl⟩ := hm
    exact ⟨Nat.le_refl _, .refl, fun hlt => absurd hlt (Nat.lt_irrefl _)⟩
  | left + 1, h, depth, hm => by
    have hroot : (h', d) ∈ [(h, depth)] →
        depth ≤ d ∧ ReflTransGen (Link S) h h' ∧ (depth < d → TransGen (Link S) h h') := by
      intro hm
      simp only [List.mem_singleton, Prod.mk.injEq] at hm
      obtain ⟨rfl, rfl⟩ := hm
      exact ⟨Nat.le_refl _, .refl, fun hlt => absurd hlt (Nat.lt_irrefl _)⟩
    unfold parents_of at hm
    split at hm
    · rename_i bh p n sig hg
      rcases List.mem_cons.1 hm with hm | hm
      · exact hroot (List.mem_singleton.2 hm)
      · obtain ⟨hb, hh⟩ := get_spec hg
        have hlink : Link S h p := ⟨_, ht _ hb, hh, rfl⟩
        obtain ⟨hle, hd, _⟩ := mem_parents_of ht left hm
        exact ⟨by omega, .head hlink hd, fun _ => TransGen.head' hlink hd⟩
    · exact hroot hm

namespace SyncSql

theorem fetch_spec (ht : ∀ b ∈ t.rows, b ∈ S) {h : Bytes} {m : Nat} {r : Block × Nat}
    (hf : fetch_ancestor_within_depth sql t h m = some r) :
    r.1 ∈ S ∧ ReflTransGen (Link S) h r.1.hash ∧ (0 < r.2 → TransGen (Link S) h r.1.hash) := by
  obtain ⟨⟨h', d⟩, hm, hg⟩ := List.mem_filterMap.1 (sql.mem _ _ hf)
  obtain ⟨b, hb, rfl⟩ := Option.map_eq_some_iff.1 hg
  obtain ⟨hrow, rfl⟩ := Table.get_spec hb
  obtain ⟨_, hd, hlt⟩ := Table.mem_parents_of ht m hm
  exact ⟨ht _ hrow, hd, hlt⟩

/-- A query finds something exactly for a stored hash. -/
theorem fetch_eq_none {h : Bytes} {m : Nat} : fetch_ancestor_within_depth sql t h m = none ↔
    t.get h = none := by
  unfold fetch_ancestor_within_depth
  rw [sql.none_iff, Table.joined, List.filterMap_eq_nil_iff]
  refine ⟨?_, ?_⟩
  · intro hall
    have hroot : (h, 0) ∈ t.parents_of m h 0 := by
      cases m with
      | zero => simp [Table.parents_of]
      | succ m => unfold Table.parents_of; split <;> simp
    simpa using hall _ hroot
  · intro hg r hr
    have hone : t.parents_of m h 0 = [(h, 0)] := by
      cases m with
      | zero => rfl
      | succ m => simp [Table.parents_of, hg]
    rw [hone, List.mem_singleton] at hr
    simp [hr, hg]

/-! ## The top of the queue -/

theorem queue_top_mono {b x : Block} : ∀ {n m : Nat}, n ≤ m → queue_top n b q = some x →
    queue_top m b q = some x
  | n + 1, m + 1, h, hx => by
    unfold queue_top at hx ⊢
    split
    · simpa [‹_›] using hx
    · rename_i p hp
      rw [hp] at hx
      exact queue_top_mono (by omega) hx

theorem queue_top_unique {b x y : Block} {n m : Nat} (hx : queue_top n b q = some x)
    (hy : queue_top m b q = some y) :
    x = y := by
  have hx' := queue_top_mono (Nat.le_max_left n m) hx
  rw [queue_top_mono (Nat.le_max_right n m) hy] at hx'
  exact (Option.some.inj hx').symm

/-- Every queued block is filed under its hash. -/
def Filed (S : Set Block) (q : Bytes → Option Block) : Prop := ∀ h x, q h = some x → x.hash = h ∧ x ∈ S

theorem Filed.link (hq : Filed S q) {b p : Block} (hb : b ∈ S) (hp : b.parent_hash.bind q = some p) :
    p ∈ S ∧ Link S b.hash p.hash := by
  obtain ⟨h, hh, hqh⟩ := Option.bind_eq_some_iff.1 hp
  obtain ⟨rfl, hS⟩ := hq h p hqh
  exact ⟨hS, b, hb, rfl, hh⟩

theorem queue_top_spec (hq : Filed S q) {x : Block} : ∀ {n : Nat} {b : Block}, b ∈ S →
    queue_top n b q = some x →
    x ∈ S ∧ ReflTransGen (Link S) b.hash x.hash ∧ x.parent_hash.bind q = none
  | n + 1, b, hb, hx => by
    unfold queue_top at hx
    split at hx
    · rename_i hp
      obtain rfl := Option.some.inj hx
      exact ⟨hb, .refl, hp⟩
    · rename_i p hp
      obtain ⟨hpS, hl⟩ := hq.link hb hp
      obtain ⟨hxS, hd, hfree⟩ := queue_top_spec hq hpS hx
      exact ⟨hxS, .head hl hd, hfree⟩

theorem queue_top_total (hq : Filed S q) (hr : Ranked (Link S) rank) {b : Block} (hb : b ∈ S) :
    ∃ n x, queue_top n b q = some x := by
  induction hk : rank b.hash using Nat.strong_induction_on generalizing b with
  | _ k ih =>
    cases hp : b.parent_hash.bind q with
    | none => exact ⟨1, b, by simp [queue_top, hp]⟩
    | some p =>
      obtain ⟨hpS, hl⟩ := hq.link hb hp
      obtain ⟨n, x, hx⟩ := ih _ (hk ▸ hr hl) hpS rfl
      exact ⟨n + 1, x, by simp [queue_top, hp, hx]⟩

/-! ## What the server knows -/

/-- The blocks of the state are of `S`, and a shortcut goes down links of `S`. -/
structure Known (S : Set Block) (s : SyncSql) : Prop where
  rows : ∀ b ∈ s.blocks.rows, b ∈ S
  queue : Filed S s.queue
  cache : ∀ h x, s.cache h = some x → x ∈ S ∧ ReflTransGen (Link S) h x.hash

variable {s s' : SyncSql} {b r : Block} {n : Nat}

theorem Known.mono {S' : Set Block} (h : Known S s) (hs : S ⊆ S') : Known S' s where
  rows x hx := hs (h.rows x hx)
  queue k x hx := ⟨(h.queue k x hx).1, hs (h.queue k x hx).2⟩
  cache k x hx := ⟨hs (h.cache k x hx).1, descends_mono hs (h.cache k x hx).2⟩

theorem Known.remember (h : Known S s) {k : Bytes} (hr : r ∈ S) (hd : ReflTransGen (Link S) k r.hash) :
    Known S (s.remember k r) := by
  unfold SyncSql.remember
  split
  · refine ⟨h.rows, h.queue, fun h' x hx => ?_⟩
    simp only [Function.update_apply] at hx
    split at hx
    · obtain rfl := Option.some.inj hx
      subst h'
      exact ⟨hr, hd⟩
    · exact h.cache h' x hx
  · exact h

@[simp] theorem remember_queue (k : Bytes) : (s.remember k r).queue = s.queue := by
  unfold remember; split <;> rfl

@[simp] theorem remember_blocks (k : Bytes) : (s.remember k r).blocks = s.blocks := by
  unfold remember; split <;> rfl

theorem remember_cache_ne {h k : Bytes} (hne : h ≠ k) : (s.remember k r).cache h = s.cache h := by
  unfold remember
  split
  · exact Function.update_of_ne hne _ _
  · rfl

/-! ## One search -/

theorem search_mono : ∀ {n m : Nat} {s : SyncSql} {b : Block} {x : Block × SyncSql}, n ≤ m →
    search_parent sql n s b = some x → search_parent sql m s b = some x
  | n + 1, m + 1, s, b, x, h, hx => by
    have hnm : n ≤ m := by omega
    unfold search_parent at hx ⊢
    split
    · rename_i c hc
      rw [hc] at hx
      exact search_mono hnm hx
    · rename_i hc
      rw [hc] at hx
      dsimp only at hx
      split
      · rename_i hf
        rw [hf] at hx
        dsimp only at hx
        unfold search_parent_missing_in_db at hx ⊢
        split
        · rename_i hq
          rw [if_pos hq] at hx
          obtain ⟨y, hy, hx⟩ := Option.bind_eq_some_iff.1 hx
          simpa [queue_top_mono hnm hy] using hx
        · rename_i hq
          rw [if_neg hq] at hx
          exact hx
      · rename_i a d hf
        rw [hf] at hx
        obtain ⟨y, hy, hx⟩ := Option.bind_eq_some_iff.1 hx
        simp only [queue_top_mono hnm hy, Option.bind_eq_bind, Option.bind_some]
        split
        · rename_i hd
          rw [if_pos hd] at hx
          exact search_mono hnm hx
        · rename_i hd
          rw [if_neg hd] at hx
          exact hx

/-- What a search may do: it answers with the block or an ancestor, and on the
way at most caches shortcuts and queues the block it answers with. -/
theorem search_spec : ∀ {n : Nat} {s : SyncSql} {b : Block}, Known S s →
    search_parent sql n s b = some (r, s') →
    r ∈ insert b S ∧ ReflTransGen (Link (insert b S)) b.hash r.hash ∧
      ∃ s₁, Known S s₁ ∧ s₁.blocks = s.blocks ∧ s₁.queue = s.queue ∧ (s' = s₁ ∨ s' = s₁.enqueue r)
  | n + 1, s, b, hk, h => by
    have hsub : S ⊆ insert b S := Set.subset_insert b S
    unfold search_parent at h
    split at h
    · rename_i c hc
      obtain ⟨hcS, hd⟩ := hk.cache _ c hc
      obtain ⟨hr, hd', hs⟩ := search_spec hk h
      rw [Set.insert_eq_of_mem hcS] at hr hd'
      exact ⟨hsub hr, descends_mono hsub (hd.trans hd'), hs⟩
    · dsimp only at h
      split at h
      · unfold search_parent_missing_in_db at h
        split at h
        · obtain ⟨x, hx, h⟩ := Option.bind_eq_some_iff.1 h
          obtain ⟨rfl, rfl⟩ := Prod.mk.inj (Option.some.inj h)
          obtain ⟨hr, hd, _⟩ := queue_top_spec (hk.mono hsub).queue (Set.mem_insert b S) hx
          exact ⟨hr, hd, _, hk, rfl, rfl, .inl rfl⟩
        · split at h
          · obtain ⟨rfl, rfl⟩ := Prod.mk.inj (Option.some.inj h)
            exact ⟨Set.mem_insert _ _, .refl, s, hk, rfl, rfl, .inr rfl⟩
          · obtain ⟨rfl, rfl⟩ := Prod.mk.inj (Option.some.inj h)
            exact ⟨Set.mem_insert _ _, .refl, _, hk, rfl, rfl, .inl rfl⟩
      · rename_i a d hf
        obtain ⟨x, hx, h⟩ := Option.bind_eq_some_iff.1 h
        obtain ⟨haS, hda, _⟩ := fetch_spec hk.rows hf
        obtain ⟨hxS, hdx, _⟩ := queue_top_spec hk.queue haS hx
        have hk' : Known S (s.remember b.hash x) := hk.remember hxS (hda.trans hdx)
        split at h
        · obtain ⟨hr, hd', s₁, hs₁, hb₁, hq₁, hs⟩ := search_spec hk' h
          rw [Set.insert_eq_of_mem hxS] at hr hd'
          exact ⟨hsub hr, descends_mono hsub ((hda.trans hdx).trans hd'), s₁, hs₁,
            by rw [hb₁, remember_blocks], by rw [hq₁, remember_queue], hs⟩
        · obtain ⟨rfl, rfl⟩ := Prod.mk.inj (Option.some.inj h)
          exact ⟨hsub hxS, descends_mono hsub (hda.trans hdx), _, hk', remember_blocks _,
            remember_queue _, .inl rfl⟩

/-- A block that is its own shortcut is never left. -/
theorem search_own_shortcut {c : Block} (hc : s.cache b.hash = some c) (h : c.hash = b.hash) (n : Nat) :
    search_parent sql n s b = none := by
  induction n generalizing b with
  | zero => rfl
  | succ n ih =>
    unfold search_parent
    rw [hc]
    exact ih (by rw [h, hc]) rfl

/-! ## Where a search goes -/

/-- One hop of a search, along a shortcut or a query of the full depth. -/
def Hop (sql : Picked) (s : SyncSql) (x y : Block) : Prop :=
  s.cache x.hash = some y ∨
    s.cache x.hash = none ∧ ∃ a n,
      fetch_ancestor_within_depth sql s.blocks x.hash (depth x) = some (a, depth x) ∧
        queue_top n a s.queue = some y

/-- The block is not its own shortcut, and if it is new its parent is not queued. -/
def Good (s : SyncSql) (x : Block) : Prop :=
  (∀ c, s.cache x.hash = some c → c.hash ≠ x.hash) ∧
    (s.cache x.hash = none → s.blocks.get x.hash = none → s.queue x.hash = none →
      x.parent_hash.bind s.queue = none)

/-- Every block that the hops of a search lead to is good. -/
def Clear (sql : Picked) (s : SyncSql) (b : Block) : Prop := ∀ x, ReflTransGen (Hop sql s) b x → Good s x

theorem clear_iff : Clear sql s b ↔ Good s b ∧ ∀ y, Hop sql s b y → Clear sql s y := by
  refine ⟨?_, ?_⟩
  · exact fun h => ⟨h b .refl, fun y hy x hx => h x (.head hy hx)⟩
  · rintro ⟨hb, h⟩ x hx
    rcases ReflTransGen.cases_head hx with rfl | ⟨y, hy, hx⟩
    · exact hb
    · exact h y hy x hx

theorem Hop.le (hk : Known S s) (hr : Ranked (Link S) rank) {x y : Block} (h : Hop sql s x y) :
    y ∈ S ∧ rank y.hash ≤ rank x.hash := by
  rcases h with hc | ⟨_, a, n, hf, hy⟩
  · obtain ⟨hyS, hd⟩ := hk.cache _ y hc
    exact ⟨hyS, hr.le hd⟩
  · obtain ⟨haS, hda, _⟩ := fetch_spec hk.rows hf
    obtain ⟨hyS, hd, _⟩ := queue_top_spec hk.queue haS hy
    exact ⟨hyS, hr.le (hda.trans hd)⟩

/-- A shortcut to another block goes down. -/
theorem shortcut_lt (hk : Known S s) (hr : Ranked (Link S) rank) {c : Block}
    (hc : s.cache b.hash = some c)
    (hne : c.hash ≠ b.hash) : rank c.hash < rank b.hash := by
  rcases reflTransGen_iff_eq_or_transGen.1 (hk.cache _ c hc).2 with he | hd
  · exact absurd he hne
  · exact hr.trans hd

/-- A query of the full depth goes down. -/
theorem deep_lt (hk : Known S s) (hr : Ranked (Link S) rank) {a x : Block}
    (hf : fetch_ancestor_within_depth sql s.blocks b.hash (depth b) = some (a, depth b))
    (hx : queue_top n a s.queue = some x) : rank x.hash < rank b.hash := by
  obtain ⟨haS, _, hlt⟩ := fetch_spec hk.rows hf
  obtain ⟨_, hd, _⟩ := queue_top_spec hk.queue haS hx
  have hpos : 0 < depth b := by unfold depth parent_search_depth; omega
  have := hr.trans (hlt hpos)
  have := hr.le hd
  omega

/-- Shortcuts of blocks further up do not matter. -/
theorem clear_congr {s₁ : SyncSql} {k : Nat} (hk : Known S s₁) (hr : Ranked (Link S) rank)
    (hb : s₁.blocks = s.blocks)
    (hq : s₁.queue = s.queue) (hc : ∀ h, rank h < k → s₁.cache h = s.cache h) (hlt : rank b.hash < k)
    (h : Clear sql s b) : Clear sql s₁ b := by
  intro x hx
  have htrail : ReflTransGen (Hop sql s) b x ∧ rank x.hash < k := by
    induction hx with
    | refl => exact ⟨.refl, hlt⟩
    | tail _ hop ih =>
      refine ⟨ih.1.tail ?_, by have := (hop.le hk hr).2; omega⟩
      simpa only [Hop, hb, hq, hc _ ih.2] using hop
  have hgood := h x htrail.1
  simpa only [Good, hb, hq, hc _ htrail.2] using hgood

/-- The search ends, at a block whose parent is not queued. -/
def Rests (sql : Picked) (s : SyncSql) (b : Block) : Prop :=
  ∃ n r s', search_parent sql n s b = some (r, s') ∧ r.parent_hash.bind s'.queue = none

theorem rests_shortcut {c : Block} (hc : s.cache b.hash = some c) : Rests sql s b ↔ Rests sql s c := by
  have hstep : ∀ n, search_parent sql (n + 1) s b = search_parent sql n s c := fun n => by
    rw [search_parent, hc]
  refine ⟨?_, ?_⟩
  · intro hx
    obtain ⟨n, r, s', h, hfree⟩ := hx
    cases n with
    | zero => simp [search_parent] at h
    | succ n => exact ⟨n, r, s', by rw [← hstep, h], hfree⟩
  · intro hx
    obtain ⟨n, r, s', h, hfree⟩ := hx
    exact ⟨n + 1, r, s', by rw [hstep, h], hfree⟩

theorem rests_deep {a x : Block} (hc : s.cache b.hash = none)
    (hf : fetch_ancestor_within_depth sql s.blocks b.hash (depth b) = some (a, depth b))
    (hx : queue_top n a s.queue = some x) : Rests sql s b ↔ Rests sql (s.remember b.hash x) x := by
  refine ⟨?_, ?_⟩
  · intro hz
    obtain ⟨m, r, s', h, hfree⟩ := hz
    cases m with
    | zero => simp [search_parent] at h
    | succ m =>
      rw [search_parent, hc] at h
      simp only [hf] at h
      obtain ⟨y, hy, h⟩ := Option.bind_eq_some_iff.1 h
      obtain rfl := queue_top_unique hx hy
      exact ⟨m, r, s', by simpa using h, hfree⟩
  · intro hz
    obtain ⟨m, r, s', h, hfree⟩ := hz
    refine ⟨max n m + 1, r, s', ?_, hfree⟩
    rw [search_parent, hc]
    simp only [hf, queue_top_mono (Nat.le_max_left n m) hx, Option.bind_eq_bind,
      Option.bind_some, if_true]
    exact search_mono (Nat.le_max_right n m) h

/-- A query that finds a block before its full depth ends the search. -/
theorem rests_found {a x : Block} {d : Nat} (hk : Known S s) (hc : s.cache b.hash = none)
    (hf : fetch_ancestor_within_depth sql s.blocks b.hash (depth b) = some (a, d)) (hd : d ≠ depth b)
    (hx : queue_top n a s.queue = some x) : Rests sql s b := by
  refine ⟨n + 1, x, s.remember b.hash x, ?_, ?_⟩
  · rw [search_parent, hc]
    simp only [hf, hx, Option.bind_eq_bind, Option.bind_some, if_neg hd]
  · rw [remember_queue]
    exact (queue_top_spec hk.queue (fetch_spec hk.rows hf).1 hx).2.2

theorem rests_missing (hk : Known S s) (hr : Ranked (Link (insert b S)) rank)
    (hc : s.cache b.hash = none)
    (hf : fetch_ancestor_within_depth sql s.blocks b.hash (depth b) = none) : Rests sql s b ↔
      Good s b := by
  have hstep : ∀ n, search_parent sql (n + 1) s b = search_parent_missing_in_db n s b := fun n => by
    rw [search_parent, hc]
    simp only [hf]
  have hgood : Good s b ↔ (s.queue b.hash = none → b.parent_hash.bind s.queue = none) := by
    simp [Good, hc, fetch_eq_none.1 hf]
  cases hq : s.queue b.hash with
  | some x =>
    rw [hgood, hq]
    refine ⟨fun _ => nofun, fun _ => ?_⟩
    have hk' := hk.mono (Set.subset_insert b S)
    obtain ⟨n, y, hy⟩ := queue_top_total hk'.queue hr (Set.mem_insert b S)
    refine ⟨n + 1, y, s, ?_, (queue_top_spec hk'.queue (Set.mem_insert b S) hy).2.2⟩
    rw [hstep, search_parent_missing_in_db, hq]
    simp [hy]
  | none =>
    have henq : b.parent_hash.bind (s.enqueue b).queue = b.parent_hash.bind s.queue := by
      cases hp : b.parent_hash with
      | none => rfl
      | some p =>
        have := hr ⟨b, Set.mem_insert b S, rfl, hp⟩
        exact Function.update_of_ne (fun e => by rw [e] at this; omega) _ _
    have hres : ∀ n r s', search_parent sql (n + 1) s b = some (r, s') →
        r.parent_hash.bind s'.queue = b.parent_hash.bind s.queue := by
      intro n r s' h
      rw [hstep, search_parent_missing_in_db, hq, Option.isSome_none, if_neg Bool.false_ne_true] at h
      split at h
      · obtain ⟨rfl, rfl⟩ := Prod.mk.inj (Option.some.inj h)
        exact henq
      · obtain ⟨rfl, rfl⟩ := Prod.mk.inj (Option.some.inj h)
        rfl
    rw [hgood, hq]
    refine ⟨?_, ?_⟩
    · rintro ⟨n, r, s', h, hfree⟩ _
      cases n with
      | zero => simp [search_parent] at h
      | succ n => rw [← hres n r s' h, hfree]
    · intro h
      have hend : ∃ x, search_parent sql 1 s b = some x := by
        rw [hstep, search_parent_missing_in_db, hq, Option.isSome_none, if_neg Bool.false_ne_true]
        split <;> exact ⟨_, rfl⟩
      obtain ⟨⟨r, s'⟩, hx⟩ := hend
      exact ⟨1, r, s', hx, by rw [hres 0 r s' hx, h rfl]⟩

/-- The search of a block rests exactly if all blocks on its way are good. -/
theorem rests_iff (hk : Known S s) (hr : Ranked (Link (insert b S)) rank) : Rests sql s b ↔
    Clear sql s b := by
  have hrS : Ranked (Link S) rank := hr.mono fun _ _ => Link.mono (Set.subset_insert b S)
  induction hn : rank b.hash using Nat.strong_induction_on generalizing s b with
  | _ k ih =>
    subst hn
    have hbelow : ∀ {s₁ : SyncSql} {x : Block}, Known S s₁ → x ∈ S → rank x.hash < rank b.hash →
        (Rests sql s₁ x ↔ Clear sql s₁ x) := fun hk₁ hx hlt =>
      ih _ hlt hk₁ (by rwa [Set.insert_eq_of_mem hx]) rfl
    rw [clear_iff]
    cases hc : s.cache b.hash with
    | some c =>
      by_cases hne : c.hash = b.hash
      · refine ⟨?_, ?_⟩
        · intro hz
          obtain ⟨n, r, s', h, _⟩ := hz
          rw [search_own_shortcut hc hne] at h
          nomatch h
        · exact fun h => absurd hne (h.1.1 c hc)
      · rw [rests_shortcut hc, hbelow hk (hk.cache _ c hc).1 (shortcut_lt hk hrS hc hne)]
        refine ⟨?_, ?_⟩
        · intro h
          refine ⟨⟨fun c' hc' => ?_, fun hnone => ?_⟩, ?_⟩
          · rw [hc] at hc'
            obtain rfl := Option.some.inj hc'
            exact hne
          · rw [hc] at hnone
            nomatch hnone
          · rintro y (hy | ⟨hnone, _⟩)
            · rw [hc] at hy
              obtain rfl := Option.some.inj hy
              exact h
            · rw [hc] at hnone
              nomatch hnone
        · exact fun h => h.2 c (.inl hc)
    | none =>
      cases hf : fetch_ancestor_within_depth sql s.blocks b.hash (depth b) with
      | none =>
        rw [rests_missing hk hr hc hf]
        refine ⟨fun h => ⟨h, ?_⟩, fun h => h.1⟩
        rintro y (hy | ⟨_, a, n, hf', _⟩)
        · rw [hc] at hy
          nomatch hy
        · rw [hf] at hf'
          nomatch hf'
      | some r =>
        obtain ⟨a, d⟩ := r
        obtain ⟨haS, hda, _⟩ := fetch_spec hk.rows hf
        obtain ⟨n, x, hx⟩ := queue_top_total hk.queue hrS haS
        obtain ⟨hxS, hdx, _⟩ := queue_top_spec hk.queue haS hx
        have hgood : Good s b := by
          refine ⟨fun c hc' => ?_, fun _ hg => ?_⟩
          · rw [hc] at hc'
            nomatch hc'
          · rw [fetch_eq_none.2 hg] at hf
            nomatch hf
        by_cases hd : d = depth b
        · subst hd
          have hlt := deep_lt hk hrS hf hx
          have hk' := hk.remember hxS (hda.trans hdx)
          have hcache : ∀ h, rank h < rank b.hash → (s.remember b.hash x).cache h = s.cache h := fun h hh =>
            remember_cache_ne fun e => by rw [e] at hh; omega
          rw [rests_deep hc hf hx, hbelow hk' hxS hlt]
          refine ⟨?_, ?_⟩
          · refine fun h => ⟨hgood, ?_⟩
            rintro y (hy | ⟨_, a', m, hf', hy⟩)
            · rw [hc] at hy
              nomatch hy
            · rw [hf] at hf'
              obtain rfl := (Prod.mk.inj (Option.some.inj hf')).1
              obtain rfl := queue_top_unique hx hy
              exact clear_congr hk hrS (remember_blocks _).symm (remember_queue _).symm
                (fun h hh => (hcache h hh).symm) hlt h
          · intro h
            exact clear_congr hk' hrS (remember_blocks _) (remember_queue _) hcache hlt
              (h.2 x (.inr ⟨hc, a, n, hf, hx⟩))
        · refine ⟨fun _ => ⟨hgood, ?_⟩, fun _ => rests_found hk hc hf hd hx⟩
          rintro y (hy | ⟨_, a', m, hf', hy⟩)
          · rw [hc] at hy
            nomatch hy
          · rw [hf] at hf'
            exact absurd (Prod.mk.inj (Option.some.inj hf')).2 hd

/-! ## Runs -/

theorem known_grow {T : Set Block} (hT : T.Finite) (hS : S.Finite) (hq : Filed T s.queue)
    (hc : ∀ h x, s.cache h = some x → x ∈ S ∧ ReflTransGen (Link S) h x.hash) :
    Known (S ∪ s.held) s ∧ (S ∪ s.held).Finite := by
  refine ⟨⟨fun x hx => .inr (.inl hx), fun h x hx => ⟨(hq h x hx).1, .inr (.inr ⟨h, hx⟩)⟩,
    fun h x hx => ?_⟩, ?_⟩
  · exact ⟨.inl (hc h x hx).1, descends_mono Set.subset_union_left (hc h x hx).2⟩
  · apply hS.union
    apply ((s.blocks.rows.finite_toSet).union hT).subset
    rintro x (hx | ⟨h, hx⟩)
    · exact .inl hx
    · exact .inr (hq h x hx).2

theorem purge_queue {h : Bytes} {x : Block}
    (hx : (purge_invalid_blocks_from_db_and_queue t q).2 h = some x) : q h = some x := by
  have hfold : ∀ (l : List Block) (q : Bytes → Option Block),
      l.foldl (fun (q : Bytes → Option Block) b => Function.update q b.hash none) q h = some x →
        q h = some x := by
    intro l
    induction l with
    | nil => exact fun q hx => hx
    | cons b l ih =>
      intro q hx
      have : Function.update q b.hash none h = some x := ih _ hx
      rw [Function.update_apply] at this
      split at this
      · nomatch this
      · exact this
  exact hfold _ q (Option.filter_eq_some_iff.1 hx).1

theorem step_known {e : Event} (hk : Known S s) (hS : S.Finite) (h : s.step sql e s') :
    Known (S ∪ s'.held) s' ∧ (S ∪ s'.held).Finite := by
  have hinit : ∀ t : Table, Known (S ∪ (init t).held) (init t) ∧ (S ∪ (init t).held).Finite := fun t =>
    known_grow hS hS nofun nofun
  cases e with
  | search b =>
    obtain ⟨n, r, hx⟩ := h
    obtain ⟨_, _, s₁, hk₁, _, _, rfl | rfl⟩ := search_spec hk hx
    · exact known_grow hS hS hk₁.queue hk₁.cache
    · refine known_grow (hS.insert r) hS (fun h x hx => ?_) hk₁.cache
      change Function.update s₁.queue r.hash (some r) h = some x at hx
      rw [Function.update_apply] at hx
      split at hx
      · obtain rfl := Option.some.inj hx
        exact ⟨(‹h = _›).symm, Set.mem_insert _ _⟩
      · exact ⟨(hk₁.queue h x hx).1, Set.mem_insert_of_mem _ (hk₁.queue h x hx).2⟩
  | flush n =>
    obtain rfl : s' = s.worker_flush n := h
    unfold worker_flush
    dsimp only
    split
    · exact known_grow hS hS hk.queue hk.cache
    · exact hinit _
  | done =>
    obtain ⟨k, rest, _, rfl⟩ := h
    refine known_grow hS hS (fun h x hx => ?_) hk.cache
    change Function.update s.queue k none h = some x at hx
    rw [Function.update_apply] at hx
    split at hx
    · nomatch hx
    · exact hk.queue h x hx
  | clean_before n =>
    obtain rfl : s' = _ := h
    exact known_grow hS hS hk.queue hk.cache
  | purge =>
    obtain ⟨_, rfl⟩ := h
    exact known_grow hS hS (fun h x hx => hk.queue h x (purge_queue hx)) hk.cache
  | restart =>
    obtain rfl : s' = init s.blocks := h
    exact hinit _

theorem Run.known (h : Run sql S s) : Known S s ∧ S.Finite := by
  induction h with
  | init t =>
    have := @known_grow ∅ (SyncSql.init t) ∅ Set.finite_empty Set.finite_empty nofun nofun
    rwa [Set.empty_union] at this
  | step _ hs ih => exact step_known ih.1 ih.2 hs

/-- The search answers with the block itself or an ancestor along blocks that
are, or were, in the table and the queue, and the parent of the answer is not
queued. -/
def Right (sql : Picked) (S : Set Block) (s : SyncSql) (b : Block) : Prop :=
  ∃ n r s', search_parent sql n s b = some (r, s') ∧ r ∈ insert b S ∧
    ReflTransGen (Link (insert b S)) b.hash r.hash ∧ r.parent_hash.bind s'.queue = none

theorem search_iff (h : Run sql S s) (ha : Acyclic (Link (insert b S))) : Right sql S s b ↔
    Clear sql s b := by
  obtain ⟨hk, hS⟩ := h.known
  have hdom : ∀ k k', Link (insert b S) k k' → k ∈ Block.hash '' insert b S := by
    intro k k' hy
    obtain ⟨x, hx, rfl, _⟩ := hy
    exact Set.mem_image_of_mem _ hx
  obtain ⟨rank, hr⟩ := exists_rank ((hS.insert b).image Block.hash) hdom ha
  rw [← rests_iff hk hr]
  refine ⟨?_, ?_⟩
  · intro hy
    obtain ⟨n, r, s', hx, _, _, hfree⟩ := hy
    exact ⟨n, r, s', hx, hfree⟩
  · intro hy
    obtain ⟨n, r, s', hx, hfree⟩ := hy
    obtain ⟨hr, hd, _⟩ := search_spec hk hx
    exact ⟨n, r, s', hx, hr, hd, hfree⟩

theorem held_init {x : Block} (hb : s.blocks = (init t).blocks) (hq : s.queue = fun _ => none)
    (hx : x ∈ s.held) : x ∈ t.rows := by
  rcases hx with hx | ⟨h, hx⟩
  · rw [hb] at hx
    exact List.mem_of_mem_filter hx
  · rw [hq] at hx
    nomatch hx

/-- Blocks whose hashes, read as numbers, are above those of their parents. -/
theorem acyclic_of_number (hS : ∀ x ∈ S, ∀ p ∈ x.parent_hash, ofBe p < ofBe x.hash) :
    Acyclic (Link S) := by
  have hr : Ranked (Link S) ofBe := by
    intro _ _ h
    obtain ⟨x, hx, rfl, hp⟩ := h
    exact hS x hx _ hp
  exact hr.acyclic

/-! A block of round number in the table, without its parent, and one with it. -/

def lone : Block := ⟨[1], some [0], 1000, some [1]⟩
def above : Block := ⟨[2], some [1], 1001, some [1]⟩

def lone_table : Table := ⟨[lone], by decide⟩
def pair_table : Table := ⟨[lone, above], by decide⟩

theorem acyclic_pair (hS : ∀ x ∈ S, x ∈ pair_table.rows) : Acyclic (Link S) :=
  acyclic_of_number fun x hx =>
    (by decide : ∀ x ∈ [lone, above], ∀ p ∈ x.parent_hash, ofBe p < ofBe x.hash) x (hS x hx)

theorem lone_first : search_parent Picked.first 2 (init lone_table) lone =
    some (lone, (init lone_table).remember lone.hash lone) := rfl

theorem above_first : search_parent Picked.first 2 (init pair_table) above =
    some (lone, (init pair_table).remember above.hash lone) := rfl

/-- The second search of a block that is its own oldest parent never ends. -/
theorem search_stored_root_twice : ∃ S s, Run Picked.first S s ∧ Acyclic (Link (insert lone S)) ∧
    ∀ n, search_parent Picked.first n s lone = none := by
  refine ⟨_, _, .step (e := .search lone) (.init lone_table) ⟨2, lone, lone_first⟩, acyclic_pair ?_, ?_⟩
  · have hmem : ∀ x ∈ lone_table.rows, x ∈ pair_table.rows := fun x hx => 
      List.mem_cons.2 (.inl (List.mem_singleton.1 hx))
    rintro x (rfl | hx | hx)
    · exact List.mem_cons_self
    · exact hmem x (held_init rfl rfl hx)
    · exact hmem x (held_init rfl rfl hx)
  · intro n
    exact @search_own_shortcut _ _ _ lone rfl rfl n

/-- The second search of a block above it takes the shortcut of the first. -/
theorem search_above_twice :
    let s := (init pair_table).remember above.hash lone
    s.cache above.hash = some lone ∧
      Right Picked.first ((init pair_table).held ∪ s.held) s above := by
  refine ⟨rfl, ?_⟩
  have hacyclic : Acyclic (Link (insert above ((init pair_table).held ∪
      ((init pair_table).remember above.hash lone).held))) := by
    refine acyclic_pair ?_
    rintro x (rfl | hx | hx)
    · exact List.mem_cons_of_mem _ List.mem_cons_self
    · exact held_init rfl rfl hx
    · exact held_init rfl rfl hx
  refine (search_iff (.step (e := .search above) (.init pair_table) ⟨2, lone, above_first⟩) hacyclic).2 ?_
  have hfetch : fetch_ancestor_within_depth Picked.first (init pair_table).blocks lone.hash
    (depth lone) = some (lone, 0) := rfl
  -- the shortcut leads to `lone`, which is stored, and its query ends the search
  have hlone : Clear Picked.first ((init pair_table).remember above.hash lone) lone := by
    refine clear_iff.2 ⟨⟨nofun, fun _ hget => nomatch hget⟩, ?_⟩
    rintro y (hy | ⟨_, a, n, hf, _⟩)
    · nomatch hy
    · have hf := hfetch.symm.trans hf
      nomatch hf
  refine clear_iff.2 ⟨⟨fun c hc => ?_, fun hnone => nomatch hnone⟩, ?_⟩
  · obtain rfl : lone = c := Option.some.inj hc
    decide
  · rintro y (hy | ⟨hnone, _⟩)
    · obtain rfl : lone = y := Option.some.inj hy
      exact hlone
    · nomatch hnone

end SyncSql
end Diode.L6.Sync
