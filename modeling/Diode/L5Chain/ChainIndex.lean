import Diode.L5Chain.BlockTree

/-!
# The two block number indexes

The chain server keeps the number of every block of the main chain twice: in the
ETS table behind `Chain.blockhash` and in the `number` column of the SQL table
`blocks`. A block that extends the peak is added to both, to SQL through the
queue of the writer; a heavier branch is made normative by walking it down, in
each index until that index already names the block.

`set_normative` on a table that reads as an index `f` gives a table that reads
as `ets_refetch` on `f` (`Reads.set_normative`), so one lemma about that walk
serves both (`ets_refetch_eq`). They differ in what lies above the new peak,
which only `put_peak` clears.
-/
namespace Diode.L5
open Diode.Core Block

/-! ## Difficulty -/

/-- What the difficulty of a block depends on besides its line: the timestamps
of the headers, the mode of the node and the difficulty of the genesis block. -/
structure Clock where
  timestamp : Block → Int
  dev_mode : Bool
  root : Nat

namespace Clock

def min_difficulty : Nat := 65536

/-- mirrors lib/chain.ex:124-126 -/
def blocktime_goal : Int := 15

/-- mirrors lib/chain/block.ex:625-652 -/
def do_difficulty (c : Clock) : Block → Nat
  | genesis _ => c.root
  | child p m s =>
    let delta := c.timestamp (child p m s) - c.timestamp p
    let diff := c.do_difficulty p
    let step := diff / 10
    let diff := if delta < blocktime_goal then diff + step else diff - step
    if diff < min_difficulty then min_difficulty else diff

/-- mirrors lib/chain/block.ex:617-623 -/
def difficulty (c : Clock) (b : Block) : Nat :=
  if c.dev_mode then 1 else c.do_difficulty b

/-- mirrors lib/chain/block.ex:656-664 -/
def total_difficulty (c : Clock) : Block → Nat
  | genesis m => c.difficulty (genesis m)
  | child p m s => c.difficulty (child p m s) + c.total_difficulty p

theorem total_difficulty_dev {c : Clock} (h : c.dev_mode = true) :
    ∀ b : Block, c.total_difficulty b = b.number + 1
  | genesis _ => by simp [total_difficulty, difficulty, h, number]
  | child p _ _ => by
    simp only [total_difficulty, difficulty, h, if_true, number, total_difficulty_dev h p]
    omega

end Clock

/-! ## The SQL table -/

/-- The rows of `blocks`: the hash is the primary key, the number may be NULL. -/
structure Table where
  rows : List (Block × Option Nat)
  nodup : (rows.map Prod.fst).Nodup

namespace Table

/-- `SELECT hash FROM blocks WHERE number = n` -/
def select (t : Table) (n : Nat) : List Block :=
  (t.rows.filter fun r => r.2 = some n).map Prod.fst

/-- `UPDATE blocks SET number = f` -/
def update (t : Table) (f : Block → Option Nat → Option Nat) : Table where
  rows := t.rows.map fun r => (r.1, f r.1 r.2)
  nodup := by
    rw [List.map_map]
    exact t.nodup

/-- mirrors lib/model/chainsql.ex:308-311 -/
def do_put_block_number (t : Table) (b : Block) : Table :=
  t.update fun x o => if x = b then some b.number else o

/-- `UPDATE blocks SET number = null WHERE number = n` -/
def clear (t : Table) (n : Nat) : Table :=
  t.update fun _ o => if o = some n then none else o

/-- `UPDATE blocks SET number = NULL WHERE number > n` -/
def clear_above (t : Table) (n : Nat) : Table :=
  t.update fun _ o => if o.any (n < ·) then none else o

def stored (t : Table) : List Block := t.rows.map Prod.fst

/-- mirrors lib/model/chainsql.ex:318-346: `INSERT OR FAIL` with no number. -/
def do_put_new_block (t : Table) (b : Block) : Table :=
  if h : b ∈ t.stored then t else ⟨(b, none) :: t.rows, List.nodup_cons.2 ⟨h, t.nodup⟩⟩

/-- mirrors lib/model/chainsql.ex:279-302. The genesis block's parent keeps the
number -1, the walk ends there. -/
def set_normative : Block → Table → Table
  | genesis m, t =>
    match t.select 0 with
    | [] => t.do_put_block_number (genesis m)
    | others => if others = [genesis m] then t else (t.clear 0).do_put_block_number (genesis m)
  | child p m s, t =>
    match t.select (p.number + 1) with
    | [] => set_normative p (t.do_put_block_number (child p m s))
    | others =>
      if others = [child p m s] then t
      else set_normative p ((t.clear (p.number + 1)).do_put_block_number (child p m s))

end Table

/-! ## The chain server -/

/-- An item in the writer's queue. -/
inductive Write where
  | block (b : Block)
  | num (b : Block)

/-- mirrors lib/model/chainsql.ex:151-188 -/
def do_write (t : Table) : Write → Table
  | .block b => t.do_put_new_block b
  | .num b => t.do_put_block_number b

structure Chain where
  peak : Block
  ets : Nat → Option Block
  blocks : Table
  writer : List Write

inductive Reply where
  | rejected
  | stored
  | added
  deriving DecidableEq

/-- mirrors lib/chain.ex:661-677 -/
def ets_refetch : Block → (Nat → Option Block) → Nat → Option Block
  | genesis m, ets => if ets 0 = some (genesis m) then ets else Function.update ets 0 (genesis m)
  | child p m s, ets =>
    if ets (p.number + 1) = some (child p m s) then ets
    else ets_refetch p (Function.update ets (p.number + 1) (child p m s))

namespace Chain

/-- The table once the writer has written all of its queue. -/
def flushed (s : Chain) : Table := s.writer.foldl do_write s.blocks

/-- mirrors lib/model/chainsql.ex:313-316, with the check of `Block.validate`
that the parent is known. -/
def put_new_block (s : Chain) (b : Block) : Chain :=
  if ∀ p ∈ b.parent, p ∈ s.flushed.stored then { s with writer := s.writer ++ [.block b] } else s

/-- mirrors lib/model/chainsql.ex:407-413: `wait_for_done` first. -/
def put_peak (s : Chain) (b : Block) : Table :=
  (s.flushed.clear_above b.number).set_normative b

/-- mirrors lib/chain.ex:330-424. There is no reply for a block that the node
does not have: the lookup of its fields raises in the caller. -/
def add_block (c : Clock) (s : Chain) (b : Block) : Option Reply × Chain :=
  if b ∉ s.flushed.stored then (none, s)
  else if b.number < 1 then (some .rejected, s)
  else if b.parent ≠ some s.peak ∧ c.total_difficulty b ≤ c.total_difficulty s.peak then
    (some .stored, s)
  else if b.parent = some s.peak then
    (some .added,
      { peak := b
        ets := Function.update s.ets b.number b
        blocks := s.blocks
        writer := s.writer ++ [.num b] })
  else
    (some .added,
      { peak := b
        ets := ets_refetch b s.ets
        blocks := s.put_peak b
        writer := [] })

/-- mirrors lib/model/chainsql.ex:141-149 -/
def write (s : Chain) : Chain :=
  match s.writer with
  | [] => s
  | a :: rest => { s with blocks := do_write s.blocks a, writer := rest }

inductive Op where
  | put (b : Block)
  | add (b : Block)
  | write

def step (c : Clock) (s : Chain) : Op → Chain
  | .put b => s.put_new_block b
  | .add b => (s.add_block c b).2
  | .write => s.write

def run (c : Clock) (s : Chain) (ops : List Op) : Chain := ops.foldl (step c) s

end Chain
/-! ## What a table reads as -/

namespace Table

variable {t : Table} {b x : Block} {n k : Nat}

theorem mem_select : b ∈ t.select n ↔ (b, some n) ∈ t.rows := by
  simp only [select, List.mem_map, List.mem_filter, decide_eq_true_eq]
  refine ⟨?_, ?_⟩
  · intro hx
    obtain ⟨⟨x, o⟩, ⟨hr, rfl⟩, rfl⟩ := hx
    exact hr
  · exact fun h => ⟨(b, some n), ⟨h, rfl⟩, rfl⟩

theorem mem_stored : b ∈ t.stored ↔ ∃ o, (b, o) ∈ t.rows := by
  simp [stored]

theorem stored_of_select (h : b ∈ t.select n) : b ∈ t.stored := mem_stored.2 ⟨_, mem_select.1 h⟩

/-- At most one block has a number `n` when the members of the selection say so. -/
theorem select_eq {o : Option Block} :
    t.select n = o.toList ↔ ∀ b, b ∈ t.select n ↔ o = some b := by
  refine ⟨?_, ?_⟩
  · intro h b
    rw [h, Option.mem_toList]
  · intro h
    have hn : (t.select n).Nodup := (t.nodup.sublist ((List.filter_sublist).map Prod.fst))
    have hp : (t.select n).Perm o.toList := by
      rw [List.perm_ext_iff_of_nodup hn (by cases o <;> simp)]
      intro b
      rw [h b, Option.mem_toList]
    cases o with
    | none => exact List.perm_nil.1 hp
    | some a => exact List.perm_singleton.1 hp

theorem mem_update {f : Block → Option Nat → Option Nat} {o : Option Nat} :
    (b, o) ∈ (t.update f).rows ↔ ∃ o', (b, o') ∈ t.rows ∧ f b o' = o := by
  simp only [update, List.mem_map, Prod.exists, Prod.mk.injEq]
  refine ⟨?_, ?_⟩
  · intro h
    obtain ⟨x, o', hr, rfl, rfl⟩ := h
    exact ⟨o', hr, rfl⟩
  · intro h
    obtain ⟨o', hr, rfl⟩ := h
    exact ⟨b, o', hr, rfl, rfl⟩

@[simp] theorem stored_update {f : Block → Option Nat → Option Nat} :
    (t.update f).stored = t.stored := by
  simp [stored, update]

@[simp] theorem stored_do_put_block_number : (t.do_put_block_number b).stored = t.stored :=
  stored_update

@[simp] theorem stored_clear : (t.clear n).stored = t.stored := stored_update

@[simp] theorem stored_clear_above : (t.clear_above n).stored = t.stored := stored_update

theorem mem_stored_do_put_new_block :
    x ∈ (t.do_put_new_block b).stored ↔ x = b ∨ x ∈ t.stored := by
  unfold do_put_new_block
  split
  case isTrue h =>
    refine ⟨.inr, ?_⟩
    rintro (rfl | hx)
    · exact h
    · exact hx
  case isFalse => simp [stored]

theorem stored_set_normative : ∀ {b : Block} {t : Table}, (t.set_normative b).stored = t.stored
  | genesis m, t => by
    unfold set_normative
    split
    · simp
    · split <;> simp
  | child p m s, t => by
    unfold set_normative
    split
    · rw [stored_set_normative, stored_do_put_block_number]
    · split
      · rfl
      · rw [stored_set_normative, stored_do_put_block_number, stored_clear]

/-- The column reads as the index `f`: a block under its own number only. -/
structure Reads (t : Table) (f : Nat → Option Block) : Prop where
  mem : ∀ n b, b ∈ t.select n ↔ f n = some b
  own : ∀ n b, f n = some b → b.number = n

variable {f : Nat → Option Block}

theorem Reads.select (h : t.Reads f) (n : Nat) : t.select n = (f n).toList :=
  select_eq.2 (h.mem n)

theorem Reads.do_put_new_block (h : t.Reads f) : (t.do_put_new_block b).Reads f where
  own := h.own
  mem n x := by
    rw [← h.mem]
    unfold Table.do_put_new_block
    split
    · rfl
    · simp [mem_select]

theorem Reads.clear (h : t.Reads f) : (t.clear k).Reads (Function.update f k none) where
  mem n x := by
    rw [mem_select, Table.clear, mem_update, Function.update_apply]
    have hm := h.mem n x
    rw [mem_select] at hm
    split
    case isTrue hn =>
      subst hn
      simp only [reduceCtorEq, iff_false]
      intro hy
      obtain ⟨o, -, ho⟩ := hy
      split at ho
      · cases ho
      · exact absurd ho ‹_›
    case isFalse hn =>
      rw [← hm]
      refine ⟨?_, ?_⟩
      · intro hy
        obtain ⟨o, hr, ho⟩ := hy
        split at ho
        · cases ho
        · exact ho ▸ hr
      · exact fun hr => ⟨some n, hr, if_neg (by simpa using hn)⟩
  own n x hx := by
    rw [Function.update_apply] at hx
    split at hx
    · cases hx
    · exact h.own n x hx

theorem Reads.clear_above (h : t.Reads f) :
    (t.clear_above k).Reads fun n => if n ≤ k then f n else none where
  mem n x := by
    rw [mem_select, Table.clear_above, mem_update]
    have hm := h.mem n x
    rw [mem_select] at hm
    split
    case isTrue hn =>
      rw [← hm]
      refine ⟨?_, ?_⟩
      · intro hy
        obtain ⟨o, hr, ho⟩ := hy
        split at ho
        · cases ho
        · exact ho ▸ hr
      · exact fun hr => ⟨some n, hr, if_neg (by simpa using hn)⟩
    case isFalse hn =>
      simp only [reduceCtorEq, iff_false]
      intro hy
      obtain ⟨o, -, ho⟩ := hy
      split at ho
      · cases ho
      · subst ho
        simp at *
        omega
  own n x hx := by
    split at hx
    · exact h.own n x hx
    · cases hx

/-- The number is free, so the update puts the block there and nowhere else. -/
theorem Reads.do_put_block_number (h : t.Reads f) (hb : b ∈ t.stored) (hf : f b.number = none) :
    (t.do_put_block_number b).Reads (Function.update f b.number b) where
  mem n x := by
    rw [mem_select, Table.do_put_block_number, mem_update, Function.update_apply]
    have hm := h.mem n x
    rw [mem_select] at hm
    by_cases hx : x = b
    · subst hx
      obtain ⟨o, ho⟩ := mem_stored.1 hb
      simp only [if_true, Option.some.injEq]
      refine ⟨?_, ?_⟩
      · intro hy
        obtain ⟨-, -, rfl⟩ := hy
        rw [if_pos rfl]
      · intro hn
        refine ⟨o, ho, ?_⟩
        split at hn
        case isTrue heq => exact heq.symm
        case isFalse => exact h.own n x hn
    · simp only [if_neg hx, exists_eq_right, hm]
      split
      case isTrue hn =>
        subst hn
        simp [hf, Ne.symm hx]
      case isFalse => rfl
  own n x hx := by
    rw [Function.update_apply] at hx
    split at hx
    case isTrue hn =>
      cases hx
      exact hn.symm
    case isFalse => exact h.own n x hx

end Table

/-! ## The walk down a new branch -/

theorem Table.Reads.set_normative : ∀ {b : Block} {t : Table} {f : Nat → Option Block},
    t.Reads f → (∀ x : Block, x.Anc b → x ∈ t.stored) →
      (t.set_normative b).Reads (ets_refetch b f)
  | genesis m, t, f, h, hst => by
    have hb : genesis m ∈ t.stored := hst _ (Anc.refl _)
    have hc : (t.clear 0).Reads (Function.update f 0 none) := h.clear
    unfold Table.set_normative ets_refetch
    rw [h.select]
    cases hf : f 0 with
    | none => exact h.do_put_block_number hb hf
    | some y =>
      by_cases hy : y = genesis m
      · simpa [hy] using h
      · have := hc.do_put_block_number (by simpa using hb) (by simp [number])
        simpa [hy, number] using this
  | child p m s, t, f, h, hst => by
    have hb : child p m s ∈ t.stored := hst _ (Anc.refl _)
    have hc : (t.clear (p.number + 1)).Reads (Function.update f (p.number + 1) none) := h.clear
    unfold Table.set_normative ets_refetch
    rw [h.select]
    cases hf : f (p.number + 1) with
    | none =>
      have := h.do_put_block_number hb hf
      simpa [number] using this.set_normative fun x hx => by simpa using hst x (.inr hx)
    | some y =>
      by_cases hy : y = child p m s
      · simpa [hy] using h
      · have := hc.do_put_block_number (by simpa using hb) (by simp [number])
        have := this.set_normative fun x hx => by simpa using hst x (.inr hx)
        simpa [hy, number] using this

/-- Up to `b` the walk leaves the line of `b`, if the index held some line there:
where it stops the two lines meet. Above `b` it changes nothing. -/
theorem ets_refetch_eq {a : Block} {n : Nat} : ∀ {b : Block} {f : Nat → Option Block},
    (∀ n ≤ b.number, f n = a.ancestor n) →
      ets_refetch b f n = if n ≤ b.number then b.ancestor n else f n
  | genesis m, f, hf => by
    unfold ets_refetch
    split
    case isTrue h0 =>
      split
      case isTrue hn =>
        obtain rfl : n = 0 := Nat.le_zero.1 hn
        exact h0
      case isFalse => rfl
    case isFalse =>
      simp only [Function.update_apply, ancestor, number, Nat.le_zero]
      split <;> rfl
  | child p m s, f, hf => by
    unfold ets_refetch
    split
    case isTrue hx =>
      split
      case isTrue hn =>
        have ha : (child p m s).Anc a := (ancestor_eq_some.1 (hf _ (Nat.le_refl _) ▸ hx)).1
        rw [hf n hn, ha.ancestor_eq hn]
      case isFalse => rfl
    case isFalse =>
      have hp : ∀ k ≤ p.number,
          Function.update f (p.number + 1) (child p m s) k = a.ancestor k := by
        intro k hk
        rw [Function.update_of_ne (by omega)]
        exact hf k (Nat.le_succ_of_le hk)
      rw [ets_refetch_eq hp]
      have hnum : (child p m s).number = p.number + 1 := rfl
      simp only [hnum, ancestor, Function.update_apply]
      rcases Nat.lt_trichotomy n (p.number + 1) with hn | hn | hn
      · rw [if_pos (by omega), if_pos (by omega), if_neg (by omega)]
      · rw [if_neg (by omega), if_pos hn, if_pos (by omega), if_pos hn]
      · rw [if_neg (by omega), if_neg (by omega), if_neg (by omega)]

theorem ancestor_of_parent {a b : Block} (h : b.parent = some a) :
    b.ancestor = Function.update a.ancestor b.number b := by
  cases b with
  | genesis _ => cases h
  | child p m s =>
    cases h
    funext n
    rw [Function.update_apply]
    rfl

namespace Chain

variable {c : Clock} {s : Chain} {b : Block}

/-! ## Coherence -/

/-- What holds of the SQL table in every run: every stored block but a root has
its parent stored, and once the writer is flushed the column holds the line of
the peak. -/
structure Normative (s : Chain) : Prop where
  closed : ∀ b ∈ s.flushed.stored, ∀ p ∈ b.parent, p ∈ s.flushed.stored
  sql : ∀ n, s.flushed.select n = (s.peak.ancestor n).toList

/-- Both indexes hold the line of the peak: up to its number its ancestors, and
nothing above. -/
structure Coherent (s : Chain) : Prop extends Normative s where
  ets : ∀ n, s.ets n = s.peak.ancestor n

/-- `b` makes `add_block` replace the main chain: it does not extend the peak,
and it is heavier. -/
def Replaces (c : Clock) (s : Chain) (b : Block) : Prop :=
  b ∈ s.flushed.stored ∧ 1 ≤ b.number ∧ b.parent ≠ some s.peak ∧
    c.total_difficulty s.peak < c.total_difficulty b

theorem Normative.reads (h : Normative s) : s.flushed.Reads s.peak.ancestor where
  mem n := Table.select_eq.1 (h.sql n)
  own _ _ hb := (ancestor_eq_some.1 hb).2

theorem stored_of_anc {t : Table} (h : ∀ b ∈ t.stored, ∀ p ∈ b.parent, p ∈ t.stored) {x : Block} :
    ∀ {b : Block}, b ∈ t.stored → x.Anc b → x ∈ t.stored
  | genesis m, hb, hx => by
    unfold Anc at hx
    exact hx ▸ hb
  | child p m s, hb, hx => by
    rcases hx with rfl | hx
    · exact hb
    · exact stored_of_anc h (h _ hb p rfl) hx

theorem flushed_append {p : Block} {e : Nat → Option Block} {a : Write} :
    (⟨p, e, s.blocks, s.writer ++ [a]⟩ : Chain).flushed = do_write s.flushed a := by
  simp [flushed, List.foldl_append]

theorem flushed_write : s.write.flushed = s.flushed := by
  unfold write
  split
  · rfl
  · next a rest h => simp [flushed, h]

@[simp] theorem peak_write : s.write.peak = s.peak := by
  unfold write
  split <;> rfl

@[simp] theorem ets_write : s.write.ets = s.ets := by
  unfold write
  split <;> rfl

theorem Normative.write (h : Normative s) : Normative s.write where
  closed := by
    rw [flushed_write]
    exact h.closed
  sql := by
    rw [flushed_write, peak_write]
    exact h.sql

theorem Normative.put_new_block (h : Normative s) : Normative (s.put_new_block b) := by
  unfold Chain.put_new_block
  split
  case isFalse => exact h
  case isTrue hp =>
    have he : Chain.flushed ⟨s.peak, s.ets, s.blocks, s.writer ++ [.block b]⟩ =
        s.flushed.do_put_new_block b := flushed_append
    refine ⟨?_, ?_⟩
    · rw [he]
      intro x hx p hxp
      rw [Table.mem_stored_do_put_new_block] at hx ⊢
      rcases hx with rfl | hx
      · exact .inr (hp p hxp)
      · exact .inr (h.closed x hx p hxp)
    · rw [he]
      exact h.reads.do_put_new_block.select

/-- `add_block` leaves the chain as it is, extends it or replaces it. -/
theorem add_block_cases (c : Clock) (s : Chain) (b : Block) :
    (s.add_block c b).2 = s ∨
    (b ∈ s.flushed.stored ∧ b.parent = some s.peak ∧
      (s.add_block c b).2 =
        ⟨b, Function.update s.ets b.number b, s.blocks, s.writer ++ [.num b]⟩) ∨
    (Replaces c s b ∧ (s.add_block c b).2 = ⟨b, ets_refetch b s.ets, s.put_peak b, []⟩) := by
  unfold add_block
  split
  · exact .inl rfl
  · next hst =>
    split
    · exact .inl rfl
    · next hn =>
      split
      · exact .inl rfl
      · next hd =>
        split
        · next hp => exact .inr (.inl ⟨not_not.1 hst, hp, rfl⟩)
        · next hp =>
          refine .inr (.inr ⟨⟨not_not.1 hst, by omega, hp, ?_⟩, rfl⟩)
          exact Nat.lt_of_not_le fun hle => hd ⟨hp, hle⟩

theorem add_block_extend (hst : b ∈ s.flushed.stored) (hp : b.parent = some s.peak) :
    (s.add_block c b).2 = ⟨b, Function.update s.ets b.number b, s.blocks, s.writer ++ [.num b]⟩ := by
  have hn := number_of_parent hp
  unfold Chain.add_block
  rw [if_neg (not_not.2 hst), if_neg (by omega), if_neg (fun h => h.1 hp), if_pos hp]

theorem add_block_replace (hr : Replaces c s b) :
    (s.add_block c b).2 = ⟨b, ets_refetch b s.ets, s.put_peak b, []⟩ := by
  obtain ⟨hst, hn, hp, hd⟩ := hr
  unfold Chain.add_block
  rw [if_neg (not_not.2 hst), if_neg (by omega), if_neg (by omega), if_neg hp]

theorem stored_put_new_block (hp : ∀ p ∈ b.parent, p ∈ s.flushed.stored) {x : Block} :
    x ∈ (s.put_new_block b).flushed.stored ↔ x = b ∨ x ∈ s.flushed.stored := by
  rw [Chain.put_new_block, if_pos hp, flushed_append]
  exact Table.mem_stored_do_put_new_block

@[simp] theorem ets_put_new_block : (s.put_new_block b).ets = s.ets := by
  unfold Chain.put_new_block
  split <;> rfl

@[simp] theorem peak_put_new_block : (s.put_new_block b).peak = s.peak := by
  unfold Chain.put_new_block
  split <;> rfl

theorem stored_add_block : (s.add_block c b).2.flushed.stored = s.flushed.stored := by
  rcases add_block_cases c s b with he | ⟨-, -, he⟩ | ⟨-, he⟩
  · rw [he]
  · rw [he, flushed_append, do_write, Table.stored_do_put_block_number]
  · rw [he]
    show (s.put_peak b).stored = s.flushed.stored
    rw [put_peak, Table.stored_set_normative, Table.stored_clear_above]

/-- The column after `put_peak` is the line of the new peak, nothing above it. -/
theorem Normative.put_peak (h : Normative s) (hb : b ∈ s.flushed.stored) :
    (s.put_peak b).Reads b.ancestor := by
  have hall : ∀ x : Block, x.Anc b → x ∈ (s.flushed.clear_above b.number).stored :=
    fun x hx => by simpa using stored_of_anc h.closed hb hx
  have hr := h.reads.clear_above.set_normative hall
  have he : ets_refetch b (fun n => if n ≤ b.number then s.peak.ancestor n else none) = b.ancestor := by
    funext n
    rw [ets_refetch_eq (a := s.peak) fun k hk => if_pos hk]
    split
    case isTrue => rfl
    case isFalse hn => rw [ancestor_above (Nat.lt_of_not_le hn)]
  exact he ▸ hr

theorem Normative.add_block (h : Normative s) : Normative (s.add_block c b).2 := by
  refine ⟨by rw [stored_add_block]; exact h.closed, ?_⟩
  rcases add_block_cases c s b with he | ⟨hst, hp, he⟩ | ⟨⟨hst, -⟩, he⟩
  · rw [he]
    exact h.sql
  · have hfl : (s.add_block c b).2.flushed = s.flushed.do_put_block_number b := by
      rw [he]
      exact flushed_append
    have hfree : s.peak.ancestor b.number = none :=
      ancestor_above (by have := number_of_parent hp; omega)
    rw [hfl, he, ancestor_of_parent hp]
    exact (h.reads.do_put_block_number hst hfree).select
  · rw [he]
    exact (h.put_peak hst).select

theorem Normative.step (h : Normative s) : ∀ op, Normative (step c s op)
  | .put _ => h.put_new_block
  | .add _ => h.add_block
  | .write => h.write

/-- The SQL column is right in every run, whatever the branches. -/
theorem Normative.run (h : Normative s) (ops : List Op) : Normative (run c s ops) := by
  induction ops generalizing s with
  | nil => exact h
  | cons op ops ih => exact ih (h.step op)

/-- After a replacement ETS still holds the old line above the new peak. -/
theorem coherent_replace_iff (h : Coherent s) (hr : Replaces c s b) :
    Coherent (s.add_block c b).2 ↔ s.peak.number ≤ b.number := by
  have he : (s.add_block c b).2 = ⟨b, ets_refetch b s.ets, s.put_peak b, []⟩ := add_block_replace hr
  have hets : ∀ n, ets_refetch b s.ets n =
      if n ≤ b.number then b.ancestor n else s.peak.ancestor n := by
    intro n
    rw [ets_refetch_eq (a := s.peak) fun k _ => h.ets k, h.ets]
  refine ⟨?_, ?_⟩
  · intro hc
    have hpk := hc.ets s.peak.number
    rw [he] at hpk
    simp only [hets, ancestor_number] at hpk
    by_contra hlt
    rw [if_neg hlt, ancestor_above (Nat.lt_of_not_le hlt)] at hpk
    cases hpk
  · intro hle
    refine ⟨h.toNormative.add_block, fun n => ?_⟩
    rw [he]
    simp only [hets]
    split
    case isTrue => rfl
    case isFalse hn => rw [ancestor_above (by omega), ancestor_above (Nat.lt_of_not_le hn)]

theorem Coherent.step (h : Coherent s) : ∀ {op},
    (∀ b, op = .add b → Replaces c s b → s.peak.number ≤ b.number) → Coherent (step c s op)
  | .put b, _ => by
    refine ⟨h.toNormative.put_new_block, ?_⟩
    show ∀ n, (s.put_new_block b).ets n = (s.put_new_block b).peak.ancestor n
    simpa using h.ets
  | .write, _ => ⟨h.toNormative.write, by simpa [Chain.step] using h.ets⟩
  | .add b, hlen => by
    rcases add_block_cases c s b with he | ⟨-, hp, he⟩ | ⟨hr, -⟩
    · show Coherent (s.add_block c b).2
      rw [he]
      exact h
    · refine ⟨h.toNormative.add_block, fun n => ?_⟩
      simp only [Chain.step, he]
      rw [ancestor_of_parent hp, Function.update_apply, Function.update_apply, h.ets]
    · exact (coherent_replace_iff h hr).2 (hlen b rfl hr)

theorem run_append (pre : List Op) (op : Op) :
    run c s (pre ++ [op]) = step c (run c s pre) op := by
  simp [run, List.foldl_append]

theorem Coherent.run (h : Coherent s) : ∀ {ops : List Op},
    (∀ pre b, pre ++ [.add b] <+: ops → Replaces c (run c s pre) b →
      (run c s pre).peak.number ≤ b.number) → Coherent (run c s ops) := by
  intro ops
  induction ops using List.reverseRecOn with
  | nil => exact fun _ => h
  | append_singleton pre op ih =>
    intro hlen
    rw [run_append]
    refine (ih fun q b hq => hlen q b (hq.trans (List.prefix_append _ _))).step ?_
    rintro b rfl hr
    exact hlen pre b (List.prefix_refl _) hr

/-- In every run from a coherent chain the two indexes hold the line of the peak
after every step, exactly when every block that replaces the main chain is at
least as high as the peak it replaces. -/
theorem index_coherent (c : Clock) (s : Chain) (h : Coherent s) (ops : List Op) :
    (∀ pre, pre <+: ops → Coherent (run c s pre)) ↔
      ∀ pre b, pre ++ [.add b] <+: ops → Replaces c (run c s pre) b →
        (run c s pre).peak.number ≤ b.number := by
  refine ⟨?_, ?_⟩
  · intro hc pre b hpre hr
    have hbefore := hc pre ((List.prefix_append _ _).trans hpre)
    have hafter := hc _ hpre
    rw [run_append] at hafter
    exact (coherent_replace_iff hbefore hr).1 hafter
  · intro hlen pre hpre
    exact h.run fun q b hq => hlen q b (hq.trans hpre)

/-- mirrors lib/chain.ex:302-315: the chain that `seed` makes of the genesis block. -/
def seed (m : Bytes) : Chain where
  peak := genesis m
  ets := (genesis m).ancestor
  blocks := ⟨[(genesis m, some 0)], List.pairwise_singleton _ _⟩
  writer := []

theorem seed_coherent (m : Bytes) : Coherent (seed m) where
  closed b hb p hp := by
    obtain rfl : b = genesis m := by simpa [flushed, seed, Table.stored] using hb
    cases hp
  sql n := by
    simp only [flushed, seed, List.foldl_nil, Table.select, ancestor]
    by_cases hn : n = 0
    · subst hn
      rfl
    · simp [hn, Ne.symm hn]
  ets _ := rfl

/-- On a development node every block counts as much, so a heavier branch is a
longer one. -/
theorem level_of_dev (hd : c.dev_mode = true) (hr : Replaces c s b) : s.peak.number ≤ b.number := by
  have := hr.2.2.2
  rw [Clock.total_difficulty_dev hd, Clock.total_difficulty_dev hd] at this
  omega

theorem dev_coherent (hd : c.dev_mode = true) (h : Coherent s) (ops : List Op) :
    Coherent (run c s ops) :=
  h.run fun _ _ _ => level_of_dev hd

/-! ### A shorter, heavier branch -/

/-- A timestamp read from the first byte of the header's rest. -/
def stamp : Block → Int
  | genesis _ => 0
  | child _ _ s => (s.headD 0).toNat

def line (p : Block) : List UInt8 → List Block
  | [] => []
  | t :: ts => child p [] [t] :: line (child p [] [t]) ts

def slow : List Block := line (genesis []) [20, 40, 60, 80, 100, 120]
def fast : List Block := line (genesis []) [10, 20, 30, 40]

/-- Five blocks twenty seconds apart, then a branch of four blocks ten seconds
apart, then the sixth block of the first branch. -/
def back_and_forth : List Op :=
  (slow.take 5).flatMap (fun b => [.put b, .add b]) ++
    fast.flatMap (fun b => [.put b, .add b]) ++
    (slow.drop 5).flatMap fun b => [.put b, .add b]

/-- With the fourth fast block as peak ETS still names a block of number 5; and
back on the slow branch it still names the first fast block as number 1, since the
walk ended at that leftover. SQL is right. -/
theorem back_and_forth_incoherent :
    let c : Clock := ⟨stamp, false, Clock.min_difficulty⟩
    let s := run c (seed []) (back_and_forth.take 18)
    let s' := run c (seed []) back_and_forth
    Coherent (seed []) ∧
    (some s.peak = fast[3]? ∧ s.ets 5 = slow[4]? ∧ slow[4]? ≠ s.peak.ancestor 5 ∧
      s.flushed.select 5 = []) ∧
    (some s'.peak = slow[5]? ∧ s'.ets 1 = fast[0]? ∧ s'.peak.ancestor 1 = slow[0]? ∧
      slow[0]? ≠ fast[0]?) :=
  ⟨seed_coherent [], by decide +kernel, by decide +kernel⟩

/-- Three slow blocks, then the third of three fast ones. -/
def level_swap : List Op :=
  (slow.take 3).flatMap (fun b => [.put b, .add b]) ++ (fast.take 3).map .put ++
    ((fast.take 3).drop 2).map .add

/-- A heavier branch of the same height replaces the main chain, and both indexes
hold its line. -/
theorem index_coherent_level :
    let c : Clock := ⟨stamp, false, Clock.min_difficulty⟩
    let s := run c (seed []) level_swap
    some s.peak = fast[2]? ∧ s.ets 1 = fast[0]? ∧ s.flushed.select 1 = fast.take 1 ∧ Coherent s := by
  refine ⟨by decide +kernel, by decide +kernel, by decide +kernel, ?_⟩
  refine (index_coherent _ _ (seed_coherent []) level_swap).2 ?_ _ (List.prefix_refl _)
  intro pre b hpre _
  -- every block is added to a chain that is not higher
  have hall : ∀ k < level_swap.length, (level_swap[k]?.elim true fun
      | .add x => decide ((run ⟨stamp, false, Clock.min_difficulty⟩ (seed []) (level_swap.take k)).peak.number
          ≤ x.number)
      | _ => true) = true := by
    decide +kernel
  obtain ⟨rest, hrest⟩ := hpre
  have hb : level_swap[pre.length]? = some (.add b) := by
    rw [← hrest]
    simp
  have hk := hall pre.length (List.getElem?_eq_some_iff.1 hb).1
  rw [hb] at hk
  have htake : level_swap.take pre.length = pre := by
    rw [← hrest]
    simp
  rw [htake] at hk
  exact of_decide_eq_true hk

end Chain

end Diode.L5
