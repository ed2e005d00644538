import Diode.L5Chain.ChainIndex

/-!
# Stored states

A row of `blocks` stores the state of a jump block in full and the state of any
other block as a difference. The base of the difference is the main chain's block
at the jump height below when the block is put, whatever branch the block is on.
`do_state` clones the map of the base, which it keeps in the JumpState cache, and
replays the difference on the clone.

* `do_state_spec`: what it returns is the state the block was stored with, in a map
  of its own; every map that existed before is as it was.
* `persisted_iff`: a stored block reloads exactly when its base is still stored.
* `states_persist`: only the recovery can take a base away, from a block of the
  line it keeps whose base is not on that line.
-/
namespace Diode.L5
open Diode.Core Block

variable {S D : Type}

/-- The state column of a row. -/
inductive Encoded (S D : Type) where
  | full (state : S)
  | delta (prev : Block) (delta : D)

/-- `state` is the state of a validated block, `difference` and
`apply_difference` are those of `Chain.State`. -/
structure Node (S D : Type) where
  clock : Clock
  state : Block → S
  difference : S → S → D
  apply_difference : S → D → Option S
  state_cache_size : Nat

/-- Replaying a difference on its first side gives the second. -/
def Node.Exact (c : Node S D) : Prop := ∀ a b, c.apply_difference a (c.difference a b) = some b

/-- An account map is known by its handle, its place in `maps`; `jump` is the
JumpState cache and `states` the one of `BlockProcess`. `known` are the hashes in the
ETS table. -/
structure Store (S D : Type) where
  chain : Chain
  known : List Block
  column : Block → Option (Encoded S D)
  maps : List S
  jump : List (Block × Nat)
  states : List (Block × Nat)

def jump_size : Nat := 500

/-- mirrors lib/model/chainsql.ex:703-706 -/
def is_jumpblock (nr : Nat) : Bool := nr ≤ jump_size || nr % jump_size = 1

/-- The height of the base, lib/model/chainsql.ex:717-723. -/
def prev_number (nr : Nat) : Nat :=
  if nr % jump_size = 0 then nr - (jump_size - 1) else nr - nr % jump_size + 1

theorem prev_number_spec {nr : Nat} (h : is_jumpblock nr = false) :
    prev_number nr < nr ∧ is_jumpblock (prev_number nr) = true := by
  obtain ⟨hle, h1⟩ := Bool.or_eq_false_iff.1 h
  have h0 : 500 < nr := Nat.lt_of_not_le (of_decide_eq_false hle)
  have h1 : nr % 500 ≠ 1 := of_decide_eq_false h1
  have h2 : prev_number nr < nr ∧ prev_number nr % 500 = 1 := by
    unfold prev_number jump_size
    split <;> omega
  exact ⟨h2.1, by simp [is_jumpblock, jump_size, h2.2]⟩

/-! ## The caches -/

namespace Lru

def get (l : List (Block × Nat)) (k : Block) : Option Nat :=
  (l.find? fun e => e.1 = k).map Prod.snd

/-- mirrors lib/etslru.ex:24-45: the last `n` entries put stay. -/
def put (n : Nat) (l : List (Block × Nat)) (k : Block) (v : Nat) : List (Block × Nat) :=
  ((k, v) :: l).take n

variable {l : List (Block × Nat)} {k : Block} {v n : Nat} {e : Block × Nat}

theorem mem_of_get (h : get l k = some v) : (k, v) ∈ l := by
  obtain ⟨e, he, rfl⟩ := Option.map_eq_some_iff.1 h
  have hk : e.1 = k := by simpa using List.find?_some he
  exact hk ▸ List.mem_of_find?_eq_some he

theorem mem_put (h : e ∈ put n l k v) : e = (k, v) ∨ e ∈ l :=
  List.mem_cons.1 (List.mem_of_mem_take h)

end Lru

/-! ## Loading a state -/

namespace Store

/-- A new account map. -/
def alloc (s : Store S D) (t : S) : Nat × Store S D :=
  (s.maps.length, { s with maps := s.maps ++ [t] })

/-- mirrors lib/chain/state.ex:192-194 -/
def clone (s : Store S D) (h : Nat) : Option (Nat × Store S D) := (s.maps[h]?).map s.alloc

/-- mirrors lib/chain/state.ex:202-210: in place, an error is raised. -/
def apply_difference (c : Node S D) (s : Store S D) (h : Nat) (d : D) : Option (Store S D) := do
  let t ← s.maps[h]?
  let t' ← c.apply_difference t d
  some { s with maps := s.maps.set h t' }

def fetch_jump (s : Store S D) (prev : Block) (load : Option (Nat × Store S D)) :
    Option (Nat × Store S D) :=
  match Lru.get s.jump prev with
  | some h => some (h, s)
  | none => load.map fun r => (r.1, { r.2 with jump := Lru.put 5 r.2.jump prev r.1 })

/-- mirrors lib/model/chainsql.ex:531-560. The first argument bounds the depth of
the recursion, by which the base of a difference is loaded. -/
def do_state (c : Node S D) : Nat → Store S D → Block → Option (Nat × Store S D)
  | 0, _, _ => none
  | f + 1, s, b =>
    match s.column b with
    | none => none
    | some (.full t) => some (s.alloc t)
    | some (.delta prev d) => do
      let (h, s) ← s.fetch_jump prev (do_state c f s prev)
      let (h, s) ← s.clone h
      let s ← s.apply_difference c h d
      some (h, s)

/-- mirrors lib/block_process.ex:46-54 -/
def fetch_state (c : Node S D) (s : Store S D) (b : Block) : Option (Nat × Store S D) :=
  match Lru.get s.states b with
  | some h => some (h, s)
  | none =>
    (do_state c (b.number + 1) s b).map fun r =>
      (r.1, { r.2 with states := Lru.put c.state_cache_size r.2.states b r.1 })

/-! ## Storing a state -/

/-- mirrors lib/model/chainsql.ex:708-730, for the block `b` with the state `t`. It
raises where the index has no block at the height of the base. -/
def prepare_state (c : Node S D) (s : Store S D) (b : Block) (t : S) :
    Option (Encoded S D × Store S D) :=
  if is_jumpblock b.number then some (.full t, s)
  else do
    let prev ← s.chain.ets (prev_number b.number)
    let (h, s) ← s.fetch_state c prev
    let prev_state ← s.maps[h]?
    some (.delta prev (c.difference prev_state t), s)

/-- mirrors lib/block_process.ex:26-29 -/
def cache_block (c : Node S D) (s : Store S D) (b : Block) : Store S D :=
  let (h, s) := s.alloc (c.state b)
  { s with states := Lru.put c.state_cache_size s.states b h }

/-- What `Block.validate` does with a valid block, lib/chain/block.ex:202-204. A
block that is stored keeps its row (`INSERT OR FAIL`). -/
def put (c : Node S D) (s : Store S D) (b : Block) : Store S D :=
  if ∀ p ∈ b.parent, p ∈ s.known then
    match s.prepare_state c b (c.state b) with
    | none => s
    | some (e, s) =>
      cache_block c { s with
        chain := s.chain.put_new_block b
        known := b :: s.known
        column := if b ∈ s.chain.flushed.stored then s.column else Function.update s.column b e } b
  else s

/-- mirrors lib/model/chainsql.ex:758-769 -/
def state_exists (s : Store S D) (b : Block) : Bool :=
  match s.column b with
  | none => false
  | some (.full _) => true
  | some (.delta prev _) => prev ∈ s.known

/-- mirrors lib/model/chainsql.ex:772-785: the row of the main chain's block at a
height is made anew. -/
def recompress_block (c : Node S D) (s : Store S D) (n : Nat) : Option (Store S D) := do
  let b ← s.chain.ets n
  guard (s.state_exists b)
  let (h, s) ← s.fetch_state c b
  let t ← s.maps[h]?
  let (e, s) ← s.prepare_state c b t
  some { s with column := Function.update s.column b e }

end Store

/-! ## Recovery -/

/-- `DELETE FROM blocks WHERE number IS NULL` -/
def Table.clear_alt_blocks (t : Table) : Table where
  rows := t.rows.filter fun r => r.2.isSome
  nodup := t.nodup.sublist (List.filter_sublist.map Prod.fst)

/-- The index that `ets_prefetch` makes of the table, lib/chain.ex:629-659. Its check
that every row names the row below as parent is always passed (`prefetch_line`). -/
def Table.prefetch (t : Table) (n : Nat) : Option Block := (t.select n).head?

namespace Store

/-- A restart with a writer that has written everything: lib/chain.ex:237-256 where
the peak is consistent. -/
def restart (s : Store S D) : Store S D :=
  { s with
    chain := ⟨s.chain.peak, s.chain.flushed.prefetch, s.chain.flushed, []⟩
    known := s.chain.flushed.clear_alt_blocks.stored
    jump := []
    states := [] }

theorem restart_peak (s : Store S D) : s.restart.chain.peak = s.chain.peak := rfl

theorem restart_column (s : Store S D) : s.restart.column = s.column := rfl

/-- mirrors lib/chain.ex:247-277: `number` is the one `find_last_good_block` has
found below the peak. -/
def recover (s : Store S D) (number : Nat) : Store S D :=
  if 1 ≤ number ∧ number < s.chain.peak.number then
    match s.chain.flushed.select number with
    | [] => s
    | block :: _ =>
      let t := (s.chain.put_peak block).clear_alt_blocks
      { s with
        chain := ⟨block, t.prefetch, t, []⟩
        known := t.stored
        column := fun b => if b ∈ t.stored then s.column b else none
        jump := [] }
  else s

inductive Op where
  | put (b : Block)
  | add (b : Block)
  | write
  | state (b : Block)
  | fetch_state (b : Block)
  | recompress (n : Nat)
  | restart
  | recover (number : Nat)

/-- One call; a call that raises leaves the store as it was. -/
def step (c : Node S D) (s : Store S D) : Op → Store S D
  | .put b => s.put c b
  | .add b => if b ∈ s.known then { s with chain := (s.chain.add_block c.clock b).2 } else s
  | .write => { s with chain := s.chain.write }
  | .state b => ((do_state c (b.number + 1) s b).map Prod.snd).getD s
  | .fetch_state b => ((s.fetch_state c b).map Prod.snd).getD s
  | .recompress n => (s.recompress_block c n).getD s
  | .restart => s.restart
  | .recover n => s.recover n

def run (c : Node S D) (s : Store S D) (ops : List Op) : Store S D := ops.foldl (step c) s

end Store
/-! ## The invariant -/

namespace Store

variable {c : Node S D} {s s' : Store S D} {b : Block}

/-- The handles of a cache hold the states of their blocks. -/
def Cached (c : Node S D) (s : Store S D) (l : List (Block × Nat)) : Prop :=
  ∀ e ∈ l, s.maps[e.2]? = some (c.state e.1)

/-- What holds in every run: the numbered entries of the indexes are stored rows, a
row holds the state of its block or its difference to the state of a block at the
jump height below, and the caches hold the states of their blocks. -/
structure Sound (c : Node S D) (s : Store S D) : Prop where
  chain : s.chain.Normative
  ets : ∀ n x, s.chain.ets n = some x → x.number = n ∧ x ∈ s.chain.flushed.stored
  known : ∀ b ∈ s.known, b ∈ s.chain.flushed.stored
  domain : ∀ b, (s.column b).isSome ↔ b ∈ s.chain.flushed.stored
  full : ∀ b t, s.column b = some (.full t) → t = c.state b
  delta : ∀ b p d, s.column b = some (.delta p d) → is_jumpblock b.number = false ∧
    p.number = prev_number b.number ∧ d = c.difference (c.state p) (c.state b)
  jump : Cached c s s.jump
  states : Cached c s s.states

/-- `s'` is `s` after loading: new maps, other cached handles. -/
structure Loads (s s' : Store S D) : Prop where
  chain : s'.chain = s.chain
  known : s'.known = s.known
  column : s'.column = s.column
  maps : s.maps <+: s'.maps

theorem Loads.refl (s : Store S D) : Loads s s := ⟨rfl, rfl, rfl, List.prefix_refl _⟩

theorem Loads.trans {s'' : Store S D} (h : Loads s s') (h' : Loads s' s'') : Loads s s'' :=
  ⟨h'.chain.trans h.chain, h'.known.trans h.known, h'.column.trans h.column, h.maps.trans h'.maps⟩

/-- A map keeps its handle and what it holds. -/
theorem Loads.map (h : Loads s s') {i : Nat} {t : S} (hi : s.maps[i]? = some t) :
    s'.maps[i]? = some t := by
  obtain ⟨l, hl⟩ := h.maps
  obtain ⟨hlt, -⟩ := List.getElem?_eq_some_iff.1 hi
  rw [← hl, List.getElem?_append_left hlt, hi]

theorem Loads.based (h : Loads s s')
    (hb : ∀ b p d, s.column b = some (.delta p d) → (s.column p).isSome) :
    ∀ b p d, s'.column b = some (.delta p d) → (s'.column p).isSome := by
  rw [h.column]
  exact hb

theorem Cached.mono (h : Loads s s') {l : List (Block × Nat)} (hl : Cached c s l) : Cached c s' l :=
  fun e he => h.map (hl e he)

theorem Cached.put {l : List (Block × Nat)} {n h : Nat} (hl : Cached c s l)
    (hb : s.maps[h]? = some (c.state b)) : Cached c s (Lru.put n l b h) := by
  intro e he
  rcases Lru.mem_put he with rfl | he
  · exact hb
  · exact hl e he

theorem Sound.loads (hs : Sound c s) (h : Loads s s') (hj : Cached c s' s'.jump)
    (hst : Cached c s' s'.states) : Sound c s' := by
  refine ⟨?_, ?_, ?_, ?_, ?_, ?_, hj, hst⟩
  · rw [h.chain]
    exact hs.chain
  · rw [h.chain]
    exact hs.ets
  · rw [h.chain, h.known]
    exact hs.known
  · rw [h.chain, h.column]
    exact hs.domain
  · rw [h.column]
    exact hs.full
  · rw [h.column]
    exact hs.delta

theorem alloc_loads (s : Store S D) (t : S) : Loads s (s.alloc t).2 :=
  ⟨rfl, rfl, rfl, List.prefix_append _ _⟩

theorem alloc_map (s : Store S D) (t : S) : (s.alloc t).2.maps[(s.alloc t).1]? = some t := by
  simp [alloc]

theorem Sound.alloc (hs : Sound c s) (t : S) : Sound c (s.alloc t).2 :=
  hs.loads (alloc_loads s t) (hs.jump.mono (alloc_loads s t)) (hs.states.mono (alloc_loads s t))

/-- A clone with a difference replayed on it is a new map with the second side; the
map it was cloned from stays. -/
theorem replay_clone (hx : c.Exact) {h : Nat} {p : S} (hp : s.maps[h]? = some p) (t : S) :
    ((s.clone h).bind fun r => (r.2.apply_difference c r.1 (c.difference p t)).map fun s => (r.1, s)) =
      some (s.alloc t) := by
  simp only [clone, hp, Option.map_some, Option.bind_some, apply_difference, alloc_map, hx p t,
    Option.bind_eq_bind]
  simp [alloc]

/-- What a load gives: the state of the block, in a map the store now holds, the
older maps as they were. -/
structure Loaded (c : Node S D) (s : Store S D) (b : Block) (h : Nat) (s' : Store S D) : Prop where
  loads : Loads s s'
  sound : Sound c s'
  map : s'.maps[h]? = some (c.state b)

theorem fetch_jump_spec (hs : Sound c s) {load : Option (Nat × Store S D)} {h : Nat}
    (hl : ∀ h s', load = some (h, s') → Loaded c s b h s')
    (hr : s.fetch_jump b load = some (h, s')) : Loaded c s b h s' := by
  unfold fetch_jump at hr
  split at hr
  case h_1 i hi =>
    cases hr
    exact ⟨Loads.refl s, hs, hs.jump _ (Lru.mem_of_get hi)⟩
  case h_2 =>
    obtain ⟨⟨i, q⟩, hq, hr⟩ := Option.map_eq_some_iff.1 hr
    cases hr
    have hq := hl i q hq
    have hadd : Loads q { q with jump := Lru.put 5 q.jump b i } := ⟨rfl, rfl, rfl, List.prefix_refl _⟩
    exact ⟨hq.loads.trans hadd,
      hq.sound.loads hadd (Cached.put (hq.sound.jump.mono hadd) hq.map) (hq.sound.states.mono hadd),
      hq.map⟩

/-- Whatever `do_state` returns is the state the block was stored with. -/
theorem do_state_spec (hx : c.Exact) : ∀ {f : Nat} {s s' : Store S D} {b : Block} {h : Nat},
    Sound c s → do_state c f s b = some (h, s') → Loaded c s b h s'
  | 0, _, _, _, _, _, hr => by cases hr
  | f + 1, s, s', b, h, hs, hr => by
    unfold do_state at hr
    split at hr
    · cases hr
    · next t ht =>
      cases hr
      exact ⟨alloc_loads s t, Sound.alloc hs t, hs.full b t ht ▸ alloc_map s t⟩
    · next p d hd =>
      obtain ⟨-, -, rfl⟩ := hs.delta b p d hd
      obtain ⟨⟨i, q⟩, hq, hr⟩ := Option.bind_eq_some_iff.1 hr
      have hq := fetch_jump_spec hs (fun i q hq => do_state_spec hx hs hq) hq
      have he := replay_clone hx hq.map (c.state b)
      simp only [Option.map_eq_bind, Function.comp_def] at he
      have hr : some (q.alloc (c.state b)) = some (h, s') := he.symm.trans hr
      cases hr
      exact ⟨hq.loads.trans (alloc_loads _ _), Sound.alloc hq.sound _, alloc_map _ _⟩

theorem fetch_state_spec (hx : c.Exact) (hs : Sound c s) {h : Nat}
    (hr : s.fetch_state c b = some (h, s')) : Loaded c s b h s' := by
  unfold fetch_state at hr
  split at hr
  case h_1 i hi =>
    cases hr
    exact ⟨Loads.refl s, hs, hs.states _ (Lru.mem_of_get hi)⟩
  case h_2 =>
    obtain ⟨⟨i, q⟩, hq, hr⟩ := Option.map_eq_some_iff.1 hr
    cases hr
    have hq := do_state_spec hx hs hq
    have hadd : Loads q { q with states := Lru.put c.state_cache_size q.states b i } :=
      ⟨rfl, rfl, rfl, List.prefix_refl _⟩
    exact ⟨hq.loads.trans hadd,
      hq.sound.loads hadd (hq.sound.jump.mono hadd) (Cached.put (hq.sound.states.mono hadd) hq.map),
      hq.map⟩

/-! ## Every stored base is found -/

/-- The base of every difference is stored. -/
def Based (s : Store S D) : Prop :=
  ∀ b p d, s.column b = some (.delta p d) → (s.column p).isSome

/-- The base of a difference is a jump block, so its row is a full state. -/
theorem base_full (hs : Sound c s) {p : Block} {d : D} (hd : s.column b = some (.delta p d))
    (hp : (s.column p).isSome) : p.number < b.number ∧ ∃ t, s.column p = some (.full t) := by
  obtain ⟨hj, hn, -⟩ := hs.delta b p d hd
  obtain ⟨hlt, hjump⟩ := prev_number_spec hj
  refine ⟨hn ▸ hlt, ?_⟩
  cases hc : s.column p with
  | none => simp [hc] at hp
  | some e =>
    cases e with
    | full t => exact ⟨t, rfl⟩
    | delta q d' =>
      obtain ⟨hj', -⟩ := hs.delta p q d' hc
      rw [hn, hjump] at hj'
      cases hj'

/-- Two levels are enough: the row of the block and the row of its base. -/
theorem do_state_total (hx : c.Exact) (hs : Sound c s) (hb : (s.column b).isSome)
    (hbase : ∀ p d, s.column b = some (.delta p d) → (s.column p).isSome) (f : Nat) :
    ∃ h s', do_state c (f + 2) s b = some (h, s') := by
  obtain ⟨e, he⟩ := Option.isSome_iff_exists.1 hb
  cases e with
  | full t => exact ⟨(s.alloc t).1, (s.alloc t).2, by rw [do_state, he]⟩
  | delta p d =>
    obtain ⟨-, t, ht⟩ := base_full hs he (hbase p d he)
    obtain ⟨-, -, rfl⟩ := hs.delta b p d he
    have hload : do_state c (f + 1) s p = some (s.alloc t) := by rw [do_state, ht]
    have hal : ∀ h q, some (s.alloc t) = some (h, q) → Loaded c s p h q := by
      rintro h q hq
      cases hq
      exact ⟨alloc_loads s t, Sound.alloc hs t, hs.full p t ht ▸ alloc_map s t⟩
    have hsome : (s.fetch_jump p (some (s.alloc t))).isSome := by
      unfold fetch_jump
      split <;> rfl
    obtain ⟨⟨h, q⟩, hq⟩ := Option.isSome_iff_exists.1 hsome
    have hl := fetch_jump_spec hs hal hq
    have hrep := replay_clone hx hl.map (c.state b)
    simp only [Option.map_eq_bind, Function.comp_def] at hrep
    refine ⟨(q.alloc (c.state b)).1, (q.alloc (c.state b)).2, ?_⟩
    rw [do_state, he]
    dsimp only
    rw [hload, hq]
    exact hrep

/-- The stored states reload: a difference names a block of smaller number that is
stored in full, and every stored block loads the state it was stored with into a map
of its own, with every older map, those of the caches included, as it was. -/
structure Persisted (c : Node S D) (s : Store S D) : Prop where
  base : ∀ b p d, s.column b = some (.delta p d) →
    p.number < b.number ∧ ∃ t, s.column p = some (.full t)
  reload : ∀ b ∈ s.chain.flushed.stored, ∀ f, ∃ h s', do_state c (f + 2) s b = some (h, s') ∧
    s'.maps[h]? = some (c.state b) ∧ s.maps <+: s'.maps

theorem persisted_iff (hx : c.Exact) (hs : Sound c s) : Persisted c s ↔ Based s := by
  refine ⟨?_, ?_⟩
  · intro hp b p d hd
    obtain ⟨-, t, ht⟩ := hp.base b p d hd
    rw [ht, Option.isSome_some]
  · intro hb
    refine ⟨fun b p d hd => base_full hs hd (hb b p d hd), fun b hst f => ?_⟩
    obtain ⟨h, s', hr⟩ := do_state_total hx hs ((hs.domain b).2 hst) (fun p d => hb b p d) f
    have hl := do_state_spec hx hs hr
    exact ⟨h, s', hr, hl.map, hl.loads.maps⟩

/-! ## What one step preserves -/

/-- A row that may be written for `b`. -/
structure Row (c : Node S D) (s : Store S D) (b : Block) (e : Encoded S D) : Prop where
  full : ∀ t, e = .full t → t = c.state b
  delta : ∀ p d, e = .delta p d → is_jumpblock b.number = false ∧
    p.number = prev_number b.number ∧ d = c.difference (c.state p) (c.state b)
  based : ∀ p d, e = .delta p d → p ∈ s.chain.flushed.stored

theorem prepare_state_spec (hx : c.Exact) (hs : Sound c s) {e : Encoded S D}
    (hr : s.prepare_state c b (c.state b) = some (e, s')) : Sound c s' ∧ Loads s s' ∧ Row c s b e := by
  unfold prepare_state at hr
  split at hr
  case isTrue =>
    cases hr
    refine ⟨hs, Loads.refl s, ?_, ?_, ?_⟩
    · intro t hy
      obtain ⟨⟩ := hy
      rfl
    · intro p d hy
      obtain ⟨⟩ := hy
    · intro p d hy
      obtain ⟨⟩ := hy
  case isFalse hj =>
    obtain ⟨p, hp, hr⟩ := Option.bind_eq_some_iff.1 hr
    obtain ⟨⟨h, q⟩, hq, hr⟩ := Option.bind_eq_some_iff.1 hr
    obtain ⟨t, ht, hr⟩ := Option.bind_eq_some_iff.1 hr
    have hl := fetch_state_spec hx hs hq
    have ht : some t = some (c.state p) := ht.symm.trans hl.map
    cases ht
    cases hr
    obtain ⟨hn, hst⟩ := hs.ets _ p hp
    refine ⟨hl.sound, hl.loads, ?_, ?_, ?_⟩
    · intro t hy
      obtain ⟨⟩ := hy
    · intro p' d hy
      obtain ⟨⟩ := hy
      exact ⟨by simpa using hj, hn, rfl⟩
    · intro p' d hy
      obtain ⟨⟩ := hy
      exact hst

theorem Sound.congr {chain : Chain} {known : List Block} (hs : Sound c s) (hn : chain.Normative)
    (hst : ∀ x, x ∈ chain.flushed.stored ↔ x ∈ s.chain.flushed.stored)
    (hets : ∀ n x, chain.ets n = some x → x.number = n ∧ x ∈ s.chain.flushed.stored)
    (hk : ∀ x ∈ known, x ∈ s.chain.flushed.stored) :
    Sound c { s with chain := chain, known := known } where
  chain := hn
  ets n x hx := ⟨(hets n x hx).1, (hst x).2 (hets n x hx).2⟩
  known x hx := (hst x).2 (hk x hx)
  domain x := (hs.domain x).trans (hst x).symm
  full := hs.full
  delta := hs.delta
  jump := hs.jump
  states := hs.states

/-- Writing a row for `b`, which is then stored. -/
theorem Sound.setRow {chain : Chain} {known : List Block} {e : Encoded S D} (hs : Sound c s)
    (hn : chain.Normative) (hst : ∀ x, x ∈ chain.flushed.stored ↔ x = b ∨ x ∈ s.chain.flushed.stored)
    (hets : chain.ets = s.chain.ets) (hk : ∀ x ∈ known, x = b ∨ x ∈ s.chain.flushed.stored)
    (he : Row c s b e) :
    Sound c { s with chain := chain, known := known, column := Function.update s.column b e } where
  chain := hn
  ets n x hx := by
    obtain ⟨h1, h2⟩ := hs.ets n x (hets ▸ hx)
    exact ⟨h1, (hst x).2 (.inr h2)⟩
  known x hx := (hst x).2 (hk x hx)
  domain x := by
    show (Function.update s.column b e x).isSome ↔ x ∈ chain.flushed.stored
    rw [hst, ← hs.domain, Function.update_apply]
    split <;> simp [*]
  full x t hx := by
    replace hx : Function.update s.column b e x = some (.full t) := hx
    rw [Function.update_apply] at hx
    split at hx
    case isTrue h =>
      subst h
      exact he.full t (Option.some.inj hx)
    case isFalse => exact hs.full x t hx
  delta x p d hx := by
    replace hx : Function.update s.column b e x = some (.delta p d) := hx
    rw [Function.update_apply] at hx
    split at hx
    case isTrue h =>
      subst h
      exact he.delta p d (Option.some.inj hx)
    case isFalse => exact hs.delta x p d hx
  jump := hs.jump
  states := hs.states

theorem Based.setRow (hb : Based s) {e : Encoded S D} (hs : Sound c s) (he : Row c s b e)
    {r : Store S D} (hr : r.column = Function.update s.column b e) : Based r := by
  have hmono : ∀ x, (s.column x).isSome → (r.column x).isSome := by
    intro x hx
    rw [hr, Function.update_apply]
    split
    · rfl
    · exact hx
  intro x p d hx
  rw [hr, Function.update_apply] at hx
  split at hx
  case isTrue => exact hmono p ((hs.domain p).2 (he.based p d (Option.some.inj hx)))
  case isFalse => exact hmono p (hb x p d hx)

theorem Sound.put (hx : c.Exact) (hs : Sound c s) : Sound c (s.put c b) := by
  unfold Store.put
  split
  case isFalse => exact hs
  case isTrue hp =>
    split
    · exact hs
    · next e q hq =>
      obtain ⟨hq, hl, hrow⟩ := prepare_state_spec hx hs hq
      have hrow : Row c q b e := ⟨hrow.full, hrow.delta, hl.chain ▸ hrow.based⟩
      have hpar : ∀ p ∈ b.parent, p ∈ q.chain.flushed.stored := fun p h =>
        hq.known p (hl.known ▸ hp p h)
      have hst : ∀ x, x ∈ (q.chain.put_new_block b).flushed.stored ↔
          x = b ∨ x ∈ q.chain.flushed.stored := fun x => Chain.stored_put_new_block hpar
      have hets : (q.chain.put_new_block b).ets = q.chain.ets := Chain.ets_put_new_block
      have hknown : ∀ x ∈ b :: q.known, x = b ∨ x ∈ q.chain.flushed.stored := by
        intro x hx
        rcases List.mem_cons.1 hx with rfl | hx
        · exact .inl rfl
        · exact .inr (hq.known x hx)
      have hbase : Sound c { q with
          chain := q.chain.put_new_block b
          known := b :: q.known
          column := if b ∈ q.chain.flushed.stored then q.column else Function.update q.column b e } := by
        split
        case isTrue hb =>
          have hst' : ∀ x, x ∈ (q.chain.put_new_block b).flushed.stored ↔ x ∈ q.chain.flushed.stored :=
            fun x => (hst x).trans (or_iff_right_of_imp fun h => h ▸ hb)
          exact hq.congr hq.chain.put_new_block hst' (hets ▸ hq.ets) fun x hx =>
            (hst' x).1 ((hst x).2 (hknown x hx))
        case isFalse => exact hq.setRow hq.chain.put_new_block hst hets hknown hrow
      have hal := Sound.alloc hbase (c.state b)
      exact hal.loads ⟨rfl, rfl, rfl, List.prefix_refl _⟩ hal.jump (hal.states.put (alloc_map _ _))

theorem Based.put (hx : c.Exact) (hs : Sound c s) (hb : Based s) : Based (s.put c b) := by
  unfold Store.put
  split
  case isFalse => exact hb
  case isTrue hp =>
    split
    · exact hb
    · next e q hq =>
      obtain ⟨hq, hl, hrow⟩ := prepare_state_spec hx hs hq
      have hrow : Row c q b e := ⟨hrow.full, hrow.delta, hl.chain ▸ hrow.based⟩
      have hbq : Based q := by
        intro x p d hxd
        rw [hl.column] at hxd ⊢
        exact hb x p d hxd
      unfold cache_block
      by_cases hst : b ∈ q.chain.flushed.stored
      · simp only [if_pos hst]
        exact hbq
      · simp only [if_neg hst]
        exact hbq.setRow hq hrow rfl

/-- What `ets_refetch` adds is of the new line. -/
theorem ets_refetch_of {n : Nat} {x : Block} : ∀ {b : Block} {f : Nat → Option Block},
    ets_refetch b f n = some x → (x.Anc b ∧ x.number = n) ∨ f n = some x
  | genesis m, f, h => by
    unfold ets_refetch at h
    split at h
    · exact .inr h
    · rw [Function.update_apply] at h
      split at h
      case isTrue hn =>
        cases h
        exact .inl ⟨rfl, hn.symm⟩
      case isFalse => exact .inr h
  | child p m s, f, h => by
    unfold ets_refetch at h
    split at h
    · exact .inr h
    · rcases ets_refetch_of h with ⟨ha, hn⟩ | h
      · exact .inl ⟨.inr ha, hn⟩
      · rw [Function.update_apply] at h
        split at h
        case isTrue hn =>
          cases h
          exact .inl ⟨Anc.refl _, hn.symm⟩
        case isFalse => exact .inr h

theorem Sound.add (hs : Sound c s) : Sound c { s with chain := (s.chain.add_block c.clock b).2 } := by
  refine hs.congr hs.chain.add_block (fun x => by rw [Chain.stored_add_block]) ?_ hs.known
  intro n x hx
  rcases Chain.add_block_cases c.clock s.chain b with he | ⟨hst, -, he⟩ | ⟨⟨hst, -⟩, he⟩
  · rw [he] at hx
    exact hs.ets n x hx
  · rw [he] at hx
    replace hx : Function.update s.chain.ets b.number b n = some x := hx
    rw [Function.update_apply] at hx
    split at hx
    case isTrue hn =>
      cases hx
      exact ⟨hn.symm, hst⟩
    case isFalse => exact hs.ets n x hx
  · rw [he] at hx
    rcases ets_refetch_of hx with ⟨ha, hn⟩ | hx
    · exact ⟨hn, Chain.stored_of_anc hs.chain.closed hst ha⟩
    · exact hs.ets n x hx

theorem Sound.write (hs : Sound c s) : Sound c { s with chain := s.chain.write } :=
  hs.congr hs.chain.write (fun x => by rw [Chain.flushed_write]) (by simpa using hs.ets) hs.known

theorem Sound.recompress (hx : c.Exact) (hs : Sound c s) {n : Nat}
    (hr : s.recompress_block c n = some s') : Sound c s' ∧ (Based s → Based s') := by
  obtain ⟨b, hb, hr⟩ := Option.bind_eq_some_iff.1 hr
  obtain ⟨-, -, hr⟩ := Option.bind_eq_some_iff.1 hr
  obtain ⟨⟨h, q⟩, hq, hr⟩ := Option.bind_eq_some_iff.1 hr
  obtain ⟨t, ht, hr⟩ := Option.bind_eq_some_iff.1 hr
  obtain ⟨⟨e, r⟩, hp, hlast⟩ := Option.bind_eq_some_iff.1 hr
  have hl := fetch_state_spec hx hs hq
  have ht : some t = some (c.state b) := ht.symm.trans hl.map
  cases ht
  obtain ⟨hsr, hlr, hrow⟩ := prepare_state_spec hx hl.sound hp
  have hrow : Row c r b e := ⟨hrow.full, hrow.delta, hlr.chain ▸ hrow.based⟩
  have hall := hl.loads.trans hlr
  dsimp only at hlast
  rw [Option.some.injEq] at hlast
  subst hlast
  have hbst : b ∈ r.chain.flushed.stored := by
    rw [hall.chain]
    exact (hs.ets n b hb).2
  refine ⟨hsr.setRow hsr.chain (fun x => ?_) rfl (fun x h => .inr (hsr.known x h)) hrow, fun hbs => ?_⟩
  · exact (or_iff_right_of_imp fun h => h ▸ hbst).symm
  · have hbr : Based r := by
      intro x p d hxd
      rw [hall.column] at hxd ⊢
      exact hbs x p d hxd
    exact hbr.setRow hsr hrow rfl

/-! ## Recovery -/

/-- In every run the check of `ets_prefetch` is passed: the block below a numbered
block is its parent. -/
theorem prefetch_line {t : Table} {peak x y : Block} {n : Nat} (h : t.Reads peak.ancestor)
    (hx : t.prefetch n = some x) (hy : t.prefetch (n + 1) = some y) : y.parent = some x := by
  have hp : ∀ k, t.prefetch k = peak.ancestor k := by
    intro k
    rw [Table.prefetch, h.select]
    cases peak.ancestor k <;> rfl
  rw [hp] at hx hy
  obtain ⟨hxa, hxn⟩ := ancestor_eq_some.1 hx
  obtain ⟨hya, hyn⟩ := ancestor_eq_some.1 hy
  cases y with
  | genesis m => cases hyn
  | child p m s =>
    have hpn : p.number = n := Nat.succ.inj hyn
    rcases (Anc.parent.trans hya).linear hxa with h | h
    · rw [h.eq_of_number (by omega)]
      rfl
    · rw [h.eq_of_number (by omega)]
      rfl

theorem Sound.restart (hs : Sound c s) : Sound c s.restart where
  chain := ⟨hs.chain.closed, hs.chain.sql⟩
  ets n x hx := by
    have hx : x ∈ s.chain.flushed.select n := List.mem_of_head? hx
    exact ⟨hs.chain.reads.own n x ((hs.chain.reads.mem n x).1 hx), Table.stored_of_select hx⟩
  known x hx := by
    obtain ⟨o, ho⟩ := Table.mem_stored.1 hx
    exact Table.mem_stored.2 ⟨o, List.mem_of_mem_filter ho⟩
  domain := hs.domain
  full := hs.full
  delta := hs.delta
  jump _ he := by cases he
  states _ he := by cases he

/-- The rows left are those of the line of the new peak. -/
theorem clear_alt_blocks_reads {t : Table} (h : t.Reads b.ancestor) :
    t.clear_alt_blocks.Reads b.ancestor ∧ ∀ x : Block, x ∈ t.clear_alt_blocks.stored ↔ x.Anc b := by
  have hm : ∀ n x, x ∈ t.clear_alt_blocks.select n ↔ b.ancestor n = some x := by
    intro n x
    rw [← h.mem, Table.mem_select, Table.mem_select]
    simp [Table.clear_alt_blocks]
  refine ⟨⟨hm, h.own⟩, fun x => ?_⟩
  rw [Table.mem_stored]
  refine ⟨?_, ?_⟩
  · intro hy
    obtain ⟨o, ho⟩ := hy
    obtain ⟨n, rfl⟩ := Option.isSome_iff_exists.1 (List.mem_filter.1 ho).2
    exact (ancestor_eq_some.1 ((hm n x).1 (Table.mem_select.2 ho))).1
  · intro hx
    exact ⟨some x.number, Table.mem_select.1 ((hm _ x).2 (ancestor_eq_some.2 ⟨hx, rfl⟩))⟩

/-- The store after a recovery that rewinds to `good`: the rows off its line are gone. -/
theorem recover_cases (hs : Sound c s) (n : Nat) :
    s.recover n = s ∧ (1 ≤ n → n < s.chain.peak.number → s.chain.peak.ancestor n = none) ∨
    ∃ good, 1 ≤ n ∧ n < s.chain.peak.number ∧ s.chain.peak.ancestor n = some good ∧
      ((s.chain.put_peak good).clear_alt_blocks).Reads good.ancestor ∧
      (∀ x : Block, x ∈ (s.chain.put_peak good).clear_alt_blocks.stored ↔ x.Anc good) ∧
      s.recover n = { s with
        chain := ⟨good, ((s.chain.put_peak good).clear_alt_blocks).prefetch,
          (s.chain.put_peak good).clear_alt_blocks, []⟩
        known := (s.chain.put_peak good).clear_alt_blocks.stored
        column := fun b => if b ∈ (s.chain.put_peak good).clear_alt_blocks.stored then s.column b else none
        jump := [] } := by
  have hsel := hs.chain.sql n
  unfold recover
  split
  case isFalse hn => exact .inl ⟨rfl, fun h1 h2 => absurd ⟨h1, h2⟩ hn⟩
  case isTrue hn =>
    rw [hsel]
    cases hg : s.chain.peak.ancestor n with
    | none => exact .inl ⟨rfl, fun _ _ => rfl⟩
    | some good =>
      have hst : good ∈ s.chain.flushed.stored :=
        Table.stored_of_select ((hs.chain.reads.mem n good).2 hg)
      obtain ⟨h1, h2⟩ := clear_alt_blocks_reads (hs.chain.put_peak hst)
      exact .inr ⟨good, hn.1, hn.2, rfl, h1, h2, rfl⟩

theorem Sound.recover (hs : Sound c s) (n : Nat) : Sound c (s.recover n) := by
  rcases recover_cases hs n with ⟨he, -⟩ | ⟨good, -, -, hg, hr, hst, he⟩
  · rw [he]
    exact hs
  · rw [he]
    generalize (s.chain.put_peak good).clear_alt_blocks = t at hr hst ⊢
    have hcol : ∀ b e, (if b ∈ t.stored then s.column b else none) = some e → s.column b = some e := by
      intro b e h
      split at h
      · exact h
      · cases h
    have hall : ∀ x : Block, x.Anc good → x ∈ s.chain.flushed.stored := by
      intro x hx
      refine Chain.stored_of_anc hs.chain.closed ?_ hx
      exact Table.stored_of_select ((hs.chain.reads.mem n good).2 hg)
    refine ⟨⟨?_, hr.select⟩, ?_, fun _ h => h, ?_, fun b t h => hs.full b t (hcol b _ h),
      fun b p d h => hs.delta b p d (hcol b _ h), by simp [Cached], hs.states⟩
    · intro b hb p hp
      exact (hst p).2 ((anc_of_parent hp).trans ((hst b).1 hb))
    · intro k x hx
      have hx : x ∈ t.select k := List.mem_of_head? hx
      exact ⟨hr.own k x ((hr.mem k x).1 hx), Table.stored_of_select hx⟩
    · intro b
      show (if b ∈ t.stored then s.column b else none).isSome ↔ b ∈ t.stored
      split
      case isTrue hb => simpa [hb] using (hs.domain b).2 (hall b ((hst b).1 hb))
      case isFalse hb => simpa using hb

/-- A recovery that rewinds to number `n` takes no base away: the base of every
difference on the line of the block it rewinds to is on that line too. -/
def KeepsBases (s : Store S D) (n : Nat) : Prop :=
  1 ≤ n → n < s.chain.peak.number → ∀ good, s.chain.peak.ancestor n = some good →
    ∀ b p d, s.column b = some (.delta p d) → b.Anc good → p.Anc good

theorem based_recover_iff (hs : Sound c s) (hb : Based s) (n : Nat) :
    Based (s.recover n) ↔ KeepsBases s n := by
  rcases recover_cases hs n with ⟨he, hno⟩ | ⟨good, h1, h2, hg, hr, hst, he⟩
  · rw [he]
    refine ⟨fun _ h1 h2 good hg => ?_, fun _ => hb⟩
    rw [hno h1 h2] at hg
    cases hg
  · rw [he]
    simp only [Based, hst]
    refine ⟨?_, ?_⟩
    · intro hbase _ _ good' hg' b p d hd hbg
      obtain rfl : good = good' := Option.some.inj (hg.symm.trans hg')
      have hp := hbase b p d (by rw [if_pos hbg, hd])
      by_contra hpg
      rw [if_neg hpg] at hp
      cases hp
    · intro hk b p d hd
      split at hd
      case isTrue hbg =>
        rw [if_pos (hk h1 h2 good hg b p d hd hbg)]
        exact hb b p d hd
      case isFalse => cases hd

/-! ## Runs -/

theorem step_spec (hx : c.Exact) (hs : Sound c s) : ∀ op : Op, Sound c (s.step c op) ∧
    (Based s → (∀ n, op = .recover n → KeepsBases s n) → Based (s.step c op))
  | .put b => ⟨hs.put hx, fun hb _ => hb.put hx hs⟩
  | .add b => by
    show Sound c (if b ∈ s.known then _ else s) ∧ (_ → _ → Based (if b ∈ s.known then _ else s))
    split
    · exact ⟨hs.add, fun hb _ => hb⟩
    · exact ⟨hs, fun hb _ => hb⟩
  | .write => ⟨hs.write, fun hb _ => hb⟩
  | .state b => by
    show Sound c (((do_state c (b.number + 1) s b).map Prod.snd).getD s) ∧
      (_ → _ → Based (((do_state c (b.number + 1) s b).map Prod.snd).getD s))
    cases hr : do_state c (b.number + 1) s b with
    | none => exact ⟨hs, fun hb _ => hb⟩
    | some r =>
      have hl := do_state_spec hx hs hr
      exact ⟨hl.sound, fun hb _ => hl.loads.based hb⟩
  | .fetch_state b => by
    show Sound c (((s.fetch_state c b).map Prod.snd).getD s) ∧
      (_ → _ → Based (((s.fetch_state c b).map Prod.snd).getD s))
    cases hr : s.fetch_state c b with
    | none => exact ⟨hs, fun hb _ => hb⟩
    | some r =>
      have hl := fetch_state_spec hx hs hr
      exact ⟨hl.sound, fun hb _ => hl.loads.based hb⟩
  | .recompress n => by
    show Sound c ((s.recompress_block c n).getD s) ∧ (_ → _ → Based ((s.recompress_block c n).getD s))
    cases hr : s.recompress_block c n with
    | none => exact ⟨hs, fun hb _ => hb⟩
    | some r =>
      obtain ⟨h1, h2⟩ := hs.recompress hx hr
      exact ⟨h1, fun hb _ => h2 hb⟩
  | .restart => ⟨hs.restart, fun hb _ => hb⟩
  | .recover n => ⟨hs.recover n, fun hb hk => (based_recover_iff hs hb n).2 (hk n rfl)⟩

theorem run_append (pre : List Op) (op : Op) : s.run c (pre ++ [op]) = (s.run c pre).step c op := by
  simp [run, List.foldl_append]

theorem Sound.run (hx : c.Exact) (hs : Sound c s) (ops : List Op) : Sound c (s.run c ops) := by
  induction ops generalizing s with
  | nil => exact hs
  | cons op ops ih => exact ih (step_spec hx hs op).1

theorem Based.run (hx : c.Exact) (hs : Sound c s) (hb : Based s) : ∀ {ops : List Op},
    (∀ pre n, pre ++ [.recover n] <+: ops → KeepsBases (s.run c pre) n) → Based (s.run c ops) := by
  intro ops
  induction ops using List.reverseRecOn with
  | nil => exact fun _ => hb
  | append_singleton pre op ih =>
    intro hk
    rw [run_append]
    refine (step_spec hx (hs.run hx pre) op).2
      (ih fun q n hq => hk q n (hq.trans (List.prefix_append _ _))) ?_
    rintro n rfl
    exact hk pre n (List.prefix_refl _)

theorem persisted_run_iff (hx : c.Exact) (hs : Sound c s) (hp : Based s) (ops : List Op) :
    (∀ pre, pre <+: ops → Persisted c (s.run c pre)) ↔
      ∀ pre n, pre ++ [.recover n] <+: ops → KeepsBases (s.run c pre) n := by
  refine ⟨?_, ?_⟩
  · intro hall pre n hpre
    have hsp := hs.run hx pre
    have hbefore := (persisted_iff hx hsp).1 (hall pre ((List.prefix_append _ _).trans hpre))
    have hafter := (persisted_iff hx (hs.run hx _)).1 (hall _ hpre)
    rw [run_append] at hafter
    exact (based_recover_iff hsp hbefore n).1 hafter
  · intro hk pre hpre
    exact (persisted_iff hx (hs.run hx pre)).2
      (hp.run hx hs fun q n hq => hk q n (hq.trans hpre))

/-- mirrors lib/chain.ex:302-315 -/
def seed (c : Node S D) (m : Bytes) : Store S D where
  chain := Chain.seed m
  known := [genesis m]
  column b := if b = genesis m then some (.full (c.state b)) else none
  maps := []
  jump := []
  states := []

theorem stored_seed {m : Bytes} {x : Block} : x ∈ (Chain.seed m).flushed.stored ↔ x = genesis m := by
  simp [Chain.flushed, Chain.seed, Table.stored]

theorem column_seed {m : Bytes} {e : Encoded S D} (h : (seed c m).column b = some e) :
    e = .full (c.state b) := by
  replace h : (if b = genesis m then some (Encoded.full (c.state b)) else none) = some e := h
  split at h
  · exact (Option.some.inj h).symm
  · cases h

theorem seed_sound (c : Node S D) (m : Bytes) : Sound c (seed c m) where
  chain := (Chain.seed_coherent m).toNormative
  ets n x hx := by
    obtain ⟨ha, hn⟩ := ancestor_eq_some.1 hx
    exact ⟨hn, stored_seed.2 ha⟩
  known b hb := stored_seed.2 (List.mem_singleton.1 hb)
  domain b := by
    show (if b = genesis m then some (Encoded.full (c.state b)) else none).isSome ↔ _
    rw [show b ∈ (seed c m).chain.flushed.stored ↔ b = genesis m from stored_seed]
    split <;> simp [*]
  full b t h := by cases column_seed h; rfl
  delta b p d h := by cases column_seed h
  jump _ h := by cases h
  states _ h := by cases h

theorem seed_based (c : Node S D) (m : Bytes) : Based (seed c m) := by
  intro b p d h
  cases column_seed h

/-! ### A line that is followed -/

theorem fetch_state_total (hx : c.Exact) (hs : Sound c s) (hbase : Based s) {p : Block}
    (hp : (s.column p).isSome) (hn : 1 ≤ p.number) : ∃ h s', s.fetch_state c p = some (h, s') := by
  unfold fetch_state
  split
  case h_1 h _ => exact ⟨h, s, rfl⟩
  case h_2 =>
    obtain ⟨h, s', hr⟩ := do_state_total hx hs hp (fun q d => hbase p q d) (p.number - 1)
    rw [show p.number - 1 + 2 = p.number + 1 by omega] at hr
    rw [hr]
    exact ⟨h, _, rfl⟩

/-- The row that `put` writes where the main chain has the block `p` at the height
of the base. -/
def rowOf (c : Node S D) (b p : Block) : Encoded S D :=
  if is_jumpblock b.number then .full (c.state b) else .delta p (c.difference (c.state p) (c.state b))

/-- `s'` is `s` with the block `b` put. -/
structure PutRow (c : Node S D) (s : Store S D) (b p : Block) (s' : Store S D) : Prop where
  sound : Sound c s'
  based : Based s'
  chain : s'.chain = s.chain.put_new_block b
  stored : ∀ x, x ∈ s'.chain.flushed.stored ↔ x = b ∨ x ∈ s.chain.flushed.stored
  known : s'.known = b :: s.known
  column : s'.column = if b ∈ s.chain.flushed.stored then s.column else
    Function.update s.column b (rowOf c b p)

theorem put_row (hx : c.Exact) (hs : Sound c s) (hbase : Based s) {p : Block}
    (hpar : ∀ q ∈ b.parent, q ∈ s.known)
    (hp : is_jumpblock b.number = false → s.chain.ets (prev_number b.number) = some p) :
    PutRow c s b p (s.put c b) := by
  have hprep : ∃ s', s.prepare_state c b (c.state b) = some (rowOf c b p, s') ∧ Loads s s' := by
    unfold prepare_state rowOf
    split
    case isTrue => exact ⟨s, rfl, Loads.refl s⟩
    case isFalse hj =>
      have hj := Bool.eq_false_iff.2 hj
      obtain ⟨hn, hst⟩ := hs.ets _ p (hp hj)
      have hpos : 1 ≤ p.number := by
        obtain ⟨hle, -⟩ := Bool.or_eq_false_iff.1 hj
        have : 500 < b.number := Nat.lt_of_not_le (of_decide_eq_false hle)
        rw [hn, prev_number, jump_size]
        split <;> omega
      obtain ⟨h, s', hr⟩ := fetch_state_total hx hs hbase ((hs.domain p).2 hst) hpos
      have hl := fetch_state_spec hx hs hr
      refine ⟨s', ?_, hl.loads⟩
      rw [hp hj]
      simp [hr, hl.map]
  obtain ⟨s', hr, hl⟩ := hprep
  have hchain : (s.put c b).chain = s.chain.put_new_block b := by
    unfold Store.put
    rw [if_pos hpar, hr]
    show s'.chain.put_new_block b = _
    rw [hl.chain]
  refine ⟨hs.put hx, hbase.put hx hs, hchain, fun x => ?_, ?_, ?_⟩
  · rw [hchain]
    exact Chain.stored_put_new_block fun q hq => hs.known q (hpar q hq)
  · unfold Store.put
    rw [if_pos hpar, hr]
    show b :: s'.known = _
    rw [hl.known]
  · unfold Store.put
    rw [if_pos hpar, hr]
    show (if b ∈ s'.chain.flushed.stored then s'.column else Function.update s'.column b _) = _
    rw [hl.chain, hl.column]

/-- A store that has followed one line up to the block `b`. -/
structure Followed (c : Node S D) (s : Store S D) (b : Block) : Prop where
  sound : Sound c s
  based : Based s
  index : s.chain.Coherent
  peak : s.chain.peak = b
  known : ∀ x : Block, x.Anc b → x ∈ s.known
  below : ∀ x ∈ s.chain.flushed.stored, x.number ≤ b.number
  bases : ∀ x p d, s.column x = some (.delta p d) → p.Anc b
  deltas : ∀ x : Block, x.Anc b → is_jumpblock x.number = false → ∃ p d, s.column x = some (.delta p d)

theorem followed_seed (c : Node S D) (m : Bytes) : Followed c (seed c m) (genesis m) where
  sound := seed_sound c m
  based := seed_based c m
  index := Chain.seed_coherent m
  peak := rfl
  known _ hx := List.mem_singleton.2 hx
  below x hx := by rw [stored_seed.1 hx]
  bases _ _ _ h := by cases column_seed h
  deltas x hx hj := by
    have hx : x = genesis m := hx
    rw [hx] at hj
    cases hj

/-- On a development node the next block of the line is put and added. -/
theorem Followed.extend (hx : c.Exact) (hd : c.clock.dev_mode = true) {a : Block} (h : Followed c s a)
    (hp : b.parent = some a) : Followed c (s.run c [.put b, .add b]) b := by
  have hnum := number_of_parent hp
  have hpar : ∀ q ∈ b.parent, q ∈ s.known := by
    intro q hq
    rw [hp] at hq
    cases hq
    exact h.known a (Anc.refl a)
  -- the base is on the line of `a`, which the index holds
  obtain ⟨p, hpa, hbase⟩ : ∃ p : Block, p.Anc a ∧
      (is_jumpblock b.number = false → s.chain.ets (prev_number b.number) = some p) := by
    cases hj : is_jumpblock b.number with
    | true => exact ⟨a, Anc.refl a, by rintro ⟨⟩⟩
    | false =>
      have hlt := (prev_number_spec hj).1
      obtain ⟨p, hpa⟩ := exists_ancestor (b := a) (n := prev_number b.number) (by omega)
      exact ⟨p, (ancestor_eq_some.1 hpa).1, fun _ => by rw [h.index.ets, h.peak, hpa]⟩
  have hput : PutRow c s b p (s.put c b) := put_row hx h.sound h.based hpar hbase
  have hcol : (s.put c b).column = Function.update s.column b (rowOf c b p) := by
    rw [hput.column, if_neg]
    intro hb
    have := h.below b hb
    omega
  have hbk : b ∈ (s.put c b).known := by
    rw [hput.known]
    exact List.mem_cons_self
  have hpk : (s.put c b).chain.peak = a := by
    rw [hput.chain, Chain.peak_put_new_block, h.peak]
  have hrun : s.run c [.put b, .add b] =
      { s.put c b with chain := ((s.put c b).chain.add_block c.clock b).2 } := if_pos hbk
  have hsa := step_spec hx hput.sound (.add b)
  have hindex : (s.put c b).chain.Coherent := by
    rw [hput.chain]
    have hstep : (s.chain.step c.clock (.put b)).Coherent := h.index.step (by rintro _ ⟨⟩)
    exact hstep
  have hanc : ∀ x : Block, x.Anc b → x = b ∨ x.Anc a := by
    intro x hx
    cases b with
    | genesis m => cases hp
    | child q m t =>
      cases hp
      exact hx
  refine ⟨hsa.1, hsa.2 hput.based (by rintro _ ⟨⟩), ?_, ?_, ?_, ?_, ?_, ?_⟩
  · rw [hrun]
    have hadd : ((s.put c b).chain.step c.clock (.add b)).Coherent :=
      hindex.step fun _ _ hr => Chain.level_of_dev hd hr
    exact hadd
  · rw [hrun]
    show ((s.put c b).chain.add_block c.clock b).2.peak = b
    rw [Chain.add_block_extend ((hput.stored b).2 (.inl rfl)) (hpk.symm ▸ hp)]
  · rw [hrun]
    intro x hx
    show x ∈ (s.put c b).known
    rw [hput.known]
    rcases hanc x hx with rfl | hx
    · exact List.mem_cons_self
    · exact List.mem_cons_of_mem _ (h.known x hx)
  · rw [hrun]
    intro x hx
    rcases (hput.stored x).1 (Chain.stored_add_block ▸ hx) with rfl | hx
    · exact Nat.le_refl _
    · have := h.below x hx
      omega
  · rw [hrun]
    intro x q d hq
    replace hq : (s.put c b).column x = some (.delta q d) := hq
    rw [hcol] at hq
    rcases eq_or_ne x b with rfl | hne
    · rw [Function.update_self, rowOf] at hq
      split at hq
      · cases hq
      · cases hq
        exact hpa.trans (anc_of_parent hp)
    · rw [Function.update_of_ne hne] at hq
      exact (h.bases x q d hq).trans (anc_of_parent hp)
  · rw [hrun]
    intro x hx hj
    show ∃ q d, (s.put c b).column x = some (.delta q d)
    rw [hcol]
    rcases eq_or_ne x b with rfl | hne
    · refine ⟨p, c.difference (c.state p) (c.state x), ?_⟩
      rw [Function.update_self, rowOf, if_neg (Bool.eq_false_iff.1 hj)]
    · rw [Function.update_of_ne hne]
      exact h.deltas x ((hanc x hx).resolve_left hne) hj

/-- A store that has followed one line loses no base: the bases are on that line, and
a base is below its difference. -/
theorem Followed.keepsBases (h : Followed c s b) (n : Nat) : KeepsBases s n := by
  intro _ _ good hg x p d hd hx
  rw [h.peak] at hg
  obtain ⟨hj, hp, -⟩ := h.sound.delta x p d hd
  have hlt := (prev_number_spec hj).1
  rcases Anc.linear (h.bases x p d hd) (ancestor_eq_some.1 hg).1 with hpg | hgp
  · exact hpg
  · have h1 := hx.number_le
    have h2 := hgp.number_le
    omega

/-- A recovery by one block. -/
theorem Followed.recover_parent (h : Followed c s b) {a : Block} (hp : b.parent = some a)
    (hn : 1 ≤ a.number) : (s.recover a.number).chain.peak = a ∧
      (s.recover a.number).column a = s.column a := by
  have hlt : a.number < s.chain.peak.number := by
    rw [h.peak, number_of_parent hp]
    omega
  have hgood : s.chain.peak.ancestor a.number = some a := by
    rw [h.peak]
    exact ancestor_eq_some.2 ⟨anc_of_parent hp, rfl⟩
  rcases recover_cases h.sound a.number with ⟨-, hno⟩ | ⟨good, -, -, hg, -, hst, he⟩
  · rw [hno hn hlt] at hgood
    cases hgood
  · obtain rfl := Option.some.inj (hg.symm.trans hgood)
    rw [he]
    exact ⟨rfl, if_pos ((hst _).2 (Anc.refl _))⟩

def up : Nat → Block
  | 0 => genesis []
  | n + 1 => child (up n) [] []

theorem number_up : ∀ n, (up n).number = n
  | 0 => rfl
  | n + 1 => by rw [up, number, number_up n]

def grow : Nat → List Op
  | 0 => []
  | n + 1 => grow n ++ [.put (up (n + 1)), .add (up (n + 1))]

theorem followed_grow (hx : c.Exact) (hd : c.clock.dev_mode = true) :
    ∀ n, Followed c ((seed c []).run c (grow n)) (up n)
  | 0 => followed_seed c []
  | n + 1 => by
    have := (followed_grow hx hd n).extend hx hd (b := up (n + 1)) rfl
    rwa [run, run, ← List.foldl_append] at this

theorem recover_not_mem_grow (k : Nat) : ∀ n, Op.recover k ∉ grow n
  | 0 => List.not_mem_nil
  | n + 1 => by simp [grow, recover_not_mem_grow k n]

/-- In a history with one recovery, what comes before a recovery comes before that one. -/
theorem prefix_recover {pre ops rest : List Op} {k n : Nat} (ho : ∀ m, Op.recover m ∉ ops)
    (hr : ∀ m, Op.recover m ∉ rest) (h : pre ++ [.recover n] <+: ops ++ .recover k :: rest) :
    pre = ops := by
  induction ops generalizing pre with
  | nil =>
    cases pre with
    | nil => rfl
    | cons op pre =>
      have h := (List.cons_prefix_cons.1 h).2
      exact absurd (h.subset (List.mem_append_right pre (List.mem_singleton_self _))) (hr n)
  | cons op ops ih =>
    cases pre with
    | nil => exact absurd (List.mem_cons.2 (.inl (List.cons_prefix_cons.1 h).1)) (ho n)
    | cons op' pre =>
      have h : op' = op ∧ pre ++ [.recover n] <+: ops ++ .recover k :: rest :=
        List.cons_prefix_cons.1 h
      rw [h.1, ih (fun m hm => ho m (List.mem_cons_of_mem _ hm)) h.2]

/-- **Stored states.** In every history from the genesis block the stored states reload
after every step, exactly when no recovery takes a base away. -/
theorem states_persist (c : Node S D) (hx : c.Exact) (m : Bytes) (ops : List Op) :
    (∀ pre, pre <+: ops → Persisted c ((seed c m).run c pre)) ↔
      ∀ pre n, pre ++ [.recover n] <+: ops → KeepsBases ((seed c m).run c pre) n :=
  persisted_run_iff hx (seed_sound c m) (seed_based c m) ops

/-- A development node whose states are numbers; a difference is the pair of both
sides, and replaying it checks the first. -/
def sample : Node Nat (Nat × Nat) where
  clock := ⟨fun _ => 0, true, 1⟩
  state := Block.number
  difference := Prod.mk
  apply_difference t d := if t = d.1 then some d.2 else none
  state_cache_size := 100

theorem sample_exact : sample.Exact := fun _ _ => if_pos rfl

/-- The line is followed past the jump height 501, where the states are stored as
differences, a recovery rewinds it by one block, and the node starts anew. -/
theorem states_persist_restart :
    let s := (seed sample []).run sample (grow 503 ++ [.recover 502, .restart])
    s.chain.peak = up 502 ∧ (∃ p d, s.column (up 502) = some (.delta p d)) ∧ Persisted sample s := by
  have hF := followed_grow sample_exact rfl 503
  have hpar : (up 503).parent = some (up 502) := by rw [up.eq_2 502, parent]
  obtain ⟨p, d, hrow⟩ := hF.deltas (up 502) (anc_of_parent hpar) (by rw [number_up]; rfl)
  have hrec := hF.recover_parent hpar (by rw [number_up]; omega)
  rw [number_up, hrow] at hrec
  intro s
  have hs : s = (((seed sample []).run sample (grow 503)).recover 502).restart := by
    simp only [s, run, List.foldl_append, List.foldl_cons, List.foldl_nil, step]
  refine ⟨?_, ⟨p, d, ?_⟩, (states_persist sample sample_exact [] _).2 ?_ _ (List.prefix_refl _)⟩
  · rw [hs, restart_peak]
    exact hrec.1
  · rw [hs, restart_column]
    exact hrec.2
  · intro pre n hpre
    rw [prefix_recover (fun m => recover_not_mem_grow m 503) (by simp) hpre]
    exact hF.keepsBases n

/-! ### A base on an abandoned branch -/

def fork1 (a : Block) : Block := child a [] [1]
def fork2 (a : Block) : Block := child (fork1 a) [] []
def fork3 (a : Block) : Block := child (fork2 a) [] []

/-- The second block of a branch off `a` is put while the main chain has another block
above `a`; the third makes the branch the main chain, and the node recovers to the
second. -/
def lose_base (a : Block) : List Op :=
  [.put (fork1 a), .put (fork2 a), .put (fork3 a), .add (fork3 a), .recover 502]

theorem run_lose_base (hx : c.Exact) (hd : c.clock.dev_mode = true) {a b0 : Block}
    (ha : a.number = 500) (hb0 : b0 = child a [] []) (hF : Followed c s b0) :
    (s.run c (lose_base a)).chain.peak = fork2 a ∧
      (s.run c (lose_base a)).column (fork2 a) =
        some (.delta b0 (c.difference (c.state b0) (c.state (fork2 a)))) ∧
      (s.run c (lose_base a)).column b0 = none ∧ (s.run c (lose_base a)).jump = [] := by
  have n0 : b0.number = 501 := by rw [hb0, number, ha]
  have n1 : (fork1 a).number = 501 := by rw [fork1, number, ha]
  have n2 : (fork2 a).number = 502 := by rw [fork2, number, n1]
  have n3 : (fork3 a).number = 503 := by rw [fork3, number, n2]
  have hets : s.chain.ets 501 = some b0 := by
    rw [hF.index.ets, hF.peak]
    exact ancestor_eq_some.2 ⟨Anc.refl _, n0⟩
  -- three puts, during which the index holds the line of `b0`
  have q1 : PutRow c s (fork1 a) b0 (s.put c (fork1 a)) := by
    refine put_row hx hF.sound hF.based ?_ fun hj => ?_
    · intro q hy
      obtain ⟨⟩ := hy
      exact hF.known _ (hb0 ▸ .inr (Anc.refl _))
    · rw [n1] at hj
      cases hj
  rw [lose_base, run, List.foldl_cons, show step c s (.put (fork1 a)) = s.put c (fork1 a) from rfl]
  generalize s.put c (fork1 a) = s1 at q1 ⊢
  have q2 : PutRow c s1 (fork2 a) b0 (s1.put c (fork2 a)) := by
    refine put_row hx q1.sound q1.based ?_ fun _ => ?_
    · intro q hy
      obtain ⟨⟩ := hy
      rw [q1.known]
      exact List.mem_cons_self
    · rw [q1.chain, Chain.ets_put_new_block, n2]
      exact hets
  rw [List.foldl_cons, show step c s1 (.put (fork2 a)) = s1.put c (fork2 a) from rfl]
  generalize s1.put c (fork2 a) = s2 at q2 ⊢
  have q3 : PutRow c s2 (fork3 a) b0 (s2.put c (fork3 a)) := by
    refine put_row hx q2.sound q2.based ?_ fun _ => ?_
    · intro q hy
      obtain ⟨⟩ := hy
      rw [q2.known]
      exact List.mem_cons_self
    · rw [q2.chain, Chain.ets_put_new_block, q1.chain, Chain.ets_put_new_block, n3]
      exact hets
  rw [List.foldl_cons, show step c s2 (.put (fork3 a)) = s2.put c (fork3 a) from rfl]
  generalize s2.put c (fork3 a) = s3 at q3 ⊢
  have hcol : s3.column (fork2 a) = some
    (.delta b0 (c.difference (c.state b0) (c.state (fork2 a)))) := by
    have hnew : fork2 a ∉ s1.chain.flushed.stored := by
      intro h
      rcases (q1.stored _).1 h with h | h
      · rw [h] at n2
        omega
      · have := hF.below _ h
        omega
    have hne : fork2 a ≠ fork3 a := fun h => by
      rw [h] at n2
      omega
    have h2 : s2.column (fork2 a) = some (rowOf c (fork2 a) b0) := by
      rw [q2.column, if_neg hnew, Function.update_self]
    have h3 : s3.column (fork2 a) = s2.column (fork2 a) := by
      rw [q3.column]
      split
      · rfl
      · rw [Function.update_of_ne hne]
    rw [h3, h2, rowOf, n2]
    rfl
  -- the third block of the branch replaces `b0`
  have hpk : s3.chain.peak = b0 := by
    rw [q3.chain, Chain.peak_put_new_block, q2.chain, Chain.peak_put_new_block, q1.chain,
      Chain.peak_put_new_block, hF.peak]
  have hrep : Chain.Replaces c.clock s3.chain (fork3 a) := by
    refine ⟨(q3.stored _).2 (.inl rfl), by omega, ?_, ?_⟩
    · rw [hpk]
      intro h
      have h : fork2 a = b0 := Option.some.inj h
      rw [h] at n2
      omega
    · rw [hpk, Clock.total_difficulty_dev hd, Clock.total_difficulty_dev hd]
      omega
  have hadd : step c s3 (.add (fork3 a)) =
      { s3 with chain := ⟨fork3 a, ets_refetch (fork3 a) s3.chain.ets, s3.chain.put_peak (fork3 a), []⟩ } := by
    have hk : fork3 a ∈ s3.known := by
      rw [q3.known]
      exact List.mem_cons_self
    rw [← Chain.add_block_replace hrep]
    exact if_pos hk
  have hs4 := (step_spec hx q3.sound (.add (fork3 a))).1
  have hpk4 : (step c s3 (.add (fork3 a))).chain.peak = fork3 a := by rw [hadd]
  have hcol4 : (step c s3 (.add (fork3 a))).column = s3.column := by rw [hadd]
  rw [List.foldl_cons, List.foldl_cons, List.foldl_nil]
  generalize step c s3 (.add (fork3 a)) = s4 at hs4 hpk4 hcol4 ⊢
  -- the recovery keeps the line of `fork2`
  have hanc : s4.chain.peak.ancestor 502 = some (fork2 a) := by
    rw [hpk4]
    exact ancestor_eq_some.2 ⟨.inr (Anc.refl _), n2⟩
  show (s4.recover 502).chain.peak = _ ∧ (s4.recover 502).column _ = _ ∧ (s4.recover 502).column _ = _ ∧
    (s4.recover 502).jump = _
  rcases recover_cases hs4 502 with ⟨-, hno⟩ | ⟨good, -, -, hg, -, hst, he⟩
  · rw [hno (by omega) (by rw [hpk4]; omega)] at hanc
    cases hanc
  · obtain rfl : good = fork2 a := Option.some.inj (hg.symm.trans hanc)
    have hoff : ¬ b0.Anc (fork2 a) := by
      intro h
      rcases h with h | h
      · have heq : b0 = fork2 a := h
        rw [heq] at n0
        omega
      · have heq : b0 = fork1 a := h.eq_of_number (show (fork1 a).number ≤ b0.number by omega)
        rw [hb0] at heq
        cases heq
    rw [he]
    refine ⟨rfl, ?_, ?_, rfl⟩
    · rw [← hcol, ← hcol4]
      exact if_pos ((hst _).2 (Anc.refl _))
    · exact if_neg fun h => hoff ((hst _).1 h)

/-- A difference whose base has no row does not load from it. -/
theorem do_state_lost {p : Block} {d : D} (hb : s.column b = some (.delta p d)) (hp : s.column p = none)
    (hj : s.jump = []) : ∀ f, do_state c f s b = none
  | 0 => rfl
  | f + 1 => by
    have hload : do_state c f s p = none := by
      cases f with
      | zero => rfl
      | succ f => rw [do_state, hp]
    rw [do_state, hb]
    dsimp only
    rw [hload, fetch_jump, hj]
    rfl

/-- Followed to the jump height 501 and then recovered on the branch off block 500, the
peak is a stored difference to the main chain's former block 501, which is deleted:
the state of the peak cannot be loaded. -/
theorem lost_base_unloadable :
    let s := (seed sample []).run sample (grow 501 ++ lose_base (up 500))
    s.chain.peak = fork2 (up 500) ∧
      (∃ d, s.column (fork2 (up 500)) = some (.delta (up 501) d)) ∧ s.column (up 501) = none ∧
      ∀ f, do_state sample f s (fork2 (up 500)) = none := by
  have hF := followed_grow sample_exact rfl 501
  have h501 : up 501 = child (up 500) [] [] := up.eq_2 500
  obtain ⟨h1, h2, h3, h4⟩ := run_lose_base sample_exact rfl (number_up 500) h501 hF
  rw [run, run, ← List.foldl_append, ← run] at h1 h2 h3 h4
  exact ⟨h1, ⟨_, h2⟩, h3, do_state_lost h2 h3 h4⟩

end Store
end Diode.L5
