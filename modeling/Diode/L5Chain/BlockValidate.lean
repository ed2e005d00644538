import Diode.L4Evm.TxWire
import Mathlib.Data.List.Forall2

/-!
# Block validation

`Block.validate` simulates a wire block: it makes a new block on the parent from
the wire block's transactions, with the routine that mines blocks, compares the
resulting states, and returns the simulated body under the wire header. That
routine leaves out every transaction which `Transaction.apply` refuses.

* `create_spec`: the simulated body has the accepted transactions, and the receipts of
  applying them one after the other.
* `validate_carries`: a returned block carries its wire block's transactions exactly
  when none of them is refused at its position. On the full path the accounts of its
  state then hash to the wire header's state hash; the fast path only stamps that hash.
-/
namespace Diode.L5.Validation
open Diode.Core Diode.L4

/-- `Chain.State`: the account map and the hash that may be cached with it. -/
structure State (A : Type) where
  accounts : A
  hash : Option Bytes
  deriving DecidableEq

/-- The field `state_hash` of a header holds nothing, a hash or the state itself. -/
inductive StateRef (A : Type) where
  | none
  | hash (h : Bytes)
  | state (s : State A)
  deriving DecidableEq

structure Header (A : Type) where
  previous_block : Option Bytes
  miner_signature : Option Bytes
  block_hash : Option Bytes
  state_hash : StateRef A
  transaction_hash : Option Bytes
  timestamp : Nat
  number : Int
  nonce : Nat
  deriving DecidableEq

/-- The public key is missing in a wallet that was made from an address. -/
structure Wallet where
  pubkey : Option Bytes
  address : Addr
  deriving DecidableEq

structure Block (A R : Type) where
  transactions : List Transaction
  header : Header A
  receipts : List R
  coinbase : Option Wallet
  deriving DecidableEq

inductive Position where
  | first
  | last

/-- What of `ChainDefinition` validation reads, for the blocks of one height. -/
structure ChainDefinition where
  block_reward_position : Position
  check_window : Bool
  min_diversity : Nat
  min_transaction_fee : Bool

/-- The Erlang terms that are encoded here. -/
inductive Term where
  | nil
  | int (i : Int)
  | bin (data : Bytes)
  | list (items : List Term)

def Term.opt : Option Bytes → Term
  | none => .nil
  | some data => .bin data

/-- What validation takes from the rest of the node: the stored blocks and states with
their miners, finality and difficulty, the run of an accepted transaction, hashes and
keys, and what contracts answer. -/
structure Node (A R : Type) where
  parent : Bytes → Option (Block A R)
  testnet_parent : Block A R
  fetch_state : Option Bytes → State A
  state_variant : Option Bytes → A
  blockquick_window : Block A R → List Addr
  last_final : Block A R → Option (Block A R)
  cached_difficulty : Block A R → Nat
  dev_mode : Bool
  chain_definition : Int → ChainDefinition
  hardforks : Int → Option (A → A)
  root_hash : A → Bytes
  account : A → Addr → Nat × Nat
  sender : Transaction → Addr
  new_contract_address : Transaction → Addr
  do_apply : Transaction → Block A R → A → Nat × Nat → A × R
  gas_used : R → Nat
  term_to_binary : Term → Bytes
  hash : Bytes → Bytes
  recover : Bytes → Bytes → Option Wallet
  miner_value : Addr → Block A R → Nat
  contract_min_transaction_fee : Option Bytes → Nat
  registry_address : Addr
  block_reward : Bytes
  block_reward_of : Nat → Nat → Bytes

inductive Check where
  | has_parent
  | correct_number
  | diverse
  | in_final_window
  | hash_valid
  | tx_valid
  | min_tx_fee
  | tx_hash_valid
  | state_equal
  | registry_tx
  deriving DecidableEq

/-- The outcome of a call: `validate` names the check that fails, or raises. -/
inductive Fault where
  | check (c : Check)
  | raised
  deriving DecidableEq

variable {A R : Type} (n : Node A R)

/-! ## Making a block -/

/-- mirrors lib/chain/state.ex:72-78 -/
def State.root (s : State A) : Bytes := s.hash.getD (n.root_hash s.accounts)

/-- mirrors lib/chain/header.ex:83-84 -/
def state_hash (h : Header A) : Option Bytes :=
  match h.state_hash with
  | .none => none
  | .hash b => some b
  | .state s => some (s.root n)

/-- mirrors lib/chain/block.ex:41-47 -/
def state (b : Block A R) : State A :=
  match b.header.state_hash with
  | .state s => s
  | _ => n.fetch_state b.header.block_hash

/-- mirrors lib/chain/header.ex:28-46 -/
def encode_egg (h : Header A) : Bytes :=
  n.term_to_binary (.list [.opt h.previous_block, .opt (state_hash n h), .opt h.transaction_hash,
    .int h.timestamp, .int h.number, .int h.nonce])

/-- mirrors lib/chain/header.ex:49-69 -/
def encode_chicken (h : Header A) : Bytes :=
  n.term_to_binary (.list [.opt h.previous_block, .opt (state_hash n h), .opt h.transaction_hash,
    .int h.timestamp, .int h.number, .int h.nonce, .opt h.miner_signature])

/-- The block hash `Header.update_hash` writes, lib/chain/header.ex:71-74. -/
def update_hash (h : Header A) : Bytes := n.hash (encode_chicken n h)

/-- A signature that cannot be recovered raises.
mirrors lib/chain/header.ex:84-93 -/
def recover_miner (h : Header A) : Option Wallet :=
  let signature := h.miner_signature.getD []
  if ofBe signature = 0 then some ⟨none, 0⟩ else n.recover signature (encode_egg n h)

/-- mirrors lib/chain/block.ex:894-903 -/
def miner (b : Block A R) : Option Wallet :=
  match b.coinbase with
  | none => recover_miner n b.header
  | some coinbase => if coinbase.pubkey.isSome then some coinbase else recover_miner n b.header

/-- `Transaction.to_rlp` as terms, where numbers are not binaries yet. -/
def to_rlp (tx : Transaction) : Option Term :=
  (Secp256k1.bitcoin_to_rlp tx.signature tx.chain_id).map fun (v, r, s) =>
    .list [.int tx.nonce, .int tx.gasPrice, .int tx.gasLimit, .opt (tx.to_addr.map Addr.bytes),
      .int tx.value, .bin tx.payload, .int v, .int r, .int s]

/-- A signature of another length than 65 has no RLP form and raises.
mirrors lib/chain/block.ex:511-514 -/
def encode_transactions (txs : List Transaction) : Option Bytes :=
  (txs.mapM to_rlp).map fun terms => n.term_to_binary (.list terms)

/-- mirrors lib/chain/block.ex:445-458 -/
def create_empty (parent : Block A R) (miner : Wallet) (time : Nat) : Block A R where
  transactions := []
  header :=
    { previous_block := parent.header.block_hash
      miner_signature := none
      block_hash := none
      state_hash := .state ⟨(state n parent).accounts, none⟩
      transaction_hash := none
      timestamp := time
      number := parent.header.number + 1
      nonce := 0 }
  receipts := []
  coinbase := some miner

/-- mirrors lib/chain/transaction.ex:184-217 -/
def apply (tx : Transaction) (env : Block A R) (s : State A) : Except Refusal (State A × R) := do
  let (nonce, balance) := n.account s.accounts (n.sender tx)
  let from_acc ← charge tx nonce balance
  let (accounts, rcpt) := n.do_apply tx env s.accounts from_acc
  .ok (⟨accounts, none⟩, rcpt)

/-- The block with an applied transaction. -/
def Block.snoc (b : Block A R) (tx : Transaction) (s : State A) (rcpt : R) : Block A R :=
  { b with
    transactions := b.transactions ++ [tx]
    receipts := b.receipts ++ [rcpt]
    header := { b.header with state_hash := .state s } }

/-- mirrors lib/chain/block.ex:468-487 -/
def append_transaction (b : Block A R) (tx : Transaction) : Except Refusal (Block A R) := do
  let (s, rcpt) ← apply n tx b (state n b)
  .ok (b.snoc tx s rcpt)

/-- The reduction over the transactions in `create`: a refused one leaves the block as
it was. -/
def append_all (b : Block A R) (txs : List Transaction) : Block A R :=
  txs.foldl (fun b tx =>
    match append_transaction n b tx with
    | .error _ => b
    | .ok b => b) b

/-- mirrors lib/chaindefinition/mainnet.ex:108-129 -/
def hardforks (b : Block A R) : Block A R :=
  match n.hardforks b.header.number with
  | none => b
  | some f => { b with header := { b.header with state_hash := .state ⟨f (state n b).accounts, none⟩ } }

/-- mirrors lib/chain/block.ex:491-510 -/
def finalize_header (b : Block A R) (fast : Bool) : Option (Block A R) :=
  let b := hardforks n b
  if fast then some b
  else do
    let accounts := (state n b).accounts
    let txs ← encode_transactions n b.transactions
    some { b with header := { b.header with
      state_hash := .state ⟨accounts, some (n.root_hash accounts)⟩
      transaction_hash := some (n.hash txs) } }

/-- mirrors lib/chain/block.ex:419-431 -/
def create (parent : Block A R) (txs : List Transaction) (miner : Wallet) (time : Nat) (fast : Bool) :
    Option (Block A R) :=
  finalize_header n (append_all n (create_empty n parent miner time) txs) fast

/-! ## Validation -/

/-- mirrors lib/chain/block.ex:571-590: a parent that is not stored raises. -/
def parent_ref (b : Block A R) : Option (Block A R) :=
  if b.header.number ≥ 1 then b.header.previous_block.bind n.parent else some n.testnet_parent

/-- The call of `create` with what the wire block gives for it. -/
def create_on (p b : Block A R) (fast : Bool) : Option (Block A R) := do
  let miner ← miner n b
  create n p b.transactions miner b.header.timestamp fast

def simulate (b : Block A R) (fast : Bool) : Option (Block A R) := do
  let p ← parent_ref n b
  create_on n p b fast

/-- mirrors lib/chain/block.ex:345-366 -/
def state_equal (sim_block b : Block A R) : Bool := state_hash n sim_block.header =
    state_hash n b.header

/-- The stored parent with the variant of its state, lib/chain/block.ex:555-559. -/
def variant_ref (b : Block A R) : Option (Block A R) :=
  (b.header.previous_block.bind n.parent).map fun p =>
    { p with header := { p.header with state_hash := .state ⟨n.state_variant p.header.block_hash, none⟩ } }

/-- mirrors lib/chain/block.ex:549-569 -/
def simulate_and_check (b : Block A R) : Option (Block A R) := do
  let sim_block ← simulate n b false
  if state_equal n sim_block b then some sim_block
  else
    let p ← variant_ref n b
    create_on n p b false

def window_size : Int := 100

def blockquick_margin : Int := window_size / 10

/-- mirrors lib/chain/block.ex:836-851: there is no clause for another number. -/
def is_diverse : Nat → Block A R → Option Bool
  | 0, _ => some true
  | 1, b =>
    match (n.blockquick_window b).reverse.take 4 with
    | [a₁, a₂, a₃, a₄] => some (! (a₁ = a₂ && a₁ = a₃ && a₁ = a₄))
    | _ => some true
  | _, _ => none

/-- mirrors lib/chain/block.ex:127-137: the last final block has to be known. -/
def in_final_window (b : Block A R) : Option Bool :=
  if (n.chain_definition b.header.number).check_window then
    (n.last_final b).map fun f => f.header.number + window_size - blockquick_margin ≥ b.header.number
  else some true

/-- The last transaction is the block reward call by convention.
mirrors lib/chain/block.ex:274-289 -/
def conforms_min_tx_fee (b : Block A R) : Bool :=
  if (n.chain_definition b.header.number).min_transaction_fee then
    let fee := n.contract_min_transaction_fee b.header.previous_block
    b.transactions.dropLast.all fun tx => fee ≤ tx.gasPrice
  else true

def min_difficulty : Nat := 65536

def max_difficulty : Nat := 2 ^ 256 - 1

def blocktime_goal : Int := 15

/-- mirrors lib/chain/block.ex:617-652 -/
def difficulty (b : Block A R) : Nat :=
  if n.dev_mode then 1
  else
    match b.header.previous_block.bind n.parent with
    | none => min_difficulty
    | some p =>
      let delta := (b.header.timestamp : Int) - p.header.timestamp
      let diff := n.cached_difficulty p
      let step := diff / 10
      let diff := if delta < blocktime_goal then diff + step else diff - step
      if diff < min_difficulty then min_difficulty else diff

/-- mirrors lib/chain/block.ex:385-409 -/
def hash_target (b : Block A R) : Option Nat := do
  let stake ← match b.header.previous_block.bind n.parent with
    | none => some 1
    | some p => (miner n b).map fun m => min (max (n.miner_value m.address p / (1000 * 10 ^ 18)) 1) 50
  some (stake * stake * max_difficulty / difficulty n b)

/-- mirrors lib/chain/block.ex:380-383 -/
def hash_in_target (b : Block A R) (hash : Bytes) : Option Bool :=
  (hash_target n b).map fun target => ofBe hash < target

/-- mirrors lib/chain/block.ex:368-378 -/
def hash_valid (b : Block A R) : Option Bool :=
  match b.header.block_hash with
  | none => some false
  | some h => if h = update_hash n b.header then hash_in_target n b h else some false

/-- mirrors lib/chain/block.ex:694-703 -/
def gas_used (b : Block A R) : Nat := (b.receipts.map n.gas_used).sum

def gas_fees (b : Block A R) : Nat :=
  ((b.transactions.zip b.receipts).map fun p => p.1.gasPrice * n.gas_used p.2).sum

/-- The block reward call with the data `data`. -/
def is_registry_tx (wallet : Wallet) (tx : Transaction) (data : Bytes) : Bool :=
  n.sender tx = wallet.address && tx.gasPrice = 0 && tx.gasLimit = 1000000000 &&
    tx.to_addr.getD (n.new_contract_address tx) = n.registry_address && tx.data.getD [] = data

/-- mirrors lib/chain/block.ex:291-343: an empty list raises. -/
def has_registry_tx (b : Block A R) : Option Bool := do
  let wallet ← miner n b
  match (n.chain_definition b.header.number).block_reward_position with
  | .first => do
    let tx ← b.transactions.head?
    some (is_registry_tx n wallet tx n.block_reward)
  | .last => do
    let tx ← b.transactions.getLast?
    let rcpt ← b.receipts.getLast?
    some (is_registry_tx n wallet tx (n.block_reward_of (gas_used n b - n.gas_used rcpt) (gas_fees n b)))

def test (c : Check) (b : Bool) : Except Fault Unit := if b then .ok () else .error (.check c)

def raising {α : Type} (o : Option α) : Except Fault α :=
  match o with
  | none => .error .raised
  | some a => .ok a

/-- The tests that both kinds of validation make of the header's place. -/
def check_parent (b : Block A R) : Except Fault Unit := do
  let p := b.header.previous_block.bind n.parent
  test .has_parent (b.header.previous_block = p.bind fun p => p.header.block_hash)
  let p ← raising p
  test .correct_number (b.header.number = p.header.number + 1)

/-- mirrors lib/chain/block.ex:252-264 -/
def ensure_fast_validate_block_hash (b wire : Block A R) : Except Fault (Block A R) :=
  match b.header.block_hash with
  | some h => if h.length = 32 then .ok b else .error .raised
  | none =>
    match wire.header.block_hash with
    | some h =>
      if h.length = 32 then .ok { b with header := { b.header with block_hash := some h } }
      else .error .raised
    | none => .ok b

/-- The hash of the wire block's transactions is the one in its header. -/
def tx_hash_valid (b : Block A R) : Except Fault Unit := do
  let txs ← raising (encode_transactions n b.transactions)
  test .tx_hash_valid (some (n.hash txs) = b.header.transaction_hash)

/-- mirrors lib/chain/block.ex:170-209 -/
def validate_full (b : Block A R) : Except Fault (Block A R) := do
  check_parent n b
  let diverse ← raising (is_diverse n (n.chain_definition b.header.number).min_diversity b)
  test .diverse diverse
  let final ← raising (in_final_window n b)
  test .in_final_window final
  let valid ← raising (hash_valid n b)
  test .hash_valid valid
  test .tx_valid (b.transactions.all Transaction.validate)
  test .min_tx_fee (conforms_min_tx_fee n b)
  tx_hash_valid n b
  let sim_block ← raising (simulate_and_check n b)
  test .state_equal (state_equal n sim_block b)
  let reg ← raising (has_registry_tx n sim_block)
  test .registry_tx reg
  .ok { sim_block with header := { b.header with state_hash := sim_block.header.state_hash } }

/-- mirrors lib/chain/block.ex:211-250. The state gets the hash the wire header names. -/
def validate_fast (wire_block : Block A R) : Except Fault (Block A R) := do
  check_parent n wire_block
  let valid ← raising (hash_valid n wire_block)
  test .hash_valid valid
  test .tx_valid (wire_block.transactions.all Transaction.validate)
  tx_hash_valid n wire_block
  let sim_block ← raising (simulate n wire_block true)
  let reg ← raising (has_registry_tx n sim_block)
  test .registry_tx reg
  let sim_state := state n sim_block
  let new_state := ⟨sim_state.accounts, state_hash n wire_block.header⟩
  ensure_fast_validate_block_hash
    { sim_block with header := { wire_block.header with state_hash := .state new_state } } wire_block

def validate (b : Block A R) (fast : Bool) : Except Fault (Block A R) :=
  if fast then validate_fast n b else validate_full n b

/-! ## What a validated block carries -/

variable {n} {b b' wire sim p : Block A R} {fast : Bool}

/-- `Transaction.apply` refuses none of the transactions, each at its position. -/
def accepted (n : Node A R) : Block A R → List Transaction → Bool
  | _, [] => true
  | b, tx :: txs =>
    match append_transaction n b tx with
    | .error _ => false
    | .ok b => accepted n b txs

/-- The parent that the returned block was simulated on: the full validation takes the
variant of its state when the simulation on the stored one misses the wire header's
state. -/
def base (n : Node A R) (wire : Block A R) (fast : Bool) : Option (Block A R) :=
  if fast then parent_ref n wire
  else (simulate n wire false).bind fun sim =>
    if state_equal n sim wire then parent_ref n wire else variant_ref n wire

/-- Every transaction of the wire block can be applied at its position. -/
def Applies (n : Node A R) (wire : Block A R) (fast : Bool) : Prop :=
  ∀ p ∈ base n wire fast, ∀ m ∈ miner n wire,
    accepted n (create_empty n p m wire.header.timestamp) wire.transactions = true

/-- The transactions are applied one after the other, the first on the state of `b` and
each other one on the state the ones before it left, and these are their receipts. -/
inductive Executes (n : Node A R) : Block A R → List Transaction → List R → Prop where
  | nil (b : Block A R) : Executes n b [] []
  | cons {b : Block A R} {tx : Transaction} {txs : List Transaction} {s : State A} {r : R} {rs : List R} :
      apply n tx b (state n b) = .ok (s, r) →
      Executes n (b.snoc tx s r) txs rs → Executes n b (tx :: txs) (r :: rs)

/-- The returned block `b` has the wire block's transactions, their hash is the one in
its header, its receipts are those of applying them in order from the parent's state on,
and on the full path the accounts of its state hash to the wire header's state hash. -/
structure Carries (n : Node A R) (wire : Block A R) (fast : Bool) (b : Block A R) : Prop where
  transactions : b.transactions = wire.transactions
  hash : ∃ txs, encode_transactions n b.transactions = some txs ∧
    b.header.transaction_hash = some (n.hash txs)
  receipts : ∃ p m, base n wire fast = some p ∧ miner n wire = some m ∧
    Executes n (create_empty n p m wire.header.timestamp) b.transactions b.receipts
  state : fast = false → ∃ s, b.header.state_hash = .state s ∧
    state_hash n wire.header = some (n.root_hash s.accounts)

theorem bind_ok {ε α β : Type} {x : Except ε α} {f : α → Except ε β} {r : β}
    (h : (x >>= f) = .ok r) : ∃ a, x = .ok a ∧ f a = .ok r := by
  cases x with
  | error e => cases h
  | ok a => exact ⟨a, rfl, h⟩

theorem test_ok {c : Check} {q : Bool} (h : test c q = .ok ()) : q = true := by
  unfold test at h
  split at h
  · assumption
  · cases h

theorem raising_ok {α : Type} {o : Option α} {a : α} (h : raising o = .ok a) : o = some a := by
  cases o with
  | none => cases h
  | some x => exact congrArg some (Except.ok.inj h)

theorem append_transaction_spec {tx : Transaction} (h : append_transaction n b tx = .ok b') :
    ∃ s r, apply n tx b (state n b) = .ok (s, r) ∧ b' = b.snoc tx s r := by
  obtain ⟨⟨s, r⟩, ha, h⟩ := bind_ok h
  exact ⟨s, r, ha, (Except.ok.inj h).symm⟩

/-- The body that is made of a list: those of its transactions that are accepted with the
receipts of applying them, and all of the list exactly when none is refused. -/
theorem append_all_spec : ∀ (txs : List Transaction) (b : Block A R), ∃ l rs,
    (append_all n b txs).transactions = b.transactions ++ l ∧
    (append_all n b txs).receipts = b.receipts ++ rs ∧ l.Sublist txs ∧
    Executes n b l rs ∧ (l = txs ↔ accepted n b txs = true)
  | [], b => ⟨[], [], (List.append_nil _).symm, (List.append_nil _).symm, List.Sublist.refl _,
      .nil b, by simp [accepted]⟩
  | tx :: txs, b => by
    unfold append_all accepted
    rw [List.foldl_cons]
    cases h : append_transaction n b tx with
    | error e =>
      obtain ⟨l, rs, h1, h2, h3, h4, -⟩ := append_all_spec txs b
      refine ⟨l, rs, h1, h2, h3.cons tx, h4, ?_⟩
      simp only [Bool.false_eq_true, iff_false]
      rintro rfl
      have hlen := h3.length_le
      rw [List.length_cons] at hlen
      omega
    | ok b1 =>
      obtain ⟨s, r, ha, rfl⟩ := append_transaction_spec h
      obtain ⟨l, rs, h1, h2, h3, h4, h5⟩ := append_all_spec txs (b.snoc tx s r)
      refine ⟨tx :: l, r :: rs, ?_, ?_, h3.cons_cons tx, .cons ha h4, ?_⟩
      · calc _ = (b.transactions ++ [tx]) ++ l := h1
          _ = b.transactions ++ tx :: l := by rw [List.append_assoc, List.singleton_append]
      · calc _ = (b.receipts ++ [r]) ++ rs := h2
          _ = b.receipts ++ r :: rs := by rw [List.append_assoc, List.singleton_append]
      · rw [List.cons.injEq, and_iff_right rfl, h5]

theorem hardforks_body (b : Block A R) :
    (hardforks n b).transactions = b.transactions ∧ (hardforks n b).receipts = b.receipts := by
  unfold hardforks
  split <;> exact ⟨rfl, rfl⟩

theorem finalize_body (h : finalize_header n b fast = some b') :
    b'.transactions = b.transactions ∧ b'.receipts = b.receipts := by
  obtain ⟨h1, h2⟩ := hardforks_body (n := n) b
  unfold finalize_header at h
  dsimp only at h
  split at h
  · cases h
    exact ⟨h1, h2⟩
  · obtain ⟨txs, -, h⟩ := Option.bind_eq_some_iff.1 h
    cases h
    exact ⟨h1, h2⟩

theorem create_spec {txs : List Transaction} {m : Wallet} {t : Nat}
    (h : create n p txs m t fast = some b) :
    Executes n (create_empty n p m t) b.transactions b.receipts ∧
    (b.transactions = txs ↔ accepted n (create_empty n p m t) txs = true) := by
  obtain ⟨l, rs, h1, h2, -, h4, h5⟩ := append_all_spec (n := n) txs (create_empty n p m t)
  obtain ⟨f1, f2⟩ := finalize_body h
  rw [f1, f2, h1, h2]
  exact ⟨h4, h5⟩

/-- The state of a full simulation carries the root hash of its own accounts. -/
theorem create_state {txs : List Transaction} {m : Wallet} {t : Nat}
    (h : create n p txs m t false = some b) :
    ∃ accounts, b.header.state_hash = .state ⟨accounts, some (n.root_hash accounts)⟩ := by
  obtain ⟨_, -, h⟩ := Option.bind_eq_some_iff.1 h
  cases h
  exact ⟨_, rfl⟩

/-- The simulation is `create` on the base. -/
theorem simulate_base (h : simulate_and_check n wire = some sim) :
    ∃ p, base n wire false = some p ∧ create_on n p wire false = some sim := by
  obtain ⟨sim1, hs, h⟩ := Option.bind_eq_some_iff.1 h
  obtain ⟨p, hp, hs'⟩ := Option.bind_eq_some_iff.1 hs
  unfold base
  rw [if_neg Bool.false_ne_true, hs, Option.bind_some]
  by_cases he : state_equal n sim1 wire = true
  · rw [if_pos he] at h ⊢
    cases h
    exact ⟨p, hp, hs'⟩
  · rw [if_neg he] at h ⊢
    exact Option.bind_eq_some_iff.1 h

theorem create_on_spec (h : create_on n p wire fast = some sim) :
    ∃ m, miner n wire = some m ∧
      Executes n (create_empty n p m wire.header.timestamp) sim.transactions sim.receipts ∧
      (sim.transactions = wire.transactions ↔
        accepted n (create_empty n p m wire.header.timestamp) wire.transactions = true) := by
  obtain ⟨m, hm, h⟩ := Option.bind_eq_some_iff.1 h
  exact ⟨m, hm, create_spec h⟩

theorem tx_hash_valid_ok (h : tx_hash_valid n b = .ok ()) :
    ∃ txs, encode_transactions n b.transactions = some txs ∧
      b.header.transaction_hash = some (n.hash txs) := by
  obtain ⟨txs, he, h⟩ := bind_ok h
  exact ⟨txs, raising_ok he, (of_decide_eq_true (test_ok h)).symm⟩

theorem validate_full_spec (h : validate_full n wire = .ok b) :
    ∃ p sim, base n wire false = some p ∧ create_on n p wire false = some sim ∧
      tx_hash_valid n wire = .ok () ∧ state_equal n sim wire = true ∧
      b = { sim with header := { wire.header with state_hash := sim.header.state_hash } } := by
  obtain ⟨_, -, h⟩ := bind_ok h
  obtain ⟨_, -, h⟩ := bind_ok h
  obtain ⟨_, -, h⟩ := bind_ok h
  obtain ⟨_, -, h⟩ := bind_ok h
  obtain ⟨_, -, h⟩ := bind_ok h
  obtain ⟨_, -, h⟩ := bind_ok h
  obtain ⟨_, -, h⟩ := bind_ok h
  obtain ⟨_, -, h⟩ := bind_ok h
  obtain ⟨_, -, h⟩ := bind_ok h
  obtain ⟨_, ht, h⟩ := bind_ok h
  obtain ⟨sim, hsim, h⟩ := bind_ok h
  obtain ⟨_, he, h⟩ := bind_ok h
  obtain ⟨reg, -, h⟩ := bind_ok h
  obtain ⟨_, -, h⟩ := bind_ok h
  obtain ⟨p, hp, hc⟩ := simulate_base (raising_ok hsim)
  exact ⟨p, sim, hp, hc, ht, test_ok he, (Except.ok.inj h).symm⟩

theorem validate_fast_spec (h : validate_fast n wire = .ok b) :
    ∃ p sim, base n wire true = some p ∧ create_on n p wire true = some sim ∧
      tx_hash_valid n wire = .ok () ∧ b.transactions = sim.transactions ∧ b.receipts = sim.receipts ∧
      b.header.transaction_hash = wire.header.transaction_hash := by
  obtain ⟨_, -, h⟩ := bind_ok h
  obtain ⟨_, -, h⟩ := bind_ok h
  obtain ⟨_, -, h⟩ := bind_ok h
  obtain ⟨_, -, h⟩ := bind_ok h
  obtain ⟨_, ht, h⟩ := bind_ok h
  obtain ⟨sim, hsim, h⟩ := bind_ok h
  obtain ⟨reg, -, h⟩ := bind_ok h
  obtain ⟨_, -, h⟩ := bind_ok h
  obtain ⟨p, hp, hc⟩ := Option.bind_eq_some_iff.1 (raising_ok hsim)
  refine ⟨p, sim, hp, hc, ht, ?_⟩
  dsimp only [ensure_fast_validate_block_hash] at h
  split at h
  · split at h
    · cases h
      exact ⟨rfl, rfl, rfl⟩
    · cases h
  · split at h
    · split at h
      · cases h
        exact ⟨rfl, rfl, rfl⟩
      · cases h
    · cases h
      exact ⟨rfl, rfl, rfl⟩

/-- What both validations have in common: the body is the simulated one, the hash of
the transactions is the wire header's. -/
theorem carries_of (hp : base n wire fast = some p) (hc : create_on n p wire fast = some sim)
    (ht : tx_hash_valid n wire = .ok ()) (h1 : b.transactions = sim.transactions)
    (h2 : b.receipts = sim.receipts) (h3 : b.header.transaction_hash = wire.header.transaction_hash)
    (hs : fast = false → ∃ s, b.header.state_hash = .state s ∧
      state_hash n wire.header = some (n.root_hash s.accounts)) :
    Carries n wire fast b ↔ Applies n wire fast := by
  obtain ⟨m, hm, hex, hall⟩ := create_on_spec hc
  obtain ⟨txs, htxs, hhash⟩ := tx_hash_valid_ok ht
  unfold Applies
  rw [hp, hm]
  constructor
  · rintro hcar q hq w hw
    cases hq
    cases hw
    exact hall.1 (h1.symm.trans hcar.transactions)
  · intro ha
    have htx : b.transactions = wire.transactions := h1.trans (hall.2 (ha p rfl m rfl))
    refine ⟨htx, ⟨txs, by rw [htx]; exact htxs, h3.trans hhash⟩, ⟨p, m, hp, hm, ?_⟩, hs⟩
    rw [h1, h2]
    exact hex

/-- A validated block carries exactly its wire block's transactions when none of them is
refused at its position, and only then: the refused ones are left out of it without
notice. -/
theorem validate_carries (n : Node A R) (wire b : Block A R) (fast : Bool)
    (h : validate n wire fast = .ok b) : Carries n wire fast b ↔ Applies n wire fast := by
  cases fast with
  | true =>
    obtain ⟨p, sim, hp, hc, ht, h1, h2, h3⟩ := validate_fast_spec h
    exact carries_of hp hc ht h1 h2 h3 (fun hf => nomatch hf)
  | false =>
    obtain ⟨p, sim, hp, hc, ht, he, rfl⟩ := validate_full_spec h
    refine carries_of hp hc ht rfl rfl rfl fun _ => ?_
    obtain ⟨m, -, hcr⟩ := Option.bind_eq_some_iff.1 hc
    obtain ⟨accounts, hst⟩ := create_state hcr
    refine ⟨_, hst, ?_⟩
    calc state_hash n wire.header = state_hash n sim.header := (of_decide_eq_true he).symm
      _ = some (n.root_hash accounts) := by
        unfold state_hash
        rw [hst]
        rfl

/-! ### A refused transaction -/

def plain (nonce : Nat) : Transaction where
  nonce := nonce
  gasPrice := 0
  gasLimit := 1000000000
  to_addr := some 1
  value := 0
  chain_id := none
  signature := List.replicate 65 1
  init := none
  data := some []

/-- The first integer of each transaction, the number of a header. -/
def sampleTerm : Term → Bytes
  | .list [_, _, _, _, .int number, _, _] => be 32 number.toNat
  | .list txs => txs.map fun
    | .list (.int nonce :: _) => UInt8.ofNat nonce.toNat
    | _ => 0
  | _ => []

def header (number : Int) (state_hash : StateRef Nat) (prev tx_hash : Option Bytes) : Header Nat where
  previous_block := prev
  miner_signature := none
  block_hash := some (be 32 number.toNat)
  state_hash := state_hash
  transaction_hash := tx_hash
  timestamp := 0
  number := number
  nonce := 0

def sampleMiner : Wallet := ⟨some [2], 7⟩

/-- A chain with one account, the miner; its state is the miner's nonce. An applied
transaction raises the nonce, and uses no gas. -/
def sample : Node Nat Nat where
  parent h := if h = be 32 1 then
    some ⟨[], header 1 (.state ⟨5, none⟩) none none, [], some sampleMiner⟩ else none
  testnet_parent := ⟨[], header 0 .none none none, [], some sampleMiner⟩
  fetch_state _ := ⟨0, none⟩
  state_variant _ := 0
  blockquick_window _ := [7, 8, 7, 8]
  last_final _ := some ⟨[], header 1 .none none none, [], some sampleMiner⟩
  cached_difficulty _ := 65536
  dev_mode := false
  chain_definition _ := ⟨.last, true, 1, true⟩
  hardforks _ := none
  root_hash a := be 32 a
  account a _ := (a, 0)
  sender _ := 7
  new_contract_address _ := 0
  do_apply _ _ _ acc := (acc.1, 0)
  gas_used r := r
  term_to_binary := sampleTerm
  hash b := b
  recover _ _ := none
  miner_value _ _ := 0
  contract_min_transaction_fee _ := 0
  registry_address := 1
  block_reward := []
  block_reward_of _ _ := []

/-- The wire block of the transactions with these nonces, on the block with number 1. -/
def wireOf (nonces : List Nat) : Block Nat Nat where
  transactions := nonces.map plain
  header := header 2 (.hash (be 32 6)) (some (be 32 1)) (some (nonces.map UInt8.ofNat))
  receipts := []
  coinbase := some sampleMiner

def Returns (x : Except Fault (Block Nat Nat)) (q : Block Nat Nat → Bool) : Bool :=
  match x with
  | .ok b => q b
  | .error _ => false

theorem Returns.ok {x : Except Fault (Block Nat Nat)} {q : Block Nat Nat → Bool}
    (h : Returns x q = true) : ∃ b, x = .ok b ∧ q b = true := by
  cases x with
  | error e => cases h
  | ok b => exact ⟨b, rfl, h⟩

/-- One transaction with the miner's nonce: both validations return it whole. -/
theorem validate_carries_one : ∃ b b', validate sample (wireOf [5]) false = .ok b ∧
    Carries sample (wireOf [5]) false b ∧
    validate sample (wireOf [5]) true = .ok b' ∧ Carries sample (wireOf [5]) true b' := by
  have hfull : Returns (validate sample (wireOf [5]) false) (fun _ => true) = true := by decide +kernel
  have hfast : Returns (validate sample (wireOf [5]) true) (fun _ => true) = true := by decide +kernel
  obtain ⟨b, hb, -⟩ := Returns.ok hfull
  obtain ⟨b', hb', -⟩ := Returns.ok hfast
  have happ : ∀ fast, ∀ p ∈ base sample (wireOf [5]) fast, ∀ m ∈ miner sample (wireOf [5]),
      accepted sample (create_empty sample p m 0) (wireOf [5]).transactions = true := by
    decide +kernel
  exact ⟨b, b', hb, (validate_carries sample _ b false hb).2 (happ false),
    hb', (validate_carries sample _ b' true hb').2 (happ true)⟩

/-- The first of the two transactions has a nonce the account does not have: both
validations return a block with the second one only. -/
theorem refused_transaction_validates :
    (∃ b, validate sample (wireOf [9, 5]) false = .ok b ∧ b.transactions = [plain 5] ∧
      b.header.transaction_hash = some [9, 5] ∧ ¬ Carries sample (wireOf [9, 5]) false b) ∧
    (∃ b, validate sample (wireOf [9, 5]) true = .ok b ∧ b.transactions = [plain 5] ∧
      b.header.transaction_hash = some [9, 5] ∧ ¬ Carries sample (wireOf [9, 5]) true b) := by
  have hrun : ∀ fast, Returns (validate sample (wireOf [9, 5]) fast)
      (fun b => b.transactions = [plain 5] ∧ b.header.transaction_hash = some [9, 5]) = true := by
    decide +kernel
  have hne : [plain 5] ≠ (wireOf [9, 5]).transactions := by decide +kernel
  have hlost : ∀ fast, ∃ b, validate sample (wireOf [9, 5]) fast = .ok b ∧ b.transactions = [plain 5] ∧
      b.header.transaction_hash = some [9, 5] ∧ ¬ Carries sample (wireOf [9, 5]) fast b := by
    intro fast
    obtain ⟨b, hb, hq⟩ := Returns.ok (hrun fast)
    obtain ⟨htx, hhash⟩ := of_decide_eq_true hq
    exact ⟨b, hb, htx, hhash, fun h => hne (htx.symm.trans h.transactions)⟩
  exact ⟨hlost false, hlost true⟩

end Diode.L5.Validation
