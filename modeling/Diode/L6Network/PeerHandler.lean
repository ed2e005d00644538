import Diode.Core.Bytes

/-!
# Responses of a peer

Two handlers are joined by a connection, each with a queue of the calls it has
sent. A response has no id: it is for the first call of the queue. A response that
asks for the parents of a block moves the call to the end of the queue, as they are
sent in a request of their own.

Each request is answered once, in the order of the requests, so a queue holds
the calls of the responses on their way and after them those of the requests on
their way (`Dir`).

Between two events the rest of the node may change as it likes, within one event
it does not (`World`).

* `responses_matched`: in every run, the nth response a handler takes from the
  wire is what the other side made of the nth request it had sent, for the call
  the handler takes it for.
-/
namespace Diode.L6.PeerHandler
open Diode.Core

/-- mirrors lib/network/peer_handler.ex:15-24 -/
inductive Cmd where
  | find_node
  | find_value
  | store
  | publish
  | ping
  | pong
  deriving DecidableEq

/-- What is read of a block here. -/
structure Block where
  hash : Bytes
  parent_hash : Bytes
  number : Nat
  deriving DecidableEq

/-- What `{:rpc, call}` asks the other side. The last three are the kinds of
`publish`. -/
inductive Call where
  | find_node (id : Bytes)
  | find_value (id : Bytes)
  | store (key value : Bytes)
  | ping
  | pong
  | transaction (tx : Bytes)
  | block (block : Block)
  | blocks (blocks : List Block)
  deriving DecidableEq

/-- The rest of a response: `"ok"`, `"error"`, `"missing_parent"`, a hash or an
object, a `:ping` or `:pong`, an item of the network. -/
inductive Term where
  | ok
  | error
  | missing_parent
  | bytes (b : Bytes)
  | atom (cmd : Cmd)
  | node (item : Bytes)
  deriving DecidableEq

/-- `[@response, cmd | rest]` -/
structure Response where
  cmd : Cmd
  rest : List Term
  deriving DecidableEq

inductive Msg where
  | hello (server genesis_hash : Bytes)
  | call (c : Call)
  | response (r : Response)

/-- The caller of a `GenServer.call`. -/
abbrev From := Nat

/-- A call in the queue, with no caller for a cast. -/
abbrev Entry := Call × Option From

/-- `no_such_parent` is the text that there is no such parent. -/
inductive Reply where
  | value (value : Term)
  | rest (rest : List Term)
  | no_such_parent (parent_hash : Bytes)

/-- What the handler is told by the rest of the node, the same all through an
event. -/
structure World where
  genesis_hash : Bytes
  peak : Block
  find_node_lookup : Bytes → List Bytes
  object : Bytes → Option Bytes
  valid_transaction : Bytes → Bool
  miner_signature_valid : Block → Bool
  block_by_hash : Bytes → Bool
  with_parent : Block → Option Block
  search_parent : Block → Block
  is_active_sync : Bool
  active_sync_job : Bool
  blocks : Bytes → List Block
  byte_size : List Block → Nat
  peer_port : Bytes → Option Nat

structure Backup where
  peak : Block
  oldest : Block
  deriving DecidableEq

/-- The state of a handler. mirrors lib/network/peer_handler.ex:33-48 -/
structure Peer where
  blocks : Option Backup
  calls : List Entry
  job : Bool
  last_publish : Option Bytes
  random_blocks : Nat
  peer_port : Option Nat

/-- What a handler does besides: it sends a call for an entry just queued, sends a
response, takes an entry from the queue and replies to its caller if there is one,
or casts to itself. -/
inductive Out where
  | call (msg : Call) (entry : Entry)
  | response (r : Response)
  | reply (entry : Entry) (r : Reply)
  | cast (c : Call)

/-! ## Requests -/

def ok : Response := ⟨.publish, [.ok]⟩

/-- mirrors lib/network/peer_handler.ex:451-473 -/
def do_handle_block (w : World) (p : Peer) : Response × Peer :=
  if w.is_active_sync && !w.active_sync_job && !p.job then (ok, { p with job := true }) else (ok, p)

/-- The backup list with the block, `none` after too many random blocks.
mirrors lib/network/peer_handler.ex:389-429 -/
def keep_block (w : World) (block : Block) (p : Peer) : Option (Nat × Backup) :=
  match p.blocks with
  | none => some (0, ⟨block, w.search_parent block⟩)
  | some blocks =>
    if blocks.oldest.number ≤ block.number ∧ block.number ≤ blocks.peak.number then some (0, blocks)
    else
      let parent := w.search_parent block
      if parent.number < blocks.oldest.number then some (0, { blocks with oldest := parent })
      else if block.parent_hash = blocks.peak.hash then some (0, { blocks with peak := block })
      else if p.random_blocks < 100 then some (p.random_blocks + 1, blocks)
      else none

/-- `none` where the handler stops. mirrors lib/network/peer_handler.ex:389-449 -/
def handle_block (w : World) (parent : Option Block) (block : Block) (p : Peer) :
    Option (Response × Peer) :=
  match parent with
  | some _ => some (do_handle_block w p)
  | none =>
    (keep_block w block p).map fun (random_blocks, blocks) =>
      let p := { p with blocks := some blocks, random_blocks }
      if w.block_by_hash blocks.oldest.parent_hash then do_handle_block w p
      else (⟨.publish, [.missing_parent, .bytes blocks.oldest.parent_hash]⟩, p)

/-- mirrors lib/network/peer_handler.ex:314-330 -/
def publish_block (w : World) (p : Peer) (block : Block) : Option (Response × Peer) :=
  if w.miner_signature_valid block then
    if w.block_by_hash block.hash then some (ok, p) else handle_block w (w.with_parent block) block p
  else some (ok, p)

/-- mirrors lib/network/peer_handler.ex:279-312 -/
def publish_blocks (w : World) (p : Peer) (blocks : List Block) : Option (Response × Peer) :=
  (blocks.foldlM (fun (r : Response × Peer) block => publish_block w r.2 block) (ok, p)).map
    fun (response, q) =>
    if q.blocks = none ∨ q.blocks.map Backup.oldest = p.blocks.map Backup.oldest then (ok, q)
      else (response, q)

def nodes (w : World) (id : Bytes) : Response := ⟨.find_node, (w.find_node_lookup id).map .node⟩

/-- The clauses of `handle_msg` for requests. mirrors lib/network/peer_handler.ex:229-330 -/
def answer (w : World) (p : Peer) : Call → Option (Response × Peer)
  | .find_node id => some (nodes w id, p)
  | .find_value id =>
    match w.object id with
    | none => some (nodes w id, p)
    | some value => some (⟨.find_value, [.bytes value]⟩, p)
  | .store _ _ => some (⟨.store, [.ok]⟩, p)
  | .ping => some (⟨.ping, [.atom .pong]⟩, p)
  | .pong => some (⟨.pong, [.atom .ping]⟩, p)
  | .transaction tx => some (if w.valid_transaction tx then ok else ⟨.publish, [.error]⟩, p)
  | .blocks blocks => publish_blocks w p blocks
  | .block block => publish_block w p block

/-! ## Responses -/

/-- mirrors lib/network/peer_handler.ex:50-56 -/
def publish_peak (w : World) (p : Peer) : List Out :=
  if some w.peak.hash ≠ p.last_publish then [.cast (.block w.peak)] else []

/-- mirrors lib/network/peer_handler.ex:475-483 -/
def respond (p : Peer) (msg : Reply) : Option (Peer × List Out) :=
  match p.calls with
  | [] => none
  | entry :: calls => some ({ p with calls }, [.reply entry msg])

/-- The valid ones of the blocks, up to 260 kB of them. -/
def parents (w : World) (parent_hash : Bytes) : List Block :=
  go (w.blocks parent_hash) []
where
  go : List Block → List Block → List Block
    | [], blocks => blocks.reverse
    | block :: rest, blocks =>
      if w.miner_signature_valid block then
        if w.byte_size (block :: blocks) > 260000 then (block :: blocks).reverse else go rest
          (block :: blocks)
      else go rest blocks

/-- The clauses of `handle_msg` for responses. mirrors lib/network/peer_handler.ex:332-380 -/
def handle_response (w : World) (p : Peer) : Response → Option (Peer × List Out)
  | ⟨.publish, [.missing_parent, .bytes parent_hash]⟩ =>
    match parents w parent_hash with
    | [] => respond p (.no_such_parent parent_hash)
    | blocks =>
      match p.calls with
      | [] => none
      | call :: calls => some ({ p with calls := calls ++ [call] }, [.call (.blocks blocks) call])
  | ⟨.find_value, [value]⟩ => respond p (.value value)
  | ⟨.publish, [.ok]⟩ => (respond p (.rest [.ok])).map fun (q, out) => (q, publish_peak w p ++ out)
  | ⟨_, rest⟩ => respond p (.rest rest)

/-- mirrors lib/network/peer_handler.ex:203-227 -/
def handle_hello (w : World) (p : Peer) (server genesis_hash : Bytes) : Option (Peer × List Out) :=
  if w.genesis_hash ≠ genesis_hash then none
  else match p.peer_port with
    | some _ => some (p, publish_peak w p)
    | none => (w.peer_port server).map fun port => ({ p with peer_port := some port }, publish_peak w p)

/-- mirrors lib/network/peer_handler.ex:203-385 -/
def handle_msg (w : World) (p : Peer) : Msg → Option (Peer × List Out)
  | .hello server genesis_hash => handle_hello w p server genesis_hash
  | .call c => (answer w p c).map fun (r, p) => (p, [.response r])
  | .response r => handle_response w p r

/-- mirrors lib/network/peer_handler.ex:119-122 -/
def handle_call (p : Peer) (call : Call) (sender : From) : Peer × List Out :=
  ({ p with calls := p.calls ++ [(call, some sender)] }, [.call call (call, some sender)])

/-- mirrors lib/network/peer_handler.ex:64-79 -/
def handle_cast (p : Peer) (call : Call) : Peer × List Out :=
  match call with
  | .block block =>
    if some block.hash ≠ p.last_publish then
      ({ p with calls := p.calls ++ [(call, none)], last_publish := some block.hash },
        [.call call (call, none)])
    else (p, [])
  | _ => ({ p with calls := p.calls ++ [(call, none)] }, [.call call (call, none)])

/-- `ret` is the number of the block that came of it. A `missing_parent` is no value
to return here. mirrors lib/network/peer_handler.ex:81-112 -/
def sync_done (w : World) (p : Peer) (ret : Option Nat) : Option Peer :=
  let p := { p with job := false }
  let done := { p with blocks := none, random_blocks := 0 }
  match ret, p.blocks with
  | some number, some blocks =>
    if blocks.peak.number ≤ number then some done
    else match handle_block w (w.with_parent blocks.peak) blocks.peak p with
      | some (r, p) => if r = ok then some p else none
      | none => none
  | _, _ => some done

/-! ## Two handlers -/

/-- A request that was sent, with the entry it was sent for. -/
structure Ticket where
  msg : Call
  entry : Entry

/-- A handler with its end of the connection and its history: what it was called
for, the requests it sent, the responses it made, those it took and for which
entry, and its replies. `greeted` tells that `do_init` is over. -/
structure Side where
  peer : Peer
  alive : Bool
  greeted : Bool
  inbox : List Msg
  casts : List Call
  asked : List Entry
  sent : List Ticket
  served : List (Call × Response)
  got : List (Entry × Response)
  replies : List (Entry × Reply)

structure Link where
  mine : Side
  theirs : Side
  next : From

def Link.swap (s : Link) : Link := ⟨s.theirs, s.mine, s.next⟩

/-- What comes to the handler next: a call, a cast, one of its own casts, the next
message of the other side, the end of a sync, or its own end (a failed link, a
timeout, a closed connection). -/
inductive Event where
  | call (c : Call)
  | cast (c : Call)
  | self_cast
  | ssl
  | sync_done (ret : Option Nat)
  | stop

def emit (s : Link) : Out → Link
  | .call msg entry =>
    { s with
      mine := { s.mine with sent := s.mine.sent ++ [⟨msg, entry⟩] }
      theirs := { s.theirs with inbox := s.theirs.inbox ++ [.call msg] } }
  | .response r => { s with theirs := { s.theirs with inbox := s.theirs.inbox ++ [.response r] } }
  | .reply entry r => { s with mine := { s.mine with replies := s.mine.replies ++ [(entry, r)] } }
  | .cast c => { s with mine := { s.mine with casts := s.mine.casts ++ [c] } }

/-- The entry a response is taken for is the first of the queue, if there is one.
What a request is answered with is what is sent. -/
def record (m : Side) (msg : Msg) (out : List Out) : Side :=
  match msg with
  | .hello _ _ => m
  | .call c => { m with served := m.served ++ out.filterMap fun o => match o with | .response r => some (c, r) | _ => none }
  | .response r => { m with got := m.got ++ m.peer.calls.head?.toList.map fun entry => (entry, r) }

def halt (s : Link) : Link := { s with mine := { s.mine with alive := false } }

/-- `{:rpc, call}` as a cast. -/
def cast (s : Link) (c : Call) : Link :=
  let (peer, out) := handle_cast s.mine.peer c
  let entries := out.filterMap fun o => match o with | .call _ entry => some entry | _ => none
  out.foldl emit { s with mine := { s.mine with peer, asked := s.mine.asked ++ entries } }

/-- mirrors lib/network/peer_handler.ex:166-191 -/
def handle_info (w : World) (s : Link) (msg : Msg) (inbox : List Msg) : Link :=
  match handle_msg w s.mine.peer msg with
  | none => halt s
  | some (peer, out) => out.foldl emit
      { s with mine := { record s.mine msg out with peer, inbox, greeted := true } }

def Msg.isHello : Msg → Bool
  | .hello _ _ => true
  | _ => false

/-- The first message is to be a hello. -/
def ssl (w : World) (s : Link) : Link :=
  match s.mine.inbox with
  | [] => s
  | msg :: inbox => if !s.mine.greeted && !msg.isHello then halt s else handle_info w s msg inbox

/-- A step of the handler on this side. -/
def act (w : World) (s : Link) (e : Event) : Link :=
  if !s.mine.alive then s
  else match e with
    | .stop => halt s
    | .ssl => ssl w s
    | e =>
      if !s.mine.greeted then s
      else match e with
        | .call c =>
          let (peer, out) := handle_call s.mine.peer c s.next
          out.foldl emit { s with mine :=
            { s.mine with peer, asked := s.mine.asked ++ [(c, some s.next)] }, next := s.next + 1 }
        | .cast c => cast s c
        | .self_cast =>
          match s.mine.casts with
          | [] => s
          | c :: casts => cast { s with mine := { s.mine with casts } } c
        | .sync_done ret =>
          match sync_done w s.mine.peer ret with
          | none => halt s
          | some peer => { s with mine := { s.mine with peer } }
        | _ => s

/-- The side a step is of is told by the flag. -/
def step (s : Link) (e : World × Bool × Event) : Link :=
  if e.2.1 then act e.1 s e.2.2 else (act e.1 s.swap e.2.2).swap

/-- mirrors lib/network/peer_handler.ex:33-48 -/
def Peer.new : Peer := ⟨none, [], false, none, 0, none⟩

/-- After both have sent their hello. -/
def Side.new (server genesis_hash : Bytes) : Side :=
  ⟨.new, true, false, [.hello server genesis_hash], [], [], [], [], [], []⟩

def start (server₁ server₂ genesis_hash₁ genesis_hash₂ : Bytes) : Link :=
  ⟨.new server₂ genesis_hash₂, .new server₁ genesis_hash₁, 0⟩

def run (s : Link) (es : List (World × Bool × Event)) : Link := es.foldl step s

/-! ## What a handler does -/

/-- The requests that may be answered with a missing parent. -/
def Call.publishes : Call → Bool
  | .block _ => true
  | .blocks _ => true
  | _ => false

/-- A response to publishing blocks. -/
def Published (r : Response) : Prop := r = ok ∨ ∃ h, r = ⟨.publish, [.missing_parent, .bytes h]⟩

/-- What may be the answer to what. -/
def Fits : Call → Response → Prop
  | .find_node _, r => r.cmd = .find_node
  | .find_value _, r => r.cmd = .find_node ∨ ∃ value, r = ⟨.find_value, [value]⟩
  | .store _ _, r => r = ⟨.store, [.ok]⟩
  | .ping, r => r = ⟨.ping, [.atom .pong]⟩
  | .pong, r => r = ⟨.pong, [.atom .ping]⟩
  | .transaction _, r => r = ok ∨ r = ⟨.publish, [.error]⟩
  | .block _, r => Published r
  | .blocks _, r => Published r

/-- What a caller is told of a response. -/
def reply_of : Response → Reply
  | ⟨.publish, [.missing_parent, .bytes parent_hash]⟩ => .no_such_parent parent_hash
  | ⟨.find_value, [value]⟩ => .value value
  | ⟨_, rest⟩ => .rest rest

variable {w : World} {p q : Peer} {r : Response} {c : Call}

theorem do_handle_block_spec (w : World) (p : Peer) :
    (do_handle_block w p).1 = ok ∧ (do_handle_block w p).2.calls = p.calls := by
  unfold do_handle_block
  split
  · exact ⟨rfl, rfl⟩
  · exact ⟨rfl, rfl⟩

theorem handle_block_spec {parent : Option Block} {block : Block}
    (h : handle_block w parent block p = some (r, q)) :
    Published r ∧ q.calls = p.calls := by
  unfold handle_block at h
  split at h
  · have hspec := do_handle_block_spec w p
    rw [Option.some.inj h] at hspec
    exact hspec.imp_left .inl
  · obtain ⟨⟨random_blocks, blocks⟩, -, h⟩ := Option.map_eq_some_iff.1 h
    dsimp only at h
    split at h
    · have hspec := do_handle_block_spec w { p with blocks := some blocks, random_blocks }
      rw [h] at hspec
      exact hspec.imp_left .inl
    · cases h
      exact ⟨.inr ⟨_, rfl⟩, rfl⟩

theorem publish_block_spec {block : Block} (h : publish_block w p block = some (r, q)) :
    Published r ∧ q.calls = p.calls := by
  unfold publish_block at h
  split at h
  · split at h
    · cases h
      exact ⟨.inl rfl, rfl⟩
    · exact handle_block_spec h
  · cases h
    exact ⟨.inl rfl, rfl⟩

theorem publish_all_spec : ∀ {blocks : List Block} {x y : Response × Peer}, Published x.1 →
    blocks.foldlM (fun (r : Response × Peer) block => publish_block w r.2 block) x = some y →
    Published y.1 ∧ y.2.calls = x.2.calls
  | [], x, y, hx, h => by
    cases h
    exact ⟨hx, rfl⟩
  | block :: blocks, x, y, _, h => by
    obtain ⟨z, hz, h⟩ := Option.bind_eq_some_iff.1 h
    obtain ⟨hpub, hcalls⟩ := publish_block_spec hz
    obtain ⟨hpub', hcalls'⟩ := publish_all_spec hpub h
    exact ⟨hpub', hcalls'.trans hcalls⟩

theorem publish_blocks_spec {blocks : List Block} (h : publish_blocks w p blocks = some (r, q)) :
    Published r ∧ q.calls = p.calls := by
  obtain ⟨⟨r', q'⟩, hall, h⟩ := Option.map_eq_some_iff.1 h
  have hspec := publish_all_spec (.inl rfl) hall
  dsimp only at h
  split at h
  · cases h
    exact ⟨.inl rfl, hspec.2⟩
  · cases h
    exact hspec

/-- A request is answered, and the queue is left alone. -/
theorem answer_spec (h : answer w p c = some (r, q)) : Fits c r ∧ q.calls = p.calls := by
  cases c with
  | find_node id =>
    cases h
    exact ⟨rfl, rfl⟩
  | find_value id =>
    cases hobj : w.object id with
    | none =>
      simp only [answer, hobj] at h
      cases h
      exact ⟨.inl rfl, rfl⟩
    | some value =>
      simp only [answer, hobj] at h
      cases h
      exact ⟨.inr ⟨_, rfl⟩, rfl⟩
  | store key value =>
    cases h
    exact ⟨rfl, rfl⟩
  | ping =>
    cases h
    exact ⟨rfl, rfl⟩
  | pong =>
    cases h
    exact ⟨rfl, rfl⟩
  | transaction tx =>
    cases h
    refine ⟨?_, rfl⟩
    by_cases hvalid : w.valid_transaction tx
    · rw [if_pos hvalid]
      exact .inl rfl
    · rw [if_neg hvalid]
      exact .inr rfl
  | block block => exact publish_block_spec h
  | blocks blocks => exact publish_blocks_spec h

/-- The entry is replied to, after casts. -/
def Replied (p : Peer) (r : Response) (entry : Entry) (q : Peer) (out : List Out) : Prop :=
  p.calls = entry :: q.calls ∧ ∃ casts : List Call, out = casts.map Out.cast ++
    [.reply entry (reply_of r)]

/-- The entry is moved to the end of the queue, with a request for it. -/
def Retopped (p : Peer) (r : Response) (entry : Entry) (q : Peer) (out : List Out) : Prop :=
  ∃ calls blocks h, p.calls = entry :: calls ∧ q.calls = calls ++ [entry] ∧
    out = [.call (.blocks blocks) entry] ∧
    r = ⟨.publish, [.missing_parent, .bytes h]⟩

theorem respond_spec {msg : Reply} {out : List Out} (h : respond p msg = some (q, out)) :
    ∃ entry, p.calls = entry :: q.calls ∧ out = [.reply entry msg] := by
  unfold respond at h
  split at h
  · cases h
  · rename_i entry calls hcalls
    cases h
    exact ⟨entry, hcalls, rfl⟩

/-- A response is for the first entry. -/
theorem handle_response_spec {out : List Out} (h : handle_response w p r = some (q, out)) :
    ∃ entry, Replied p r entry q out ∨ Retopped p r entry q out := by
  unfold handle_response at h
  split at h
  · rename_i parent_hash
    split at h
    · obtain ⟨entry, hcalls, rfl⟩ := respond_spec h
      exact ⟨entry, .inl ⟨hcalls, [], rfl⟩⟩
    · split at h
      · cases h
      · rename_i entry calls hcalls
        cases h
        exact ⟨entry, .inr ⟨calls, _, parent_hash, hcalls, rfl, rfl, rfl⟩⟩
  · obtain ⟨entry, hcalls, rfl⟩ := respond_spec h
    exact ⟨entry, .inl ⟨hcalls, [], rfl⟩⟩
  · obtain ⟨⟨q', out'⟩, hrespond, h⟩ := Option.map_eq_some_iff.1 h
    obtain ⟨entry, hcalls, rfl⟩ := respond_spec hrespond
    cases h
    refine ⟨entry, .inl ⟨hcalls, if some w.peak.hash ≠ p.last_publish then [.block w.peak] else [], ?_⟩⟩
    unfold publish_peak
    split
    · rfl
    · rfl
  · rename_i cmd rest h₁ h₂ h₃
    obtain ⟨entry, hcalls, rfl⟩ := respond_spec h
    refine ⟨entry, .inl ⟨hcalls, [], ?_⟩⟩
    have hreply : reply_of ⟨cmd, rest⟩ = .rest rest := by
      unfold reply_of
      split
      · rename_i heq
        obtain ⟨hcmd, hrest⟩ := Response.mk.inj heq
        exact (h₁ _ hcmd hrest).elim
      · rename_i heq
        obtain ⟨hcmd, hrest⟩ := Response.mk.inj heq
        exact (h₂ _ hcmd hrest).elim
      · rename_i heq
        rw [(Response.mk.inj heq).2]
    rw [hreply]
    rfl

/-! ## One direction -/

def Msg.call? : Msg → Option Call
  | .call c => some c
  | _ => none

def Msg.response? : Msg → Option Response
  | .response r => some r
  | _ => none

/-- The requests this side sent, with the responses it took, then those with their
responses on the way, then those on the way. -/
structure Dir (mine theirs : Side) (past flight : List (Ticket × Response))
    (waiting : List Ticket) : Prop where
  sent : mine.sent = (past ++ flight).map Prod.fst ++ waiting
  served : theirs.served = (past ++ flight).map fun x => (x.1.msg, x.2)
  got : mine.got = past.map fun x => (x.1.entry, x.2)
  requests : theirs.inbox.filterMap Msg.call? = waiting.map Ticket.msg
  responses : mine.inbox.filterMap Msg.response? = flight.map Prod.snd
  queue : mine.peer.calls = flight.map (fun x => x.1.entry) ++ waiting.map Ticket.entry
  own : ∀ t ∈ mine.sent, t.msg = t.entry.1 ∨ t.entry.1.publishes = true ∧
    ∃ blocks, t.msg = .blocks blocks
  fits : ∀ x ∈ theirs.served, Fits x.1 x.2

/-- What was asked of a handler is in the queue or replied to, and no caller asks twice. -/
structure Ledger (next : From) (m : Side) : Prop where
  kept : m.asked.Perm (m.peer.calls ++ m.replies.map Prod.fst)
  fresh : (m.asked.filterMap Prod.snd).Nodup
  below : ∀ f ∈ m.asked.filterMap Prod.snd, f < next
  replied : ∀ x ∈ m.replies, ∃ r, (x.1, r) ∈ m.got ∧ x.2 = reply_of r

structure Inv (s : Link) : Prop where
  out : ∃ past flight waiting, Dir s.mine s.theirs past flight waiting
  back : ∃ past flight waiting, Dir s.theirs s.mine past flight waiting
  mine : Ledger s.next s.mine
  theirs : Ledger s.next s.theirs

variable {s : Link} {m n : Side} {past flight : List (Ticket × Response)} {waiting : List Ticket}

theorem Inv.swap (h : Inv s) : Inv s.swap := ⟨h.back, h.out, h.theirs, h.mine⟩

/-- What the invariant is about. -/
def Side.view (m : Side) : List Entry × List Call × List Response × List Entry × List Ticket × List
    (Call × Response) ×
    List (Entry × Response) × List (Entry × Reply) :=
  (m.peer.calls, m.inbox.filterMap Msg.call?, m.inbox.filterMap Msg.response?, m.asked, m.sent,
    m.served, m.got, m.replies)

theorem Dir.frame {m' n' : Side} (h : Dir m n past flight waiting) (hm : m'.view = m.view)
    (hn : n'.view = n.view) :
    Dir m' n' past flight waiting := by
  simp only [Side.view, Prod.mk.injEq] at hm hn
  obtain ⟨hcalls, -, hresponses, -, hsent, -, hgot, -⟩ := hm
  obtain ⟨-, hrequests, -, -, -, hserved, -, -⟩ := hn
  exact ⟨hsent.trans h.sent, hserved.trans h.served, hgot.trans h.got, hrequests.trans h.requests,
    hresponses.trans h.responses, hcalls.trans h.queue, hsent ▸ h.own, hserved ▸ h.fits⟩

theorem Ledger.mono {k k' : From} (h : Ledger k m) (hk : k ≤ k') : Ledger k' m :=
  ⟨h.kept, h.fresh, fun f hf => Nat.lt_of_lt_of_le (h.below f hf) hk, h.replied⟩

theorem Ledger.frame {k : From} {m' : Side} (h : Ledger k m) (hm : m'.view = m.view) : Ledger k m' := by
  simp only [Side.view, Prod.mk.injEq] at hm
  obtain ⟨hcalls, -, -, hasked, -, -, hgot, hreplies⟩ := hm
  refine ⟨?_, hasked ▸ h.fresh, hasked ▸ h.below, ?_⟩
  · rw [hasked, hcalls, hreplies]
    exact h.kept
  · rw [hgot, hreplies]
    exact h.replied

theorem Inv.frame (h : Inv s) (hm : m.view = s.mine.view) : Inv { s with mine := m } := by
  obtain ⟨⟨past, flight, waiting, hout⟩, ⟨past', flight', waiting', hback⟩, hmine, htheirs⟩ := h
  exact ⟨⟨past, flight, waiting, hout.frame hm rfl⟩, ⟨past', flight', waiting', hback.frame rfl hm⟩,
    hmine.frame hm, htheirs⟩

/-! ## Steps -/

/-- A call is put into the queue and sent. -/
theorem Inv.rpc {sender : Option From} {k : From} (h : Inv s)
    (hq : q.calls = s.mine.peer.calls ++ [(c, sender)])
    (hk : s.next ≤ k) (hsender : ∀ f ∈ sender, s.next ≤ f ∧ f < k) :
    Inv (emit { s with mine := { s.mine with peer := q, asked := s.mine.asked ++ [(c, sender)] }, next := k }
      (.call c (c, sender))) := by
  obtain ⟨⟨past, flight, waiting, hout⟩, ⟨past', flight', waiting', hback⟩, hmine, htheirs⟩ := h
  refine ⟨⟨past, flight, waiting ++ [⟨c, c, sender⟩], ?_⟩, ⟨past', flight', waiting', ?_⟩, ?_, ?_⟩
  · refine ⟨?_, hout.served, hout.got, ?_, hout.responses, ?_, fun t ht => ?_, hout.fits⟩
    · simp [emit, hout.sent]
    · simp [emit, hout.requests, Msg.call?]
    · simp [emit, hq, hout.queue]
    · rcases List.mem_append.1 ht with ht | ht
      · exact hout.own t ht
      · rw [List.mem_singleton.1 ht]
        exact .inl rfl
  · refine ⟨hback.sent, hback.served, hback.got, hback.requests, ?_, hback.queue, hback.own, hback.fits⟩
    simp [emit, hback.responses, Msg.response?]
  · have hasked : (s.mine.asked ++ [(c, sender)]).filterMap Prod.snd = s.mine.asked.filterMap
      Prod.snd ++ sender.toList := by
      cases sender <;> simp
    refine ⟨?_, ?_, ?_, hmine.replied⟩
    · change (s.mine.asked ++ [(c, sender)]).Perm (q.calls ++ s.mine.replies.map Prod.fst)
      rw [hq, List.append_assoc]
      refine (hmine.kept.append_right _).trans ?_
      rw [List.append_assoc]
      exact List.perm_append_comm.append_left _
    · change ((s.mine.asked ++ [(c, sender)]).filterMap Prod.snd).Nodup
      rw [hasked, List.nodup_append]
      refine ⟨hmine.fresh, by cases sender <;> simp, fun a ha b hb => ?_⟩
      exact Nat.ne_of_lt (Nat.lt_of_lt_of_le (hmine.below a ha) (hsender b (Option.mem_toList.1 hb)).1)
    · change ∀ f ∈ (s.mine.asked ++ [(c, sender)]).filterMap Prod.snd, f < k
      rw [hasked]
      intro f hf
      rcases List.mem_append.1 hf with hf | hf
      · exact Nat.lt_of_lt_of_le (hmine.below f hf) hk
      · exact (hsender f (Option.mem_toList.1 hf)).2
  · have hnext := htheirs.mono hk
    exact ⟨hnext.kept, hnext.fresh, hnext.below, hnext.replied⟩

/-- The first request on the way is answered. -/
theorem Inv.serve {inbox : List Msg} (h : Inv s) (hin : s.mine.inbox = .call c :: inbox)
    (hfits : Fits c r)
    (hq : q.calls = s.mine.peer.calls) :
    Inv (emit { s with mine := { s.mine with served := s.mine.served ++ [(c, r)], peer := q, inbox, greeted := true } }
      (.response r)) := by
  obtain ⟨⟨past, flight, waiting, hout⟩, ⟨past', flight', waiting', hback⟩, hmine, htheirs⟩ := h
  have hcalls : c :: inbox.filterMap Msg.call? = waiting'.map Ticket.msg := by
    have := hback.requests
    rwa [hin] at this
  have hresponses : inbox.filterMap Msg.response? = flight.map Prod.snd := by
    have := hout.responses
    rwa [hin] at this
  cases waiting' with
  | nil => cases hcalls
  | cons t waiting' =>
    obtain ⟨ht, hrest⟩ := List.cons.inj hcalls
    refine ⟨⟨past, flight, waiting, ?_⟩, ⟨past', flight' ++ [(t, r)], waiting', ?_⟩, ?_,
      htheirs.kept, htheirs.fresh, htheirs.below, htheirs.replied⟩
    · refine ⟨hout.sent, hout.served, hout.got, ?_, hresponses, hq.trans hout.queue,
        hout.own, hout.fits⟩
      simp [emit, hout.requests, Msg.call?]
    · refine ⟨?_, ?_, hback.got, hrest, ?_, ?_, hback.own, fun x hx => ?_⟩
      · simp [emit, hback.sent]
      · simp [emit, hback.served, ht]
      · simp [emit, hback.responses, Msg.response?]
      · simp [emit, hback.queue]
      · rcases List.mem_append.1 hx with hx | hx
        · exact hback.fits x hx
        · rw [List.mem_singleton.1 hx]
          exact hfits
    · refine ⟨?_, hmine.fresh, hmine.below, hmine.replied⟩
      change s.mine.asked.Perm (q.calls ++ _)
      rw [hq]
      exact hmine.kept

/-- The first response on the way is for the first entry of the queue. -/
theorem Dir.first {entry : Entry} {calls : List Entry} {inbox : List Msg}
    (h : Dir m n past flight waiting)
    (hin : m.inbox = .response r :: inbox) (hqueue : m.peer.calls = entry :: calls) :
    ∃ t flight', flight = (t, r) :: flight' ∧ t.entry = entry ∧ inbox.filterMap Msg.response? =
      flight'.map Prod.snd ∧
      calls = flight'.map (fun x => x.1.entry) ++ waiting.map Ticket.entry := by
  have hresponses : r :: inbox.filterMap Msg.response? = flight.map Prod.snd := by
    have := h.responses
    rwa [hin] at this
  cases flight with
  | nil => cases hresponses
  | cons x flight' =>
    obtain ⟨hr, hrest⟩ := List.cons.inj hresponses
    obtain ⟨hentry, hcalls⟩ := List.cons.inj (hqueue.symm.trans h.queue)
    exact ⟨x.1, flight', by rw [hr], hentry.symm, hrest, hcalls⟩

/-- An entry leaves the queue with its reply. -/
theorem Inv.reply {entry : Entry} {inbox : List Msg} (h : Inv s)
    (hin : s.mine.inbox = .response r :: inbox)
    (hqueue : s.mine.peer.calls = entry :: q.calls) :
    Inv (emit { s with mine := { s.mine with got := s.mine.got ++ [(entry, r)], peer := q, inbox, greeted := true } }
      (.reply entry (reply_of r))) := by
  obtain ⟨⟨past, flight, waiting, hout⟩, ⟨past', flight', waiting', hback⟩, hmine, htheirs⟩ := h
  obtain ⟨t, flight, rfl, hentry, hresponses, hcalls⟩ := hout.first hin hqueue
  have hrequests : inbox.filterMap Msg.call? = waiting'.map Ticket.msg := by
    have := hback.requests
    rwa [hin] at this
  refine ⟨⟨past ++ [(t, r)], flight, waiting, ?_⟩, ⟨past', flight', waiting', ?_⟩, ?_, htheirs⟩
  · refine ⟨?_, ?_, ?_, hout.requests, hresponses, hcalls, hout.own, hout.fits⟩
    · simp [emit, hout.sent]
    · simp [emit, hout.served]
    · simp [emit, hout.got, hentry]
  · exact ⟨hback.sent, hback.served, hback.got, hrequests, hback.responses, hback.queue,
      hback.own, hback.fits⟩
  · refine ⟨?_, hmine.fresh, hmine.below, fun x hx => ?_⟩
    · have hkept := hmine.kept
      rw [hqueue] at hkept
      change s.mine.asked.Perm (q.calls ++ (s.mine.replies ++ [(entry, reply_of r)]).map Prod.fst)
      rw [List.map_append, ← List.append_assoc]
      exact hkept.trans (List.perm_append_singleton entry _).symm
    · rcases List.mem_append.1 hx with hx | hx
      · obtain ⟨r', hgot, hr'⟩ := hmine.replied x hx
        exact ⟨r', List.mem_append_left _ hgot, hr'⟩
      · obtain rfl := List.mem_singleton.1 hx
        exact ⟨r, List.mem_append_right _ List.mem_cons_self, rfl⟩

/-- An entry goes to the end of the queue, and a request for it is sent. -/
theorem Inv.retop {entry : Entry} {calls : List Entry} {blocks : List Block} {hash : Bytes}
    {inbox : List Msg} (h : Inv s)
    (hin : s.mine.inbox = .response r :: inbox) (hqueue : s.mine.peer.calls = entry :: calls)
    (hq : q.calls = calls ++ [entry]) (hr : r = ⟨.publish, [.missing_parent, .bytes hash]⟩) :
    Inv (emit { s with mine := { s.mine with got := s.mine.got ++ [(entry, r)], peer := q, inbox, greeted := true } }
      (.call (.blocks blocks) entry)) := by
  obtain ⟨⟨past, flight, waiting, hout⟩, ⟨past', flight', waiting', hback⟩, hmine, htheirs⟩ := h
  obtain ⟨t, flight, rfl, hentry, hresponses, hcalls⟩ := hout.first hin hqueue
  have hrequests : inbox.filterMap Msg.call? = waiting'.map Ticket.msg := by
    have := hback.requests
    rwa [hin] at this
  -- only a publication is answered so
  have hpublishes : entry.1.publishes = true := by
    have hfits := hout.fits (t.msg, r) (by simp [hout.served])
    have hown := hout.own t (by simp [hout.sent])
    rw [hentry] at hown
    rcases hown with hmsg | ⟨hpub, -⟩
    · rw [hmsg, hr] at hfits
      cases hc : entry.1 <;> rw [hc] at hfits <;> simp_all [Fits, Call.publishes, ok]
    · exact hpub
  refine ⟨⟨past ++ [(t, r)], flight, waiting ++ [⟨.blocks blocks, entry⟩], ?_⟩,
    ⟨past', flight', waiting', ?_⟩, ?_, ?_⟩
  · refine ⟨?_, ?_, ?_, ?_, hresponses, ?_, fun x hx => ?_, hout.fits⟩
    · simp [emit, hout.sent]
    · simp [emit, hout.served]
    · simp [emit, hout.got, hentry]
    · simp [emit, hout.requests, Msg.call?]
    · simp [emit, hq, hcalls]
    · rcases List.mem_append.1 hx with hx | hx
      · exact hout.own x hx
      · rw [List.mem_singleton.1 hx]
        exact .inr ⟨hpublishes, blocks, rfl⟩
  · refine ⟨hback.sent, hback.served, hback.got, hrequests, ?_, hback.queue, hback.own, hback.fits⟩
    simp [emit, hback.responses, Msg.response?]
  · refine ⟨?_, hmine.fresh, hmine.below, fun x hx => ?_⟩
    · have hkept := hmine.kept
      rw [hqueue] at hkept
      change s.mine.asked.Perm (q.calls ++ s.mine.replies.map Prod.fst)
      rw [hq]
      exact hkept.trans ((List.perm_append_singleton entry calls).symm.append_right _)
    · obtain ⟨r', hgot, hr'⟩ := hmine.replied x hx
      exact ⟨r', List.mem_append_left _ hgot, hr'⟩
  · exact ⟨htheirs.kept, htheirs.fresh, htheirs.below, htheirs.replied⟩

theorem emit_casts : ∀ (casts : List Call) (s : Link),
    (casts.map Out.cast).foldl emit s = { s with mine :=
      { s.mine with casts := s.mine.casts ++ casts } }
  | [], s => by simp
  | c :: casts, s => by
    rw [List.map_cons, List.foldl_cons, emit_casts casts]
    simp [emit]

theorem publish_peak_eq (w : World) (p : Peer) : ∃ casts :
    List Call, publish_peak w p = casts.map Out.cast := by
  unfold publish_peak
  split
  · exact ⟨[.block w.peak], rfl⟩
  · exact ⟨[], rfl⟩

/-- A hello changes nothing that the invariant is about. -/
theorem handle_hello_spec {server genesis_hash : Bytes} {out : List Out}
    (h : handle_hello w p server genesis_hash = some (q, out)) : q.calls = p.calls ∧
      out = publish_peak w p := by
  by_cases hgenesis : w.genesis_hash ≠ genesis_hash
  · rw [handle_hello, if_pos hgenesis] at h
    cases h
  · rw [handle_hello, if_neg hgenesis] at h
    cases hport : p.peer_port with
    | some port =>
      simp only [hport] at h
      cases h
      exact ⟨rfl, rfl⟩
    | none =>
      simp only [hport] at h
      obtain ⟨port, -, h⟩ := Option.map_eq_some_iff.1 h
      cases h
      exact ⟨rfl, rfl⟩

theorem Inv.halt (h : Inv s) : Inv (halt s) := h.frame rfl

theorem Inv.handle_info {msg : Msg} {inbox : List Msg} (h : Inv s) (hin : s.mine.inbox = msg :: inbox) :
    Inv (handle_info w s msg inbox) := by
  unfold PeerHandler.handle_info
  cases hmsg : handle_msg w s.mine.peer msg with
  | none => exact h.halt
  | some x =>
    obtain ⟨q, out⟩ := x
    cases msg with
    | hello server genesis_hash =>
      obtain ⟨hcalls, rfl⟩ := handle_hello_spec hmsg
      obtain ⟨casts, hcasts⟩ := publish_peak_eq w s.mine.peer
      dsimp only
      rw [hcasts, emit_casts]
      refine h.frame ?_
      simp [Side.view, record, hcalls, hin, Msg.call?, Msg.response?, List.filterMap_cons]
    | call c =>
      obtain ⟨⟨r, q'⟩, hanswer, hout⟩ := Option.map_eq_some_iff.1 hmsg
      obtain ⟨hfits, hcalls⟩ := answer_spec hanswer
      cases hout
      exact h.serve hin hfits hcalls
    | response r =>
      obtain ⟨entry, ⟨hqueue, casts, rfl⟩ | ⟨calls, blocks, hash, hqueue, hq, rfl, hr⟩⟩ :=
        handle_response_spec hmsg
      · have hcast : Inv { s with mine := { s.mine with casts := s.mine.casts ++ casts } } := h.frame rfl
        have hreply := hcast.reply hin hqueue
        dsimp only
        rw [List.foldl_append, emit_casts]
        simpa [record, hqueue] using hreply
      · simpa [record, hqueue] using h.retop hin hqueue hq hr

theorem Inv.ssl (h : Inv s) : Inv (ssl w s) := by
  unfold PeerHandler.ssl
  split
  · exact h
  · rename_i msg inbox hin
    split
    · exact h.halt
    · exact h.handle_info hin

/-- A cast is skipped, or put into the queue and sent. -/
theorem handle_cast_spec (p : Peer) (c : Call) :
    (handle_cast p c = (p, [])) ∨
      ∃ q : Peer, q.calls = p.calls ++ [(c, none)] ∧ handle_cast p c = (q, [.call c (c, none)]) := by
  unfold handle_cast
  split
  · split
    · exact .inr ⟨_, rfl, rfl⟩
    · exact .inl rfl
  · exact .inr ⟨_, rfl, rfl⟩

theorem Inv.cast (h : Inv s) (c : Call) : Inv (cast s c) := by
  unfold PeerHandler.cast
  rcases handle_cast_spec s.mine.peer c with hskip | ⟨q, hq, hcast⟩
  · rw [hskip]
    exact h.frame (by simp [Side.view])
  · rw [hcast]
    exact h.rpc hq (Nat.le_refl _) nofun

theorem sync_done_spec {ret : Option Nat} (h : sync_done w p ret = some q) : q.calls = p.calls := by
  unfold sync_done at h
  dsimp only at h
  split at h
  · split at h
    · cases h
      rfl
    · split at h
      · rename_i hblock
        have hspec := (handle_block_spec hblock).2
        split at h
        · cases h
          exact hspec
        · cases h
      · cases h
  · cases h
    rfl

theorem Inv.act (h : Inv s) (e : Event) : Inv (act w s e) := by
  unfold PeerHandler.act
  split
  · exact h
  · cases e with
    | stop => exact h.halt
    | ssl => exact h.ssl
    | call c =>
      dsimp only
      split
      · exact h
      · exact h.rpc rfl (Nat.le_succ _) fun f hf =>
          Option.some.inj hf ▸ ⟨Nat.le_refl _, Nat.lt_succ_self _⟩
    | cast c =>
      dsimp only
      split
      · exact h
      · exact h.cast c
    | self_cast =>
      dsimp only
      split
      · exact h
      · cases s.mine.casts with
        | nil => exact h
        | cons c casts =>
          have hframe : Inv { s with mine := { s.mine with casts } } := h.frame rfl
          exact hframe.cast c
    | sync_done ret =>
      dsimp only
      split
      · exact h
      · cases hsync : sync_done w s.mine.peer ret with
        | none => exact h.halt
        | some q =>
          refine h.frame ?_
          simp [Side.view, sync_done_spec hsync]

theorem Inv.step (h : Inv s) (e : World × Bool × Event) : Inv (step s e) := by
  unfold PeerHandler.step
  split
  · exact h.act e.2.2
  · exact (h.swap.act e.2.2).swap

theorem Inv.start (server₁ server₂ genesis_hash₁ genesis_hash₂ : Bytes) :
    Inv (start server₁ server₂ genesis_hash₁ genesis_hash₂) where
  out := ⟨[], [], [], rfl, rfl, rfl, rfl, rfl, rfl, nofun, nofun⟩
  back := ⟨[], [], [], rfl, rfl, rfl, rfl, rfl, rfl, nofun, nofun⟩
  mine := ⟨.refl _, .nil, nofun, nofun⟩
  theirs := ⟨.refl _, .nil, nofun, nofun⟩

theorem Inv.run (h : Inv s) (es : List (World × Bool × Event)) : Inv (run s es) := by
  induction es generalizing s with
  | nil => exact h
  | cons e es ih => exact ih (h.step e)

/-! ## Matching -/

/-- What holds of the responses to one side. -/
structure Matched (mine theirs : Side) : Prop where
  /-- The nth response is the answer to the nth request, which was sent for the entry
  it is taken for: the call itself, or parents of blocks that the call published. -/
  nth : ∀ (n : Nat) (entry : Entry) (r : Response), mine.got[n]? = some (entry, r) →
    ∃ msg, mine.sent[n]? = some ⟨msg, entry⟩ ∧ theirs.served[n]? = some (msg, r) ∧ Fits msg r ∧
      (msg = entry.1 ∨ entry.1.publishes = true ∧ ∃ blocks, msg = .blocks blocks)
  /-- A reply is what a response says that was taken for the entry. -/
  replied : ∀ x ∈ mine.replies, ∃ r, (x.1, r) ∈ mine.got ∧ x.2 = reply_of r
  /-- No caller is replied to twice. -/
  once : (mine.replies.filterMap fun x => x.1.2).Nodup
  /-- Every call is in the queue, or has left it with its reply. -/
  kept : mine.asked.Perm (mine.peer.calls ++ mine.replies.map Prod.fst)
  /-- A response finds an entry. -/
  nonempty : ∀ r, .response r ∈ mine.inbox → mine.peer.calls ≠ []

theorem getElem?_append_some {α : Type} {l : List α} {k : Nat} {x : α}
    (h : l[k]? = some x) (l' : List α) :
    (l ++ l')[k]? = some x := by
  rw [List.getElem?_append_left (List.getElem?_eq_some_iff.1 h).1, h]

theorem Dir.nth {k : Nat} {entry : Entry} (h : Dir m n past flight waiting)
    (hgot : m.got[k]? = some (entry, r)) :
    ∃ msg, m.sent[k]? = some ⟨msg, entry⟩ ∧ n.served[k]? = some (msg, r) ∧ Fits msg r ∧
      (msg = entry.1 ∨ entry.1.publishes = true ∧ ∃ blocks, msg = .blocks blocks) := by
  rw [h.got, List.getElem?_map] at hgot
  obtain ⟨⟨t, r'⟩, hpast, heq⟩ := Option.map_eq_some_iff.1 hgot
  obtain ⟨rfl, rfl⟩ := Prod.mk.inj heq
  have hall : (past ++ flight)[k]? = some (t, r') := getElem?_append_some hpast _
  have hsent : m.sent[k]? = some t := by
    rw [h.sent]
    exact getElem?_append_some (by rw [List.getElem?_map, hall]; rfl) _
  have hserved : n.served[k]? = some (t.msg, r') := by
    rw [h.served, List.getElem?_map, hall]
    rfl
  exact ⟨t.msg, hsent, hserved, h.fits _ (List.mem_of_getElem? hserved), h.own t
    (List.mem_of_getElem? hsent)⟩

theorem Dir.nonempty (h : Dir m n past flight waiting) (hr : .response r ∈ m.inbox) :
    m.peer.calls ≠ [] := by
  have hmem : r ∈ flight.map Prod.snd := by
    rw [← h.responses]
    exact List.mem_filterMap.2 ⟨_, hr, rfl⟩
  obtain ⟨x, hx, -⟩ := List.mem_map.1 hmem
  rw [h.queue]
  intro hnil
  rw [List.append_eq_nil_iff, List.map_eq_nil_iff] at hnil
  exact List.not_mem_nil (hnil.1 ▸ hx)

theorem Ledger.once {k : From} (h : Ledger k m) : (m.replies.filterMap fun x => x.1.2).Nodup := by
  have hperm := (h.kept.filterMap Prod.snd).nodup_iff.1 h.fresh
  rw [List.filterMap_append, List.filterMap_map] at hperm
  exact (List.nodup_append.1 hperm).2.1

theorem Inv.matched (h : Inv s) : Matched s.mine s.theirs := by
  obtain ⟨past, flight, waiting, hdir⟩ := h.out
  exact ⟨fun _ _ _ => hdir.nth, h.mine.replied, h.mine.once, h.mine.kept, fun _ => hdir.nonempty⟩

/-- Whatever the two nodes are and do, and in whatever order, the responses of each
side are matched to the calls of the other. -/
theorem responses_matched (server₁ server₂ genesis_hash₁ genesis_hash₂ : Bytes)
    (es : List (World × Bool × Event)) :
    let s := run (start server₁ server₂ genesis_hash₁ genesis_hash₂) es
    Matched s.mine s.theirs ∧ Matched s.theirs s.mine := by
  have h := (Inv.start server₁ server₂ genesis_hash₁ genesis_hash₂).run es
  exact ⟨h.matched, h.swap.matched⟩

end Diode.L6.PeerHandler
