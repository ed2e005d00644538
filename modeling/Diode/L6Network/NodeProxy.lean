import Mathlib.Data.List.Dedup
import Mathlib.Data.String.Basic
import Diode.Core.SMap
import Diode.L6Network.RpcRequests

/-!
# The proxy to the nodes

Calls are sent to a connection under a fresh id and stay outstanding until a
response with the id comes, or the connection is lost. Everything the proxy
keeps about calls is right in every state of every run (`Inv.step`), so what can
go wrong is that the server raises: an unsubscription of a process that is not
subscribed hands `nil` to `Process.demonitor`, the line that logs a slow response
decodes its parameters, and a block is announced to a cache that may not run.

* `answers_iff`: a run goes on and answers every request at most once, to the
  right caller, exactly if no event is such a one.
-/
namespace Diode.L6.Proxy
open Diode.Core Diode.L1 Diode.L6.Rpc

/-- A process: the connections are numbered as they are started. -/
inductive Pid where
  | conn (n : Nat)
  | client (n : Nat)
  deriving DecidableEq

/-- The entry of `requests`. The caller is numbered by its call. -/
structure Request where
  caller : Nat
  method : String
  params : List Param
  start_ms : Int
  conn : Nat

/-- A response is the message of the node, with its id. -/
inductive Reply where
  | response (id : Nat) (body : Nat)
  | disconnect

/-- `{:send_request, request}` as cast to a connection, for a caller. -/
structure Sent where
  conn : Nat
  id : Nat
  method : String
  params : List Param
  caller : Nat

/-- The server with what it has sent, and which connections it was told are lost. -/
structure NodeProxy where
  connections : List (String × Nat)
  req : Nat
  requests : SMap Nat Request
  lastblocks : SMap String Nat
  subscriptions : List Nat
  now : Int
  started : Nat
  sent : List Sent
  replies : List (Nat × Reply)
  blocks : List (Option Nat × Nat)
  lost : List Nat

def security_level : Nat := 1

def NodeProxy.new : NodeProxy := ⟨[], 100, .empty, .empty, [], 0, 0, [], [], [], []⟩

/-- `urls` are the endpoints of the chain, `pick` is the throw of the dice. One
connection is enough, so the recursion ends with it. `none` when there is no
endpoint.
mirrors lib/remote_chain/node_proxy.ex:179-194 -/
def ensure_connections (urls : List String) (s : NodeProxy) (pick : Nat) : Option NodeProxy :=
  if s.connections.length < security_level then do
    let new_urls := urls.dedup.filter fun url => url ∉ s.connections.map Prod.fst
    let new_url ← new_urls[pick % new_urls.length]?
    some { s with connections := s.connections ++ [(new_url, s.started)], started := s.started + 1 }
  else some s

/-- The call of the next caller; `encodes` tells what `Poison.encode!` can do. mirrors lib/remote_chain/node_proxy.ex:46-76 -/
def rpc (encodes : String → List Param → Bool) (urls : List String) (s : NodeProxy)
    (method : String) (params : List Param)
    (pick : Nat) : Option NodeProxy := do
  let s ← ensure_connections urls s pick
  let (_, conn) ← s.connections[pick % s.connections.length]?
  let id := s.req + 1
  let caller := s.sent.length
  guard (encodes method params)
  some { s with req := id
                requests := s.requests.put id ⟨caller, method, params, s.now, conn⟩
                sent := s.sent ++ [⟨conn, id, method, params, caller⟩] }

/-- mirrors lib/remote_chain/node_proxy.ex:83-90 -/
def subscribe_block (s : NodeProxy) (pid : Nat) : NodeProxy :=
  if pid ∈ s.subscriptions then s else { s with subscriptions := s.subscriptions ++ [pid] }

/-- `none` where `Process.demonitor` gets `nil`. mirrors lib/remote_chain/node_proxy.ex:92-95 -/
def unsubscribe_block (s : NodeProxy) (pid : Nat) : Option NodeProxy :=
  if pid ∈ s.subscriptions then some { s with subscriptions := s.subscriptions.erase pid } else none

/-- A block goes to the cache, `none` among the receivers, and to the
subscribers; `none` when no cache is registered.
mirrors lib/remote_chain/node_proxy.ex:97-118 -/
def new_block (s : NodeProxy) (ws_url : String) (block_number : Nat) (cached : Bool) :
    Option NodeProxy :=
  let lastblocks := s.lastblocks.put ws_url block_number
  if security_level ≤ lastblocks.entries.countP fun e => e.2 = block_number then
    if cached then
      some { s with lastblocks, blocks := s.blocks ++ (none :: s.subscriptions.map some).map fun pid => (pid, block_number) }
    else none
  else some { s with lastblocks }

/-- A client that is not subscribed is taken for a connection.
mirrors lib/remote_chain/node_proxy.ex:120-152 -/
def down (s : NodeProxy) : Pid → NodeProxy
  | .client n => if n ∈ s.subscriptions then { s with subscriptions := s.subscriptions.erase n } else s
  | .conn n =>
    { s with replies := s.replies ++ (s.requests.entries.filter fun e => e.2.conn = n).map fun e =>
      (e.2.caller, .disconnect)
             requests := s.requests.filter fun r => r.conn ≠ n
             connections := s.connections.filter fun e => e.2 ≠ n
             lost := s.lost ++ [n] }

/-- The parameters as the log shows them. -/
def readable (params : List Param) : Bool :=
  match params with
  | .binary hex :: _ => ((Base16.decode hex).bind Rlp.decode).isSome
  | _ => false

/-- The response is slow, and its log line raises. -/
def Unloggable (s : NodeProxy) (r : Request) : Prop :=
  200 < s.now - r.start_ms ∧ r.method = "dio_edgev2" ∧ readable r.params = false

instance (s : NodeProxy) (r : Request) : Decidable (Unloggable s r) := by
  unfold Unloggable; infer_instance

/-- A response with a number for its id, or another term.
mirrors lib/remote_chain/node_proxy.ex:154-177 -/
def response (s : NodeProxy) (id : Option Nat) (body : Nat) : Option NodeProxy :=
  match id with
  | none => some s
  | some id =>
    match s.requests.get id with
    | none => some s
    | some r =>
      if Unloggable s r then none
      else some { s with replies := s.replies ++ [(r.caller, .response id body)], requests := s.requests.del id }

inductive Event where
  | rpc (method : String) (params : List Param) (pick : Nat)
  | ensure_connections (pick : Nat)
  | subscribe_block (pid : Nat)
  | unsubscribe_block (pid : Nat)
  | new_block (ws_url : String) (block_number : Nat) (cached : Bool)
  | down (pid : Pid)
  | response (id : Option Nat) (body : Nat)
  | clock (ms : Int)

/-- A connection that was never started does not go down. -/
def step (encodes : String → List Param → Bool) (urls : List String) (s : NodeProxy) : Event →
    Option NodeProxy
  | .rpc method params pick => rpc encodes urls s method params pick
  | .ensure_connections pick => ensure_connections urls s pick
  | .subscribe_block pid => some (subscribe_block s pid)
  | .unsubscribe_block pid => unsubscribe_block s pid
  | .new_block ws_url block_number cached => new_block s ws_url block_number cached
  | .down (.client n) => some (down s (.client n))
  | .down (.conn n) => if n < s.started then some (down s (.conn n)) else some s
  | .response id body => response s id body
  | .clock ms => some { s with now := ms }

/-- `none` as soon as the server has raised. -/
def run (encodes : String → List Param → Bool) (urls : List String) (s : NodeProxy) : List Event →
    Option NodeProxy
  | [] => some s
  | e :: es => (step encodes urls s e).bind fun s => run encodes urls s es

/-- From the start of the server. mirrors lib/remote_chain/node_proxy.ex:29-32 -/
def boot (urls : List String) (pick : Nat) : Option NodeProxy := ensure_connections urls .new pick

/-! ## What is promised -/

/-- What holds of the calls in a state. -/
structure Answering (s : NodeProxy) : Prop where
  unique : (s.sent.map Sent.id).Nodup
  known : ∀ id r, s.requests.get id = some r → ∃ x ∈ s.sent, x.id = id ∧
    x.caller = r.caller ∧ x.conn = r.conn
  right : ∀ c id body, (c, .response id body) ∈ s.replies → ∃ x ∈ s.sent, x.id = id ∧ x.caller = c
  once : (s.replies.map Prod.fst).Nodup
  owed : ∀ x ∈ s.sent, x.caller ∈ s.replies.map Prod.fst ∨ (s.requests.get x.id).isSome
  lost : ∀ id r, s.requests.get id = some r → r.conn ∉ s.lost

/-- The event does not make the server raise. -/
def Fit (encodes : String → List Param → Bool) (s : NodeProxy) : Event → Prop
  | .rpc method params _ => encodes method params = true
  | .unsubscribe_block pid => pid ∈ s.subscriptions
  | .new_block _ _ cached => cached = true
  | .response (some id) _ => ∀ r, s.requests.get id = some r → ¬Unloggable s r
  | _ => True

/-- Every event of the run is fit where it comes. -/
def FitRun (encodes : String → List Param → Bool) (urls : List String) (s : NodeProxy) :
    List Event → Prop
  | [] => True
  | e :: es => Fit encodes s e ∧ ∀ s', step encodes urls s e = some s' → FitRun encodes urls s' es

/-- The server does not raise, and keeps its promise in every state it is in. -/
def Answers (encodes : String → List Param → Bool) (urls : List String) (pick : Nat)
    (es : List Event) : Prop :=
  ∃ s₀ s, boot urls pick = some s₀ ∧ run encodes urls s₀ es = some s ∧
    ∀ before after s', es = before ++ after → run encodes urls s₀ before = some s' → Answering s'

variable {encodes : String → List Param → Bool} {urls : List String} {s s' : NodeProxy} {e : Event}
    {es : List Event}

/-! ## The invariant -/

/-- Call `c` has the id `c + 101`, and is outstanding or replied to. -/
structure Inv (s : NodeProxy) : Prop where
  count : s.req = 100 + s.sent.length
  sent : ∀ i x, s.sent[i]? = some x → x.id = i + 101 ∧ x.caller = i
  mine : ∀ id r, s.requests.get id = some r → id = r.caller + 101 ∧
    ∃ x, s.sent[r.caller]? = some x ∧ x.conn = r.conn
  live : ∀ id r, s.requests.get id = some r → r.conn ∈ s.connections.map Prod.snd
  once : ∀ c, (s.replies.map Prod.fst).count c + (s.requests.get (c + 101)).isSome.toNat =
    (decide (c < s.sent.length)).toNat
  right : ∀ c id body, (c, .response id body) ∈ s.replies → id = c + 101
  conns : ∀ n ∈ s.connections.map Prod.snd, n < s.started
  lost : ∀ n ∈ s.lost, n < s.started ∧ n ∉ s.connections.map Prod.snd

theorem Inv.new : Inv .new where
  count := rfl
  sent := by simp [NodeProxy.new]
  mine := by simp [NodeProxy.new]
  live := by simp [NodeProxy.new]
  once := by simp [NodeProxy.new]
  right := by simp [NodeProxy.new]
  conns := by simp [NodeProxy.new]
  lost := by simp [NodeProxy.new]

theorem Inv.replied (h : Inv s) {c : Nat} {p : Reply} (hc : (c, p) ∈ s.replies) :
    c < s.sent.length ∧ s.requests.get (c + 101) = none := by
  have hpos : 0 < (s.replies.map Prod.fst).count c := List.count_pos_iff.2 (List.mem_map.2 ⟨_, hc, rfl⟩)
  have honce := h.once c
  by_cases hlt : c < s.sent.length
  · refine ⟨hlt, ?_⟩
    cases hg : s.requests.get (c + 101) with
    | none => rfl
    | some r =>
      simp [hg, hlt] at honce
      omega
  · simp [hlt] at honce
    omega

theorem Inv.answering (h : Inv s) : Answering s where
  unique := by
    have hids : s.sent.map Sent.id = (List.range s.sent.length).map fun i => i + 101 := by
      refine List.ext_getElem? fun i => ?_
      rw [List.getElem?_map, List.getElem?_map]
      by_cases hi : i < s.sent.length
      · rw [List.getElem?_eq_getElem hi, List.getElem?_range hi, Option.map_some, Option.map_some,
          (h.sent i _ (List.getElem?_eq_getElem hi)).1]
      · rw [List.getElem?_eq_none (by omega), List.getElem?_eq_none (by simp; omega)]
        rfl
    rw [hids]
    exact List.nodup_range.map fun a b hab => Nat.add_right_cancel hab
  known id r hr := by
    obtain ⟨hid, x, hx, hconn⟩ := h.mine id r hr
    obtain ⟨hxid, hcaller⟩ := h.sent _ x hx
    exact ⟨x, List.mem_of_getElem? hx, by omega, hcaller, hconn⟩
  right c id body hc := by
    have hlt := (h.replied hc).1
    obtain ⟨hxid, hcaller⟩ := h.sent c _ (List.getElem?_eq_getElem hlt)
    exact ⟨s.sent[c], List.getElem_mem hlt, by rw [hxid, h.right c id body hc], hcaller⟩
  once := by
    refine List.nodup_iff_count_le_one.2 fun c => ?_
    have := h.once c
    have hle : (decide (c < s.sent.length)).toNat ≤ 1 := Bool.toNat_le _
    omega
  owed x hx := by
    obtain ⟨i, hi, rfl⟩ := List.mem_iff_getElem.1 hx
    obtain ⟨hxid, hcaller⟩ := h.sent i _ (List.getElem?_eq_getElem hi)
    rw [hxid, hcaller]
    have honce := h.once i
    simp only [hi, decide_true, Bool.toNat_true] at honce
    cases hg : (s.requests.get (i + 101)).isSome with
    | true => exact .inr rfl
    | false =>
      rw [hg] at honce
      exact .inl (List.count_pos_iff.1 (by simp at honce; omega))
  lost id r hr hl := (h.lost _ hl).2 (h.live id r hr)

/-! ## One event -/

theorem Inv.ensure_connections (h : Inv s) {pick : Nat}
    (he : ensure_connections urls s pick = some s') :
    Inv s' ∧ s'.connections ≠ [] ∧ s'.sent = s.sent ∧ s'.requests = s.requests := by
  unfold Proxy.ensure_connections at he
  split at he
  · obtain ⟨url, -, he⟩ := Option.bind_eq_some_iff.1 he
    cases he
    refine ⟨{ h with live := fun id r hr => ?_, conns := fun n hn => ?_, lost := fun n hn => ?_ },
      by simp, rfl, rfl⟩
    · have := h.live id r hr
      simp only [List.map_append, List.mem_append]
      exact .inl this
    · simp only [List.map_append, List.map_cons, List.map_nil, List.mem_append,
        List.mem_singleton] at hn
      rcases hn with hn | rfl
      · exact Nat.lt_succ_of_lt (h.conns n hn)
      · exact Nat.lt_succ_self _
    · obtain ⟨hlt, hnot⟩ := h.lost n hn
      refine ⟨Nat.lt_succ_of_lt hlt, fun hmem => ?_⟩
      simp only [List.map_append, List.map_cons, List.map_nil, List.mem_append,
        List.mem_singleton] at hmem
      rcases hmem with hmem | rfl
      · exact hnot hmem
      · exact Nat.lt_irrefl _ hlt
  · rename_i hge
    cases he
    refine ⟨h, fun hnil => ?_, rfl, rfl⟩
    simp [hnil, security_level] at hge

/-- Nothing outstanding has an id from the next one on. -/
theorem Inv.fresh (h : Inv s) {id : Nat} (hid : s.req < id) : s.requests.get id = none := by
  cases hg : s.requests.get id with
  | none => rfl
  | some r =>
    obtain ⟨hid', x, hx, -⟩ := h.mine id r hg
    obtain ⟨hlt, -⟩ := List.getElem?_eq_some_iff.1 hx
    have := h.count
    omega

theorem Inv.rpc (h : Inv s) {method : String} {params : List Param} {pick : Nat}
    (he : rpc encodes urls s method params pick = some s') : Inv s' := by
  obtain ⟨s₁, h₁, he⟩ := Option.bind_eq_some_iff.1 he
  obtain ⟨⟨url, conn⟩, hconn, he⟩ := Option.bind_eq_some_iff.1 he
  obtain ⟨-, -, he⟩ := Option.bind_eq_some_iff.1 he
  cases he
  obtain ⟨hi, -, -, -⟩ := h.ensure_connections h₁
  have hcount := hi.count
  have hid : s₁.req + 1 = s₁.sent.length + 101 := by omega
  have hlen : (s₁.sent ++ [(⟨conn, s₁.req + 1, method, params, s₁.sent.length⟩ : Sent)]).length =
    s₁.sent.length + 1 := by simp
  refine { hi with count := ?_, sent := fun i x hx => ?_, mine := fun id r hr => ?_, live :=
    fun id r hr => ?_, once := fun c => ?_ }
  · dsimp only
    omega
  · dsimp only at hx
    rw [List.getElem?_append] at hx
    split at hx
    · exact hi.sent i x hx
    · rename_i hge
      obtain ⟨hlt, hx⟩ := List.getElem?_eq_some_iff.1 hx
      simp only [List.length_singleton] at hlt
      have hi' : i = s₁.sent.length := by omega
      subst hi'
      simp only [Nat.sub_self, List.getElem_cons_zero] at hx
      exact hx ▸ ⟨hid, rfl⟩
  · dsimp only at hr ⊢
    rw [SMap.get_put] at hr
    split at hr
    · rename_i heq
      cases hr
      exact ⟨by rw [← heq, hid], ⟨conn, s₁.req + 1, method, params, s₁.sent.length⟩, by simp, rfl⟩
    · obtain ⟨hid', x, hx, hc⟩ := hi.mine id r hr
      obtain ⟨hlt, -⟩ := List.getElem?_eq_some_iff.1 hx
      exact ⟨hid', x, by rw [List.getElem?_append_left hlt]; exact hx, hc⟩
  · dsimp only at hr ⊢
    rw [SMap.get_put] at hr
    split at hr
    · cases hr
      exact List.mem_map.2 ⟨_, List.mem_of_getElem? hconn, rfl⟩
    · exact hi.live id r hr
  · have honce := hi.once c
    dsimp only
    rw [hlen, SMap.get_put, hid]
    by_cases hc : c = s₁.sent.length
    · subst hc
      rw [← hid, hi.fresh (Nat.lt_succ_self _)] at honce
      simp at honce ⊢
      omega
    · have hne : ¬s₁.sent.length + 101 = c + 101 := by omega
      have hlt : c < s₁.sent.length + 1 ↔ c < s₁.sent.length := by omega
      rw [if_neg hne, decide_eq_decide.2 hlt]
      exact honce

/-- The callers of outstanding requests. -/
theorem count_callers {m : SMap Nat Request} (h : ∀ id r, m.get id = some r → id = r.caller + 101) (c : Nat) :
    (m.entries.map fun e => e.2.caller).count c = (m.get (c + 101)).isSome.toNat := by
  have hkeys : m.entries.map Prod.fst = (m.entries.map fun e => e.2.caller).map (· + 101) := by
    rw [List.map_map]
    exact List.map_congr_left fun e he => h e.1 e.2 ((SMap.mem_iff ..).1 he)
  have hnodup : (m.entries.map fun e => e.2.caller).Nodup := by
    have := m.keys_nodup
    rw [hkeys] at this
    exact this.of_map
  rw [hnodup.count]
  cases hg : m.get (c + 101) with
  | none =>
    rw [if_neg]
    · rfl
    · intro hmem
      obtain ⟨e, he, rfl⟩ := List.mem_map.1 hmem
      have hget := (SMap.mem_iff m e.1 e.2).1 he
      rw [← h e.1 e.2 hget, hget] at hg
      nomatch hg
  | some r =>
    have := h _ r hg
    rw [if_pos (List.mem_map.2 ⟨_, (SMap.mem_iff ..).2 hg, by dsimp only; omega⟩)]
    rfl

theorem Inv.down (h : Inv s) {n : Nat} (hn : n < s.started) : Inv (down s (.conn n)) := by
  have hget : ∀ id r, (Proxy.down s (.conn n)).requests.get id = some r ↔
    s.requests.get id = some r ∧ r.conn ≠ n := by
    intro id r
    unfold Proxy.down
    rw [SMap.get_filter, Option.filter_eq_some_iff, decide_eq_true_eq]
  have hmine : ∀ id r, (s.requests.filter fun r => r.conn = n).get id = some r → id = r.caller + 101 := by
    intro id r hr
    rw [SMap.get_filter, Option.filter_eq_some_iff] at hr
    exact (h.mine id r hr.1).1
  refine { h with mine := fun id r hr => ?_, live := fun id r hr => ?_, once := fun c => ?_, right := fun c id body hc => ?_,
                  conns := fun m hm => ?_, lost := fun m hm => ?_ }
  · exact h.mine id r ((hget id r).1 hr).1
  · obtain ⟨hr, hne⟩ := (hget id r).1 hr
    obtain ⟨e, he, heq⟩ := List.mem_map.1 (h.live id r hr)
    exact List.mem_map.2 ⟨e, List.mem_filter.2 ⟨he, by simp [heq, hne]⟩, heq⟩
  · have hcallers := count_callers hmine c
    have honce := h.once c
    unfold Proxy.down
    dsimp only
    rw [List.map_append, List.count_append, List.map_map]
    change (s.replies.map Prod.fst).count c + ((s.requests.filter fun r => r.conn = n).entries.map fun e => e.2.caller).count c +
      ((s.requests.filter fun r => r.conn ≠ n).get (c + 101)).isSome.toNat = _
    rw [hcallers, SMap.get_filter, SMap.get_filter, ← honce]
    cases hg : s.requests.get (c + 101) with
    | none => simp
    | some r => by_cases hc : r.conn = n <;> simp [hc]
  · rcases List.mem_append.1 hc with hc | hc
    · exact h.right c id body hc
    · obtain ⟨e, -, heq⟩ := List.mem_map.1 hc
      cases heq
  · obtain ⟨e, he, rfl⟩ := List.mem_map.1 hm
    exact h.conns _ (List.mem_map.2 ⟨e, (List.mem_filter.1 he).1, rfl⟩)
  · rcases List.mem_append.1 hm with hm | hm
    · obtain ⟨hlt, hnot⟩ := h.lost m hm
      refine ⟨hlt, fun hmem => hnot ?_⟩
      obtain ⟨e, he, rfl⟩ := List.mem_map.1 hmem
      exact List.mem_map.2 ⟨e, (List.mem_filter.1 he).1, rfl⟩
    · obtain rfl := List.mem_singleton.1 hm
      refine ⟨hn, fun hmem => ?_⟩
      obtain ⟨e, he, heq⟩ := List.mem_map.1 hmem
      exact of_decide_eq_true (List.mem_filter.1 he).2 heq

theorem Inv.response (h : Inv s) {id : Option Nat} {body : Nat}
    (he : response s id body = some s') : Inv s' := by
  unfold Proxy.response at he
  split at he
  · exact Option.some.inj he ▸ h
  · rename_i id
    split at he
    · exact Option.some.inj he ▸ h
    · rename_i r hr
      split at he
      · cases he
      · cases he
        obtain ⟨hid, x, hx, hconn⟩ := h.mine id r hr
        have hget : ∀ j p, (s.requests.del id).get j = some p → s.requests.get j = some p := by
          intro j p hj
          rw [SMap.get_del] at hj
          split at hj
          · cases hj
          · exact hj
        refine { h with mine := fun j p hj => h.mine j p (hget j p hj), live := fun j p hj => h.live j p (hget j p hj),
                        once := fun c => ?_, right := fun c j b hc => ?_ }
        · have honce := h.once c
          dsimp only
          rw [List.map_append, List.count_append, SMap.get_del]
          by_cases hc : c = r.caller
          · subst hc
            rw [← hid, hr] at honce
            rw [← hid, if_pos rfl, ← honce]
            simp
          · have hne : ¬id = c + 101 := by omega
            rw [if_neg hne, ← honce]
            simp [Ne.symm hc]
        · rcases List.mem_append.1 hc with hc | hc
          · exact h.right c j b hc
          · obtain ⟨rfl, rfl⟩ : c = r.caller ∧ j = id := by
              have := List.mem_singleton.1 hc
              simp_all
            exact hid

theorem Inv.step (h : Inv s) (he : step encodes urls s e = some s') : Inv s' := by
  cases e with
  | rpc method params pick => exact h.rpc he
  | ensure_connections pick => exact (h.ensure_connections he).1
  | subscribe_block pid =>
    obtain rfl : subscribe_block s pid = s' := Option.some.inj he
    unfold subscribe_block
    split
    · exact h
    · exact { h with }
  | unsubscribe_block pid =>
    change unsubscribe_block s pid = some s' at he
    unfold unsubscribe_block at he
    split at he
    · cases he
      exact { h with }
    · nomatch he
  | new_block ws_url block_number cached =>
    change new_block s ws_url block_number cached = some s' at he
    unfold new_block at he
    dsimp only at he
    split at he
    · split at he
      · cases he
        exact { h with }
      · nomatch he
    · cases he
      exact { h with }
  | down pid =>
    cases pid with
    | client n =>
      obtain rfl : Proxy.down s (.client n) = s' := Option.some.inj he
      unfold Proxy.down
      dsimp only
      split
      · exact { h with }
      · exact h
    | conn n =>
      change (if n < s.started then some (Proxy.down s (.conn n)) else some s) = some s' at he
      split at he
      · rename_i hn
        exact Option.some.inj he ▸ h.down hn
      · exact Option.some.inj he ▸ h
  | response id body => exact h.response he
  | clock ms =>
    obtain rfl : { s with now := ms } = s' := Option.some.inj he
    exact { h with }

theorem ensure_connections_isSome {url : String} {rest : List String} (s : NodeProxy) (pick : Nat) :
    ∃ s', ensure_connections (url :: rest) s pick = some s' ∧ s'.connections ≠ [] := by
  unfold ensure_connections
  by_cases hlt : s.connections.length < security_level
  · have hnil : s.connections = [] := List.eq_nil_of_length_eq_zero
      (by unfold security_level at hlt; omega)
    have hmem : url ∈ (url :: rest).dedup := List.mem_dedup.2 List.mem_cons_self
    have hpos := List.length_pos_of_mem hmem
    simp only [hnil, List.map_nil, List.not_mem_nil, not_false_eq_true, decide_true, List.filter_true]
    rw [if_pos (by decide), List.getElem?_eq_getElem (Nat.mod_lt _ hpos)]
    exact ⟨_, rfl, by simp⟩
  · rw [if_neg hlt]
    refine ⟨s, rfl, fun hnil => ?_⟩
    simp [hnil, security_level] at hlt

theorem rpc_isSome {url : String} {rest : List String} (s : NodeProxy) (method : String)
    (params : List Param) (pick : Nat) :
    (∃ s', rpc encodes (url :: rest) s method params pick = some s') ↔
      encodes method params = true := by
  obtain ⟨s₁, h₁, hne⟩ := @ensure_connections_isSome url rest s pick
  have hpick := Nat.mod_lt pick (List.length_pos_iff.2 hne)
  unfold rpc
  rw [h₁, Option.bind_eq_bind, Option.bind_some, List.getElem?_eq_getElem hpick]
  by_cases hm : encodes method params = true <;> simp [hm]

/-- The server goes on exactly after fit events. -/
theorem step_isSome {url : String} {rest : List String} (s : NodeProxy) (e : Event) :
    (∃ s', step encodes (url :: rest) s e = some s') ↔ Fit encodes s e := by
  cases e with
  | rpc method params pick => exact rpc_isSome s method params pick
  | ensure_connections pick =>
    obtain ⟨s', h, -⟩ := @ensure_connections_isSome url rest s pick
    exact ⟨fun _ => trivial, fun _ => ⟨s', h⟩⟩
  | subscribe_block pid => exact ⟨fun _ => trivial, fun _ => ⟨_, rfl⟩⟩
  | unsubscribe_block pid =>
    by_cases hm : pid ∈ s.subscriptions <;> simp [step, Fit, unsubscribe_block, hm]
  | new_block ws_url block_number cached =>
    have hcount : security_level ≤ (s.lastblocks.put ws_url block_number).entries.countP fun e =>
      e.2 = block_number := by
      refine List.countP_pos_iff.2 ⟨(ws_url, block_number), (SMap.mem_iff ..).2
        (SMap.get_put_self ..), ?_⟩
      simp
    cases cached <;> simp [step, Fit, new_block, hcount]
  | down pid =>
    cases pid with
    | client n => exact ⟨fun _ => trivial, fun _ => ⟨_, rfl⟩⟩
    | conn n => by_cases hn : n < s.started <;> simp [step, Fit, hn]
  | response id body =>
    cases id with
    | none => exact ⟨fun _ => trivial, fun _ => ⟨_, rfl⟩⟩
    | some id =>
      cases hg : s.requests.get id with
      | none => simp [step, Fit, response, hg]
      | some r => by_cases hu : Unloggable s r <;> simp [step, Fit, response, hg, hu]
  | clock ms => exact ⟨fun _ => trivial, fun _ => ⟨_, rfl⟩⟩

/-! ## Runs -/

theorem Inv.run : ∀ {es : List Event} {s : NodeProxy}, Inv s → run encodes urls s es = some s' → Inv s'
  | [], _, h, he => Option.some.inj he ▸ h
  | _ :: _, _, h, he => by
    obtain ⟨s₁, h₁, he⟩ := Option.bind_eq_some_iff.1 he
    exact (h.step h₁).run he

theorem run_isSome {url : String} {rest : List String} : ∀ (es : List Event) (s : NodeProxy),
    (∃ s', run encodes (url :: rest) s es = some s') ↔ FitRun encodes (url :: rest) s es
  | [], s => ⟨fun _ => trivial, fun _ => ⟨s, rfl⟩⟩
  | e :: es, s => by
    have hstep := @step_isSome encodes url rest s e
    refine ⟨?_, ?_⟩
    · intro h
      obtain ⟨s', he⟩ := h
      obtain ⟨s₁, h₁, he⟩ := Option.bind_eq_some_iff.1 he
      refine ⟨hstep.1 ⟨s₁, h₁⟩, fun s₂ h₂ => ?_⟩
      obtain rfl := Option.some.inj (h₁.symm.trans h₂)
      exact (run_isSome es s₁).1 ⟨s', he⟩
    · intro h
      obtain ⟨hfit, hrest⟩ := h
      obtain ⟨s₁, h₁⟩ := hstep.2 hfit
      obtain ⟨s', he⟩ := (run_isSome es s₁).2 (hrest s₁ h₁)
      exact ⟨s', by rw [run, h₁]; exact he⟩

/-- With an endpoint configured, a run is as promised exactly if all of its events are fit. -/
theorem answers_iff (encodes : String → List Param → Bool) (url : String) (rest : List String)
    (pick : Nat) (es : List Event) :
    Answers encodes (url :: rest) pick es ↔ ∃ s₀, boot (url :: rest) pick = some s₀ ∧
      FitRun encodes (url :: rest) s₀ es := by
  refine ⟨?_, ?_⟩
  · intro h
    obtain ⟨s₀, s, hboot, hrun, -⟩ := h
    exact ⟨s₀, hboot, (run_isSome es s₀).1 ⟨s, hrun⟩⟩
  · intro h
    obtain ⟨s₀, hboot, hfit⟩ := h
    obtain ⟨s, hrun⟩ := (run_isSome es s₀).2 hfit
    have hinv := (Inv.new.ensure_connections hboot).1
    exact ⟨s₀, s, hboot, hrun, fun before _ s' _ hs' => (hinv.run hs').answering⟩

/-- A process that unsubscribes twice. -/
theorem unsubscribe_twice_raises :
    ¬Answers (fun _ _ => true) ["ws"] 0 [.subscribe_block 1, .unsubscribe_block 1, .unsubscribe_block 1] := by
  intro h
  obtain ⟨s₀, s, hboot, hrun, -⟩ := h
  obtain rfl := Option.some.inj hboot
  nomatch hrun

end Diode.L6.Proxy
