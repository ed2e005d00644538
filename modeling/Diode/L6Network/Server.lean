import Diode.Core.Bytes
import Diode.Core.SMap

/-!
# The connection table of a server

`clients` is one map with two kinds of keys: a node's key leads to the
connection that speaks for the node and the time it was stored, a connection
leads to the key of its node. Many connections may lead to one key.

`register_node` deletes the key a connection had before it looks at the new one,
and restores it neither for the other connections of the old node nor when the
new key is denied. An exit does look for another connection.

* `table_iff`: the two directions agree in every state of a run, and an exit
  leaves no entry behind, exactly when no step of the run is a register that
  takes a connection away from a key still in use.
-/
namespace Diode.L6.Server
open Diode.Core

variable {Pid : Type} [LinearOrder Pid]

/-- The entries of `clients`, by the kind of their key. -/
structure Clients (Pid : Type) [LinearOrder Pid] where
  keys : SMap Addr (Pid × Int)
  pids : SMap Pid Addr

/-- `miner` is `Diode.miner()` and `port` is `hd(state.ports)`.
mirrors lib/network/server.ex:18-25 -/
structure State (Pid : Type) [LinearOrder Pid] where
  miner : Addr
  port : Nat
  clients : Clients Pid
  self_conns : List Pid

def init (Pid : Type) [LinearOrder Pid] (miner : Addr) (port : Nat) : State Pid :=
    ⟨miner, port, ⟨.empty, .empty⟩, []⟩

inductive Reply (Pid : Type) where
  | ok (port : Nat)
  | deny (port : Nat)
  | client (pid : Pid)
  deriving DecidableEq

/-- What the server hears: a `:register` of the connection `pid`, an
`:ensure_node_connection`, for which it starts `worker` if it has to, and an
`:EXIT`. `new` is the address of a new wallet, `now` the time in milliseconds. -/
inductive Event (Pid : Type) where
  | register (node_id : Option Addr) (new : Addr) (pid : Pid) (now : Int)
  | ensure_node_connection (node_id : Option Addr) (new : Addr) (alive : Pid → Bool)
      (worker : Pid) (now : Int)
  | exit (pid : Pid) (now : Int)

/-- mirrors lib/network/server.ex:166-172 -/
def to_key (node_id : Option Addr) (new : Addr) : Addr := node_id.getD new

/-- `Enum.find` of a connection that leads to a key. Which one it finds is up to
the order of the map. -/
structure Find (Pid : Type) [LinearOrder Pid] where
  find : Clients Pid → Addr → Option Pid
  found : ∀ c key pid0, find c key = some pid0 → c.pids.get pid0 = some key
  none_left : ∀ c key, find c key = none → ∀ pid0, c.pids.get pid0 ≠ some key

namespace Clients

/-- `Map.delete(clients, Map.get(clients, pid))` -/
def delete_key_of (c : Clients Pid) (pid : Pid) : Clients Pid :=
    { c with keys := (c.pids.get pid).elim c.keys c.keys.del }

/-- `Map.put(key, {pid, time}) |> Map.put(pid, key)` -/
def link (c : Clients Pid) (key : Addr) (pid : Pid) (time : Int) : Clients Pid :=
  ⟨c.keys.put key (pid, time), c.pids.put pid key⟩

/-- mirrors lib/network/server.ex:109-138 -/
def handle_client_exit (f : Find Pid) (c : Clients Pid) (pid : Pid) (now : Int) : Clients Pid :=
  match c.pids.get pid with
  | none => c
  | some key =>
    let c := ⟨c.keys.del key, c.pids.del pid⟩
    match f.find c key with
    | none => c
    | some pid0 => { c with keys := c.keys.put key (pid0, now) }

end Clients

/-- The third part is the connection that is told to `:stop`.
mirrors lib/network/server.ex:227-273 -/
def register_node (key : Addr) (pid : Pid) (now : Int) (s : State Pid) :
    Reply Pid × State Pid × Option Pid :=
  let clients := s.clients.delete_key_of pid
  match clients.keys.get key with
  | none => (.ok s.port, { s with clients := clients.link key pid now }, none)
  | some (other_pid, timestamp) =>
    if other_pid = pid then (.ok s.port, { s with clients := clients.link key pid timestamp }, none)
    else if now - timestamp > 5000 then (.ok s.port, { s with clients := clients.link key pid now },
      some other_pid)
    else (.deny s.port, { s with clients := clients }, none)

/-- mirrors lib/network/server.ex:218-225 -/
def register (node_id : Option Addr) (new : Addr) (pid : Pid) (now : Int) (s : State Pid) :
    Reply Pid × State Pid × Option Pid :=
  if node_id = some s.miner then (.ok s.port, { s with self_conns := pid :: s.self_conns }, none)
  else register_node (to_key node_id new) pid now s

/-- mirrors lib/network/server.ex:189-216 -/
def ensure_node_connection (node_id : Option Addr) (new : Addr) (alive : Pid → Bool) (worker : Pid)
    (now : Int) (s : State Pid) :
    Reply Pid × State Pid :=
  if node_id = some s.miner then
    match s.self_conns.find? alive with
    | some client => (.client client, s)
    | none => (.client worker, { s with self_conns := [worker] })
  else
    let key := to_key node_id new
    match s.clients.keys.get key with
    | some (pid, _) => (.client pid, s)
    | none => (.client worker, { s with clients := s.clients.link key worker now })

/-- mirrors lib/network/server.ex:174-187 -/
def get_connections (s : State Pid) : SMap Addr Pid := s.clients.keys.map Prod.fst

def step (f : Find Pid) (s : State Pid) : Event Pid → State Pid
  | .register node_id new pid now => (register node_id new pid now s).2.1
  | .ensure_node_connection node_id new alive worker now =>
      (ensure_node_connection node_id new alive worker now s).2
  | .exit pid now => { s with clients := s.clients.handle_client_exit f pid now }

def run (f : Find Pid) (s : State Pid) (es : List (Event Pid)) : State Pid := es.foldl (step f) s

/-! ## What the table is for -/

namespace Clients

/-- The two directions agree. -/
structure Coherent (c : Clients Pid) : Prop where
  present : ∀ key, (∃ e, c.keys.get key = some e) ↔ ∃ pid, c.pids.get pid = some key
  back : ∀ key pid t, c.keys.get key = some (pid, t) → c.pids.get pid = some key

/-- No entry mentions the connection. -/
structure Gone (c : Clients Pid) (pid : Pid) : Prop where
  untracked : c.pids.get pid = none
  unnamed : ∀ key t, c.keys.get key ≠ some (pid, t)

end Clients

/-- The connection that a call brings into the table. -/
def Event.brings : Event Pid → Option Pid
  | .register _ _ pid _ => some pid
  | .ensure_node_connection _ _ _ worker _ => some worker
  | .exit _ _ => none

/-- The table is right in every state of a run: the directions agree, and from
its exit on no entry mentions a connection, unless it comes back. -/
structure Right (f : Find Pid) (s : State Pid) (es : List (Event Pid)) : Prop where
  coherent : ∀ pre, pre <+: es → (run f s pre).clients.Coherent
  gone : ∀ pre pid now post, pre ++ .exit pid now :: post <+: es → (∀ e ∈ post, e.brings ≠ some pid) →
    (run f s (pre ++ .exit pid now :: post)).clients.Gone pid

/-- `P` holds of every state of a run and the event that comes next. -/
def Along (f : Find Pid) (P : State Pid → Event Pid → Prop) : State Pid → List (Event Pid) → Prop
  | _, [] => True
  | s, e :: es => P s e ∧ Along f P (step f s e) es

/-- A worker is a process of its own: none that the table tracks. -/
def Fresh (s : State Pid) : Event Pid → Prop
  | .ensure_node_connection _ _ _ worker _ => s.clients.pids.get worker = none
  | _ => True

/-- A connection that moves to another key is the only one of its old key, and
the new key is not held by a connection younger than five seconds. -/
def Keeps (s : State Pid) : Event Pid → Prop
  | .register node_id new pid now => node_id ≠ some s.miner → ∀ k, s.clients.pids.get pid = some k →
      k ≠ to_key node_id new →
      (∀ q, s.clients.pids.get q = some k → q = pid) ∧
        ∀ other t, s.clients.keys.get (to_key node_id new) = some (other, t) → 5000 < now - t
  | _ => True

/-! ## The pieces of the table -/

namespace Clients

variable {c : Clients Pid} {pid : Pid} {key : Addr} {time : Int}

theorem delete_key_of_untracked (h : c.pids.get pid = none) : c.delete_key_of pid = c := by
  rw [delete_key_of, h]
  rfl

theorem delete_key_of_keys (pid : Pid) (k : Addr) :
    (c.delete_key_of pid).keys.get k = if c.pids.get pid = some k then none else c.keys.get k := by
  unfold delete_key_of
  cases h : c.pids.get pid with
  | none => rfl
  | some k' =>
    simp only [Option.elim_some, Option.some.injEq]
    exact SMap.get_del _ _ _

theorem link_keys (k : Addr) : (c.link key pid time).keys.get k = if key = k then some
    (pid, time) else c.keys.get k :=
  SMap.get_put _ _ _ _

theorem link_pids (q : Pid) : (c.link key pid time).pids.get q = if pid = q then some key
    else c.pids.get q :=
  SMap.get_put _ _ _ _

/-- A connection that moves keeps the table coherent exactly if it was the only
one of its old key. -/
theorem Coherent.link_iff (h : c.Coherent) :
    ((c.delete_key_of pid).link key pid time).Coherent ↔
      ∀ k, c.pids.get pid = some k → k ≠ key → ∀ q, c.pids.get q = some k → q = pid := by
  refine ⟨?_, ?_⟩
  · intro h' k hk hne q hq
    by_contra hqp
    obtain ⟨e, he⟩ := (h'.present k).2 ⟨q, by rw [link_pids, if_neg (Ne.symm hqp)]; exact hq⟩
    rw [link_keys, if_neg (Ne.symm hne), delete_key_of_keys, if_pos hk] at he
    cases he
  · intro hmove
    refine ⟨fun k => ?_, fun k q t hk => ?_⟩
    · rw [link_keys]
      by_cases hkk : key = k
      · rw [if_pos hkk]
        exact iff_of_true ⟨_, rfl⟩ ⟨pid, by rw [link_pids, if_pos rfl, hkk]⟩
      rw [if_neg hkk, delete_key_of_keys]
      by_cases hp : c.pids.get pid = some k
      · rw [if_pos hp]
        refine iff_of_false (fun ⟨e, he⟩ => Option.some_ne_none e he.symm) fun ⟨q, hq⟩ => ?_
        rw [link_pids] at hq
        split at hq
        · exact hkk (Option.some.inj hq)
        · rename_i hne
          exact hne (hmove k hp (Ne.symm hkk) q hq).symm
      · rw [if_neg hp, h.present k]
        refine ⟨?_, ?_⟩
        · intro hx
          obtain ⟨q, hq⟩ := hx
          have hne : pid ≠ q := fun e => hp (e ▸ hq)
          exact ⟨q, by rw [link_pids, if_neg hne]; exact hq⟩
        · intro hx
          obtain ⟨q, hq⟩ := hx
          rw [link_pids] at hq
          split at hq
          · exact absurd (Option.some.inj hq) hkk
          · exact ⟨q, hq⟩
    · rw [link_keys] at hk
      split at hk
      · rename_i hkk
        cases hk
        rw [link_pids, if_pos rfl, hkk]
      · rename_i hkk
        rw [delete_key_of_keys] at hk
        split at hk
        · cases hk
        · rename_i hp
          have hq := h.back k q t hk
          have hne : pid ≠ q := fun e => hp (e ▸ hq)
          rw [link_pids, if_neg hne]
          exact hq

/-- A denied connection keeps the table coherent only if it was not tracked. -/
theorem Coherent.delete_iff (h : c.Coherent) : (c.delete_key_of pid).Coherent ↔
    c.pids.get pid = none := by
  refine ⟨?_, ?_⟩
  · intro h'
    cases hk : c.pids.get pid with
    | none => rfl
    | some k =>
      obtain ⟨e, he⟩ := (h'.present k).2 ⟨pid, hk⟩
      rw [delete_key_of_keys, if_pos hk] at he
      cases he
  · intro hn
    rw [delete_key_of_untracked hn]
    exact h

theorem exit_pids (f : Find Pid) (now : Int) (q : Pid) :
    (c.handle_client_exit f pid now).pids.get q = if pid = q then none else c.pids.get q := by
  unfold handle_client_exit
  cases hk : c.pids.get pid with
  | none =>
    by_cases hq : pid = q
    · rw [if_pos hq, ← hq]
      exact hk
    · rw [if_neg hq]
  | some key =>
    dsimp only
    cases hf : f.find ⟨c.keys.del key, c.pids.del pid⟩ key with
    | none => exact SMap.get_del _ _ _
    | some pid0 => exact SMap.get_del _ _ _

/-- An exit only touches the key of the connection. -/
theorem exit_keys_ne (f : Find Pid) (now : Int) {k : Addr} (h : c.pids.get pid ≠ some k) :
    (c.handle_client_exit f pid now).keys.get k = c.keys.get k := by
  unfold handle_client_exit
  cases hk : c.pids.get pid with
  | none => rfl
  | some key =>
    have hne : key ≠ k := fun e => h (e ▸ hk)
    have hdel : (c.keys.del key).get k = c.keys.get k := by rw [SMap.get_del, if_neg hne]
    dsimp only
    cases hf : f.find ⟨c.keys.del key, c.pids.del pid⟩ key with
    | none => exact hdel
    | some pid0 => exact (SMap.get_put_ne _ _ hne).trans hdel

/-- The key of the connection goes to another one, if there is one. -/
theorem exit_keys (f : Find Pid) (now : Int) (h : c.pids.get pid = some key) :
    (∃ pid0, (c.handle_client_exit f pid now).keys.get key = some (pid0, now) ∧
        (c.handle_client_exit f pid now).pids.get pid0 = some key) ∨
      ((c.handle_client_exit f pid now).keys.get key = none ∧
        ∀ q, (c.handle_client_exit f pid now).pids.get q ≠ some key) := by
  unfold handle_client_exit
  rw [h]
  dsimp only
  cases hf : f.find ⟨c.keys.del key, c.pids.del pid⟩ key with
  | none => exact .inr ⟨by rw [SMap.get_del, if_pos rfl], f.none_left _ _ hf⟩
  | some pid0 =>
    have hfound := f.found _ _ _ hf
    exact .inl ⟨pid0, SMap.get_put_self _ _ _, hfound⟩

theorem Coherent.exit (f : Find Pid) (h : c.Coherent) (now : Int) :
    (c.handle_client_exit f pid now).Coherent := by
  refine ⟨fun k => ?_, fun k q t hkq => ?_⟩
  · by_cases hk : c.pids.get pid = some k
    · rcases exit_keys f now hk with ⟨pid0, h1, h2⟩ | ⟨h1, h2⟩
      · exact iff_of_true ⟨_, h1⟩ ⟨pid0, h2⟩
      · exact iff_of_false (fun ⟨e, he⟩ => Option.some_ne_none e (he.symm.trans h1)) fun ⟨q, hq⟩ => h2 q hq
    · rw [exit_keys_ne f now hk, h.present k]
      refine exists_congr fun q => ?_
      rw [exit_pids]
      by_cases hq : pid = q
      · rw [if_pos hq]
        exact iff_of_false (fun e => hk (hq ▸ e)) (Option.some_ne_none k ·.symm)
      · rw [if_neg hq]
  · by_cases hk : c.pids.get pid = some k
    · rcases exit_keys f now hk with ⟨pid0, h1, h2⟩ | ⟨h1, h2⟩
      · cases h1.symm.trans hkq
        exact h2
      · cases h1.symm.trans hkq
    · rw [exit_keys_ne f now hk] at hkq
      have hq := h.back k q t hkq
      have hne : pid ≠ q := fun e => hk (e ▸ hq)
      rw [exit_pids, if_neg hne]
      exact hq

theorem Coherent.exit_gone (f : Find Pid) (h : c.Coherent) (now : Int) :
    (c.handle_client_exit f pid now).Gone pid := by
  have hn : (c.handle_client_exit f pid now).pids.get pid = none := by rw [exit_pids, if_pos rfl]
  refine ⟨hn, fun k t hk => ?_⟩
  cases hn.symm.trans ((h.exit f now).back k pid t hk)

/-! ## A connection that is gone -/

theorem Gone.delete (h : c.Gone pid) (q : Pid) : (c.delete_key_of q).Gone pid := by
  refine ⟨h.untracked, fun k t hk => ?_⟩
  rw [delete_key_of_keys] at hk
  split at hk
  · cases hk
  · exact h.unnamed k t hk

theorem Gone.link (h : c.Gone pid) {q : Pid} (hq : q ≠ pid) (key : Addr) (time : Int) :
    (c.link key q time).Gone pid := by
  refine ⟨by rw [link_pids, if_neg hq]; exact h.untracked, fun k t hk => ?_⟩
  rw [link_keys] at hk
  split at hk
  · cases hk
    exact hq rfl
  · exact h.unnamed k t hk

theorem Gone.exit (f : Find Pid) (h : c.Gone pid) (q : Pid) (now : Int) :
    (c.handle_client_exit f q now).Gone pid := by
  have hn : (c.handle_client_exit f q now).pids.get pid = none := by
    rw [exit_pids, h.untracked, ite_self]
  refine ⟨hn, fun k t hk => ?_⟩
  by_cases hqk : c.pids.get q = some k
  · rcases exit_keys f now hqk with ⟨pid0, h1, h2⟩ | ⟨h1, h2⟩
    · cases h1.symm.trans hk
      cases hn.symm.trans h2
    · cases h1.symm.trans hk
  · rw [exit_keys_ne f now hqk] at hk
    exact h.unnamed k t hk

end Clients

/-! ## One step -/

variable {f : Find Pid} {s : State Pid} {e : Event Pid} {pid : Pid}

/-- What `register_node` makes of the table. -/
theorem register_node_cases (key : Addr) (pid : Pid) (now : Int) (s : State Pid) :
    (∃ t, (register_node key pid now s).2.1.clients = (s.clients.delete_key_of pid).link key pid t ∧
        ∀ other t, (s.clients.delete_key_of pid).keys.get key = some (other, t) → other = pid ∨
          5000 < now - t) ∨
      ((register_node key pid now s).2.1.clients = s.clients.delete_key_of pid ∧
        ∃ other t, (s.clients.delete_key_of pid).keys.get key = some (other, t) ∧ other ≠ pid ∧
          now - t ≤ 5000) := by
  unfold register_node
  dsimp only
  cases hk : (s.clients.delete_key_of pid).keys.get key with
  | none => exact .inl ⟨now, rfl, fun other t h => by cases h⟩
  | some e =>
    obtain ⟨other, t⟩ := e
    dsimp only
    by_cases ho : other = pid
    · rw [if_pos ho]
      refine .inl ⟨t, rfl, fun other' t' h => ?_⟩
      cases h
      exact .inl ho
    rw [if_neg ho]
    by_cases ht : now - t > 5000
    · rw [if_pos ht]
      refine .inl ⟨now, rfl, fun other' t' h => ?_⟩
      cases h
      exact .inr ht
    · rw [if_neg ht]
      exact .inr ⟨rfl, other, t, rfl, ho, Int.not_lt.1 ht⟩

/-- The two ways a register loses a direction. -/
theorem register_node_iff (h : s.clients.Coherent) (key : Addr) (pid : Pid) (now : Int) :
    (register_node key pid now s).2.1.clients.Coherent ↔
      ∀ k, s.clients.pids.get pid = some k → k ≠ key → (∀ q, s.clients.pids.get q = some k → q = pid) ∧
        ∀ other t, s.clients.keys.get key = some (other, t) → 5000 < now - t := by
  have hkey : ∀ k, s.clients.pids.get pid = some k → k ≠ key →
      (s.clients.delete_key_of pid).keys.get key = s.clients.keys.get key := by
    intro k hk hne
    rw [Clients.delete_key_of_keys, if_neg fun e => hne (Option.some.inj (hk.symm.trans e))]
  rcases register_node_cases key pid now s with ⟨t, hc, hold⟩ | ⟨hc, other, t, hold, ho, ht⟩
  · rw [hc, h.link_iff]
    refine forall_congr' fun k => imp_congr_right fun hk => imp_congr_right fun hne => ?_
    refine (and_iff_left fun other t' hot => ?_).symm
    rw [← hkey k hk hne] at hot
    rcases hold other t' hot with rfl | ht
    · -- the key would lead to the connection, and the connection to another key
      rw [hkey k hk hne] at hot
      exact absurd (Option.some.inj (hk.symm.trans (h.back key _ t' hot))) hne
    · exact ht
  · rw [hc, h.delete_iff]
    refine ⟨?_, ?_⟩
    · intro hn k hk
      cases hn.symm.trans hk
    · intro hmove
      cases hk : s.clients.pids.get pid with
      | none => rfl
      | some k =>
        by_cases hne : k = key
        · rw [Clients.delete_key_of_keys, if_pos (hne ▸ hk)] at hold
          cases hold
        · rw [hkey k hk hne] at hold
          have := (hmove k hk hne).2 other t hold
          omega

/-- A register of the own id leaves the table as it is. -/
theorem register_clients (node_id : Option Addr) (new : Addr) (pid : Pid) (now : Int) (s : State Pid) :
    (register node_id new pid now s).2.1.clients =
      if node_id = some s.miner then s.clients else (register_node (to_key node_id new) pid now s).2.1.clients := by
  unfold register
  by_cases hm : node_id = some s.miner
  · rw [if_pos hm, if_pos hm]
  · rw [if_neg hm, if_neg hm]

/-- Only a worker for a node without a connection is new to the table. -/
theorem ensure_clients (node_id : Option Addr) (new : Addr) (alive : Pid → Bool) (worker : Pid)
    (now : Int) (s : State Pid) :
    (ensure_node_connection node_id new alive worker now s).2.clients = s.clients ∨
      (ensure_node_connection node_id new alive worker now s).2.clients = s.clients.link
        (to_key node_id new) worker now := by
  unfold ensure_node_connection
  by_cases hm : node_id = some s.miner
  · rw [if_pos hm]
    cases s.self_conns.find? alive with
    | none => exact .inl rfl
    | some client => exact .inl rfl
  · rw [if_neg hm]
    dsimp only
    cases s.clients.keys.get (to_key node_id new) with
    | none => exact .inr rfl
    | some e => exact .inl rfl

/-- **One step** keeps the table coherent exactly if it is not a register that
loses a direction. -/
theorem step_iff (h : s.clients.Coherent) (hf : Fresh s e) : (step f s e).clients.Coherent ↔
    Keeps s e := by
  cases e with
  | register node_id new pid now =>
    change (register node_id new pid now s).2.1.clients.Coherent ↔ (node_id ≠ some s.miner → _)
    rw [register_clients]
    by_cases hm : node_id = some s.miner
    · rw [if_pos hm]
      exact iff_of_true h fun hne => absurd hm hne
    · rw [if_neg hm, register_node_iff h]
      exact ⟨fun hk _ => hk, fun hk => hk hm⟩
  | ensure_node_connection node_id new alive worker now =>
    refine iff_of_true ?_ trivial
    change (ensure_node_connection node_id new alive worker now s).2.clients.Coherent
    rcases ensure_clients node_id new alive worker now s with hc | hc
    · rw [hc]
      exact h
    · rw [hc, ← Clients.delete_key_of_untracked hf, h.link_iff]
      intro k hk
      cases Eq.trans (Eq.symm hf) hk
  | exit pid now => exact iff_of_true (h.exit f now) trivial

/-- A connection that is gone stays away until a call brings it back. -/
theorem step_gone (h : s.clients.Gone pid) (hb : e.brings ≠ some pid) :
    (step f s e).clients.Gone pid := by
  cases e with
  | register node_id new q now =>
    have hq : q ≠ pid := fun e => hb (congrArg some e)
    change (register node_id new q now s).2.1.clients.Gone pid
    rw [register_clients]
    by_cases hm : node_id = some s.miner
    · rw [if_pos hm]
      exact h
    rw [if_neg hm]
    rcases register_node_cases (to_key node_id new) q now s with ⟨t, hc, _⟩ | ⟨hc, _⟩
    · rw [hc]
      exact (h.delete q).link hq _ t
    · rw [hc]
      exact h.delete q
  | ensure_node_connection node_id new alive worker now =>
    have hw : worker ≠ pid := fun e => hb (congrArg some e)
    change (ensure_node_connection node_id new alive worker now s).2.clients.Gone pid
    rcases ensure_clients node_id new alive worker now s with hc | hc
    · rw [hc]
      exact h
    · rw [hc]
      exact h.link hw _ now
  | exit q now => exact h.exit f q now

/-- Exactly the nodes that a connection leads to are listed. -/
theorem get_connections_iff (h : s.clients.Coherent) (key : Addr) :
    (∃ pid, (get_connections s).get key = some pid) ↔ ∃ pid, s.clients.pids.get pid = some key := by
  rw [← h.present key, get_connections, SMap.get_map]
  cases s.clients.keys.get key with
  | none => simp
  | some e => simp

/-! ## Runs -/

theorem run_gone {es : List (Event Pid)} (h : s.clients.Gone pid) (hb : ∀ e ∈ es, e.brings ≠ some pid) :
    (run f s es).clients.Gone pid := by
  induction es generalizing s with
  | nil => exact h
  | cons e es ih => exact ih (step_gone h (hb e List.mem_cons_self)) fun e' he' => hb e' (List.mem_cons_of_mem _ he')

theorem run_append (es es' : List (Event Pid)) : run f s (es ++ es') = run f (run f s es) es' :=
    List.foldl_append

/-- In a coherent run every step keeps what it finds, and the other way round. -/
theorem coherent_iff {es : List (Event Pid)} (h : s.clients.Coherent) (hf : Along f Fresh s es) :
    (∀ pre, pre <+: es → (run f s pre).clients.Coherent) ↔ Along f Keeps s es := by
  induction es generalizing s with
  | nil =>
    refine iff_of_true (fun pre hpre => ?_) trivial
    rw [List.prefix_nil.1 hpre]
    exact h
  | cons e es ih =>
    obtain ⟨hfe, hfs⟩ := hf
    refine ⟨?_, ?_⟩
    · intro hall
      have he : (step f s e).clients.Coherent := hall [e] ⟨es, rfl⟩
      refine ⟨(step_iff h hfe).1 he, (ih he hfs).1 fun pre hpre => ?_⟩
      exact hall (e :: pre) (List.cons_prefix_cons.2 ⟨rfl, hpre⟩)
    · rintro ⟨hk, hks⟩ pre hpre
      have he := (step_iff (f := f) h hfe).2 hk
      rcases List.prefix_cons_iff.1 hpre with rfl | ⟨t, rfl, ht⟩
      · exact h
      · exact (ih he hfs).2 hks t ht

theorem coherent_init (miner : Addr) (port : Nat) : (init Pid miner port).clients.Coherent :=
  ⟨fun _ => iff_of_false (fun ⟨_, h⟩ => by cases h) (fun ⟨_, h⟩ => by cases h),
    fun _ _ _ h => by cases h⟩

/-- **The table of connections.** It is right in every state of a run from the
start exactly when no step of the run is a register that loses a direction. -/
theorem table_iff (f : Find Pid) (miner : Addr) (port : Nat) (es : List (Event Pid))
    (hf : Along f Fresh (init Pid miner port) es) :
    Right f (init Pid miner port) es ↔ Along f Keeps (init Pid miner port) es := by
  have hc := coherent_iff (coherent_init miner port) hf
  refine ⟨?_, ?_⟩
  · intro h
    exact hc.1 h.coherent
  · intro h
    refine ⟨hc.2 h, fun pre pid now post hpre hb => ?_⟩
    have hpc := hc.2 h pre ((List.prefix_append _ _).trans hpre)
    rw [run_append]
    change (run f (step f (run f (init Pid miner port) pre) (.exit pid now)) post).clients.Gone pid
    exact run_gone (hpc.exit_gone f now) hb

/-- The first connection in the order of the pids. -/
def Find.first (Pid : Type) [LinearOrder Pid] : Find Pid where
  find c key := (c.pids.entries.find? fun e => e.2 = key).map Prod.fst
  found c key pid0 h := by
    obtain ⟨e, he, rfl⟩ := Option.map_eq_some_iff.1 h
    have hkey := List.find?_some he
    rw [decide_eq_true_eq] at hkey
    rw [← hkey]
    exact (SMap.mem_iff _ _ _).1 (List.mem_of_find?_eq_some he)
  none_left c key h pid0 hp := by
    rw [Option.map_eq_none_iff, List.find?_eq_none] at h
    exact h _ ((SMap.mem_iff _ _ _).2 hp) (decide_eq_true rfl)

/-- A worker for node 1 that turns out to be node 2, and goes. -/
def moved : List (Event Nat) :=
  [.ensure_node_connection (some 1) 0 (fun _ => true) 10 0, .register (some 2) 0 10 100, .exit 10 200]

theorem table_right_moved : Right (.first Nat) (init Nat 0 41046) moved := by
  refine (table_iff (.first Nat) 0 41046 moved ⟨rfl, trivial, trivial, trivial⟩).2 ⟨trivial, ?_,
    trivial, trivial⟩
  intro _ k hk _
  obtain rfl : 1 = k := Option.some.inj hk
  refine ⟨fun q hq => ?_, fun other t h => by cases h⟩
  have hl := @Clients.link_pids Nat _ ⟨.empty, .empty⟩ 10 1 0 q
  by_contra hne
  rw [if_neg (Ne.symm hne)] at hl
  cases hl.symm.trans hq

/-- **Lost directions.** The worker for node 1 turns out to be node 2. In the
first run another connection of node 1 has replaced it and is lost from the
table; in the second node 2 is denied, and the worker leads to a key that is
not there. -/
theorem moved_loses_direction :
    ¬Right (.first Nat) (init Nat 0 41046)
        [.ensure_node_connection (some 1) 0 (fun _ => true) 10 0, .register (some 1) 0 11 6000,
          .register (some 2) 0 10 7000] ∧
      ¬Right (.first Nat) (init Nat 0 41046)
        [.ensure_node_connection (some 1) 0 (fun _ => true) 10 0, .register (some 2) 0 11 50,
          .register (some 2) 0 10 100] := by
  refine ⟨?_, ?_⟩
  · intro h
    obtain ⟨e, he⟩ := ((h.coherent _ (List.prefix_refl _)).present 1).2 ⟨11, by decide⟩
    revert e
    decide
  · intro h
    obtain ⟨e, he⟩ := ((h.coherent _ (List.prefix_refl _)).present 1).2 ⟨10, by decide⟩
    revert e
    decide

end Diode.L6.Server
