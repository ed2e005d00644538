import Mathlib.Data.List.Count
import Mathlib.Data.List.Nodup
import Mathlib.Logic.Function.Basic
import Diode.Core.Pairs
import Diode.L1Encoding.RlpRead

/-!
# Requests of the RPC cache

Callers that ask for the same method and parameters share one request to the
node: the entry of these has the time it was sent and the callers to reply to.
When the entry is older than the timeout a call sends the request again and
starts the entry over, with itself as the only caller. The first request stays
outstanding, and whichever of the two answers comes last finds no entry
(`answer_twice_raises`).

* `requests_iff`: a run can always go on with the answers that are still out,
  and every call is replied to once or waits for one of these, exactly if no
  call is such a renewal, or sends a request whose answer cannot be filed.
-/
namespace Diode.L6.Rpc
open Diode.Core Diode.L1

/-- A parameter, a binary or some other term. -/
inductive Param where
  | binary (b : Bytes)
  | other (n : Nat)
  deriving DecidableEq

abbrev Key := String × List Param

/-- What a caller gets: the body of a response or `{:error, reason}`. -/
inductive Ret where
  | response (body : Nat)
  | error (reason : Nat)
  deriving DecidableEq

/-- "ticket" -/
def ticket : Bytes := [116, 105, 99, 107, 101, 116]

/-- `none` when the request cannot be decoded: the server raises.
mirrors lib/remote_chain/rpc_cache.ex:367-377 -/
def should_cache_method : Key → Option Bool
  | ("dio_edgev2", [.binary hex]) =>
    match (Base16.decode hex).bind Rlp.decode with
    | some (.list (.bin name :: _)) => some (name ≠ ticket)
    | some (.list (_ :: _)) => some true
    | _ => none
  | ("dio_edgev2", [.other _]) => none
  | _ => some true

/-- mirrors lib/remote_chain/rpc_cache.ex:379-386 -/
def should_cache_result : Ret → Bool
  | .error _ => false
  | .response _ => true

/-- The server. Callers are numbered as they call, requests as they are sent. -/
structure RPCCache where
  cache : Key → Option Ret
  request_rpc : Key → Option (Nat × List (Option Nat))
  request_collection : List (Nat × Key)
  now : Nat
  calls : Nat
  sent : Nat
  replies : List (Nat × Ret)

def default_timeout : Nat := 25000

namespace RPCCache

def init : RPCCache := ⟨fun _ => none, fun _ => none, [], 0, 0, 0, []⟩

/-- mirrors lib/remote_chain/rpc_cache.ex:265-282 -/
def new_request (s : RPCCache) (key : Key) (caller : Option Nat) : RPCCache :=
  { s with request_collection := s.request_collection ++ [(s.sent, key)]
           sent := s.sent + 1
           request_rpc := Function.update s.request_rpc key (some (s.now, [caller])) }

/-- mirrors lib/remote_chain/rpc_cache.ex:249-263 -/
def send_request (s : RPCCache) (key : Key) (caller : Option Nat) : RPCCache :=
  match s.request_rpc key with
  | none => s.new_request key caller
  | some (time, set) =>
    if default_timeout < s.now - time then s.new_request key caller
    else { s with request_rpc := Function.update s.request_rpc key (some (time, set.insert caller)) }

def reply (s : RPCCache) (caller : Nat) (ret : Ret) : RPCCache :=
    { s with replies := (caller, ret) :: s.replies }

/-- The call of the next caller. `refresh` is the throw of the dice for a result
that is in the cache.
mirrors lib/remote_chain/rpc_cache.ex:225-237 -/
def rpc (s : RPCCache) (key : Key) (refresh : Bool) : RPCCache :=
  let caller := s.calls
  let s := { s with calls := s.calls + 1 }
  match s.cache key with
  | none => s.send_request key (some caller)
  | some result =>
    if ¬ should_cache_result result then s.send_request key (some caller)
    else if refresh then (s.send_request key none).reply caller result
    else s.reply caller result

/-- `Map.pop!` and the replies. -/
def answer (s : RPCCache) (id : Nat) (key : Key) (ret : Ret) : Option RPCCache :=
  match s.request_rpc key with
  | none => none
  | some (_, froms) =>
    some { s with request_collection := s.request_collection.filter fun r => r.1 ≠ id
                  request_rpc := Function.update s.request_rpc key none
                  replies := (froms.filterMap fun caller => caller.map fun c => (c, ret)) ++ s.replies }

/-- A message of the node for request `id`: `{:reply, ret}`, or an error of the
connection to it. Ids that are not outstanding are passed over. `none` when the
server raises.
mirrors lib/remote_chain/rpc_cache.ex:310-354 -/
def handle_info (s : RPCCache) (id : Nat) (ret : Ret) (replied : Bool) : Option RPCCache :=
  match s.request_collection.lookup id with
  | none => some s
  | some key =>
    if replied then do
      let m ← should_cache_method key
      let s := if m ∧ should_cache_result ret then { s with cache := Function.update s.cache key (some ret) } else s
      s.answer id key ret
    else s.answer id key ret

inductive Event where
  | rpc (key : Key) (refresh : Bool)
  | tick (ms : Nat)
  | response (id : Nat) (ret : Ret)
  | error (id : Nat) (reason : Nat)
  | evict (key : Key)

def step (s : RPCCache) : Event → Option RPCCache
  | .rpc key refresh => some (s.rpc key refresh)
  | .tick ms => some { s with now := s.now + ms }
  | .response id ret => s.handle_info id ret true
  | .error id reason => s.handle_info id (.error reason) false
  | .evict key => some { s with cache := Function.update s.cache key none }

/-- `none` as soon as the server has raised. -/
def run (s : RPCCache) : List Event → Option RPCCache
  | [] => some s
  | e :: es => (s.step e).bind fun s => run s es

/-! ## Which calls are fit -/

/-- The call goes on to the node. -/
def Sends (s : RPCCache) (key : Key) (refresh : Bool) : Prop :=
  ∀ result, s.cache key = some result → should_cache_result result = true → refresh = true

/-- A call that goes on to the node has a request that can be filed, and no
entry of it is older than the timeout. -/
def Fit (s : RPCCache) : Event → Prop
  | .rpc key refresh => s.Sends key refresh → (should_cache_method key).isSome = true ∧
      ∀ time froms, s.request_rpc key = some (time, froms) → s.now - time ≤ default_timeout
  | _ => True

/-- Every event of the run is fit where it comes. -/
def FitRun (s : RPCCache) : List Event → Prop
  | [] => True
  | e :: es => s.Fit e ∧ ∀ s', s.step e = some s' → FitRun s' es

/-! ## What the callers are promised -/

def Waits (s : RPCCache) (c : Nat) (k : Key) : Prop := ∃ time froms, s.request_rpc k = some
    (time, froms) ∧ some c ∈ froms

/-- How often a caller was replied to. -/
def got (s : RPCCache) (c : Nat) : Nat := (s.replies.map Prod.fst).count c

def Outstanding (s : RPCCache) (k : Key) : Prop := ∃ id, (id, k) ∈ s.request_collection

/-- One reply, or none yet and a place in one entry whose request is out. -/
def Served (s : RPCCache) (c : Nat) : Prop :=
  s.got c = 1 ∧ (∀ k, ¬ s.Waits c k) ∨
    s.got c = 0 ∧ ∃ k, s.Waits c k ∧ s.Outstanding k ∧ ∀ k', s.Waits c k' → k' = k

def Event.IsAnswer : Event → Prop
  | .response _ _ => True
  | .error _ _ => True
  | _ => False

/-- After every part of the run any answers may come: the server does not raise,
and keeps what its callers are promised. -/
def Holds (s : RPCCache) (es : List Event) : Prop :=
  ∀ p q answers, es = p ++ q → (∀ e ∈ answers, e.IsAnswer) →
    ∃ s', s.run (p ++ answers) = some s' ∧ ∀ c < s'.calls, s'.Served c

theorem run_append {s : RPCCache} (p q : List Event) : s.run (p ++ q) = (s.run p).bind fun s' =>
    s'.run q := by
  induction p generalizing s with
  | nil => rfl
  | cons e p ih =>
    rw [List.cons_append, run, run, Option.bind_assoc]
    congr 1
    funext s'
    exact ih

/-! ## The bookkeeping -/

/-- Every entry has one outstanding request, which can be filed, and no caller
twice; callers and requests to come are unknown. -/
structure Book (s : RPCCache) : Prop where
  distinct : (s.request_collection.map Prod.fst).Nodup
  ids : ∀ r ∈ s.request_collection, r.1 < s.sent
  entry : ∀ k, s.Outstanding k ↔ s.request_rpc k ≠ none
  one : ∀ k i j, (i, k) ∈ s.request_collection → (j, k) ∈ s.request_collection → i = j
  filed : ∀ r ∈ s.request_collection, (should_cache_method r.2).isSome = true
  callers : ∀ k time froms, s.request_rpc k = some (time, froms) → froms.Nodup
  fresh : ∀ c, s.calls ≤ c → s.got c = 0 ∧ ∀ k, ¬ s.Waits c k

theorem Book.init : Book init where
  distinct := List.nodup_nil
  ids := nofun
  entry _ := ⟨fun ⟨_, h⟩ => (nomatch h), fun h => absurd rfl h⟩
  one _ _ _ h := nomatch h
  filed := nofun
  callers := nofun
  fresh _ _ := ⟨rfl, fun _ ⟨_, _, h, _⟩ => nomatch h⟩

variable {s s' : RPCCache} {key : Key} {caller : Option Nat}

/-- What sending for a caller does: its place in the entry, and nothing else that
callers see. -/
structure Sent (s s' : RPCCache) (key : Key) (caller : Option Nat) : Prop where
  cache : s'.cache = s.cache
  calls : s'.calls = s.calls
  replies : s'.replies = s.replies
  waits : ∀ c k, s'.Waits c k ↔ s.Waits c k ∨ k = key ∧ caller = some c
  out : ∀ k, s'.Outstanding k ↔ s.Outstanding k ∨ k = key

theorem Sent.got (h : Sent s s' key caller) (c : Nat) : s'.got c = s.got c := by
  unfold RPCCache.got
  rw [h.replies]

theorem waits_none {c : Nat} {k : Key} (h : s.request_rpc k = none) : ¬ s.Waits c k := by
  intro hx
  obtain ⟨_, _, he, _⟩ := hx
  rw [h] at he
  nomatch he

theorem new_request_sent (h : s.request_rpc key = none) :
    Sent s (s.new_request key caller) key caller where
  cache := rfl
  calls := rfl
  replies := rfl
  waits c k := by
    unfold Waits new_request
    simp only [Function.update_apply]
    by_cases hk : k = key
    · subst hk
      simp only [if_true, Option.some.injEq, Prod.mk.injEq, true_and, h]
      simp [eq_comm]
    · simp [hk]
  out k := by
    simp [Outstanding, new_request, exists_or, eq_comm]

/-- A caller takes its place in an entry that is there. -/
def join (s : RPCCache) (key : Key) (caller : Option Nat) (time : Nat) (set : List (Option Nat)) : RPCCache :=
  { s with request_rpc := Function.update s.request_rpc key (some (time, set.insert caller)) }

theorem join_sent (hb : s.Book) {time : Nat} {set : List (Option Nat)}
    (h : s.request_rpc key = some (time, set)) :
    Sent s (s.join key caller time set) key caller where
  cache := rfl
  calls := rfl
  replies := rfl
  waits c k := by
    unfold Waits join
    simp only [Function.update_apply]
    by_cases hk : k = key
    · subst hk
      simp [h, eq_comm, or_comm]
    · simp [hk]
  out k := by
    have hout : s.Outstanding key := (hb.entry key).2 (by rw [h]; exact Option.some_ne_none _)
    refine ⟨?_, ?_⟩
    · exact .inl
    · rintro (ho | rfl)
      · exact ho
      · exact hout

theorem send_cases (hold : ∀ time froms, s.request_rpc key = some (time, froms) →
    s.now - time ≤ default_timeout) :
    s.request_rpc key = none ∧ s.send_request key caller = s.new_request key caller ∨
      ∃ time set, s.request_rpc key = some (time, set) ∧
        s.send_request key caller = s.join key caller time set := by
  unfold send_request
  cases h : s.request_rpc key with
  | none => exact .inl ⟨rfl, rfl⟩
  | some r =>
    refine .inr ⟨r.1, r.2, rfl, ?_⟩
    have := hold r.1 r.2 h
    simp only [if_neg (show ¬ default_timeout < s.now - r.1 by omega)]
    rfl

theorem Book.new_request (hb : s.Book) (h : s.request_rpc key = none)
    (hf : (should_cache_method key).isSome = true)
    (hc : ∀ c, caller = some c → c < s.calls) : (s.new_request key caller).Book where
  distinct := by
    show ((s.request_collection ++ [(s.sent, key)]).map Prod.fst).Nodup
    rw [List.map_append, List.nodup_append]
    refine ⟨hb.distinct, by simp, ?_⟩
    intro i hi j hj
    obtain ⟨r, hr, rfl⟩ := List.mem_map.1 hi
    have := hb.ids r hr
    simp only [List.map_cons, List.map_nil, List.mem_singleton] at hj
    omega
  ids r hr := by
    rcases List.mem_append.1 hr with hr | hr
    · exact Nat.lt_succ_of_lt (hb.ids r hr)
    · rw [List.mem_singleton.1 hr]
      exact Nat.lt_succ_self _
  entry k := by
    rw [(new_request_sent h).out k, hb.entry k]
    unfold RPCCache.new_request
    simp only [Function.update_apply]
    by_cases hk : k = key <;> simp [hk]
  one k i j hi hj := by
    have hout : ∀ i, (i, key) ∉ s.request_collection := fun i hi => (hb.entry key).1 ⟨i, hi⟩ h
    have hnew : ∀ {i : Nat}, (i, k) ∈ (s.new_request key caller).request_collection →
        (i, k) ∈ s.request_collection ∨ i = s.sent ∧ k = key := by
      intro i hi
      simpa [RPCCache.new_request] using hi
    rcases hnew hi with hi' | ⟨rfl, rfl⟩
    · rcases hnew hj with hj' | ⟨rfl, rfl⟩
      · exact hb.one k i j hi' hj'
      · exact absurd hi' (hout i)
    · rcases hnew hj with hj' | ⟨rfl, _⟩
      · exact absurd hj' (hout j)
      · rfl
  filed r hr := by
    rcases List.mem_append.1 hr with hr | hr
    · exact hb.filed r hr
    · rw [List.mem_singleton.1 hr]
      exact hf
  callers k time froms hk := by
    change Function.update s.request_rpc key (some (s.now, [caller])) k = some (time, froms) at hk
    rw [Function.update_apply] at hk
    split at hk
    · simp only [Option.some.injEq, Prod.mk.injEq] at hk
      rw [← hk.2]
      exact List.nodup_singleton _
    · exact hb.callers k time froms hk
  fresh c hle := by
    obtain ⟨hg, hw⟩ := hb.fresh c hle
    refine ⟨hg, fun k hk => ?_⟩
    rcases ((new_request_sent h).waits c k).1 hk with hk | ⟨_, hcc⟩
    · exact hw k hk
    · have := hc c hcc
      change s.calls ≤ c at hle
      omega

theorem Book.join (hb : s.Book) {time : Nat} {set : List (Option Nat)}
    (h : s.request_rpc key = some (time, set))
    (hc : ∀ c, caller = some c → c < s.calls) : (s.join key caller time set).Book where
  distinct := hb.distinct
  ids := hb.ids
  entry k := by
    rw [(join_sent hb h).out k, hb.entry k]
    unfold RPCCache.join
    simp only [Function.update_apply]
    by_cases hk : k = key <;> simp [hk, h]
  one := hb.one
  filed := hb.filed
  callers k time' froms hk := by
    change Function.update s.request_rpc key (some (time, set.insert caller)) k = some
      (time', froms) at hk
    rw [Function.update_apply] at hk
    split at hk
    · simp only [Option.some.injEq, Prod.mk.injEq] at hk
      rw [← hk.2]
      exact (hb.callers key time set h).insert
    · exact hb.callers k time' froms hk
  fresh c hle := by
    obtain ⟨hg, hw⟩ := hb.fresh c hle
    refine ⟨hg, fun k hk => ?_⟩
    rcases ((join_sent hb h).waits c k).1 hk with hk | ⟨_, hcc⟩
    · exact hw k hk
    · have := hc c hcc
      change s.calls ≤ c at hle
      omega

/-- Sending for a caller, when no entry is too old. -/
theorem Book.send (hb : s.Book) (hf : (should_cache_method key).isSome = true)
    (hold : ∀ time froms, s.request_rpc key = some (time, froms) → s.now - time ≤ default_timeout)
    (hc : ∀ c, caller = some c → c < s.calls) :
    (s.send_request key caller).Book ∧ Sent s (s.send_request key caller) key caller := by
  rcases @send_cases s key caller hold with ⟨h, hs⟩ | ⟨time, set, h, hs⟩
  · rw [hs]
    exact ⟨hb.new_request h hf hc, new_request_sent h⟩
  · rw [hs]
    exact ⟨hb.join h hc, join_sent hb h⟩

/-- Others keep what they were promised. -/
theorem Sent.served (h : Sent s s' key caller) {c : Nat} (hne : caller ≠ some c) (hs : s.Served c) :
    s'.Served c := by
  have hw : ∀ k, s'.Waits c k ↔ s.Waits c k := fun k => by simp [h.waits, hne]
  rcases hs with ⟨hg, hn⟩ | ⟨hg, k, hk, ho, hu⟩
  · exact .inl ⟨by rw [h.got, hg], fun k => by rw [hw]; exact hn k⟩
  · exact .inr ⟨by rw [h.got, hg], k, (hw k).2 hk, (h.out k).2 (.inl ho), fun k' hk' => hu k' ((hw k').1 hk')⟩

/-! ## One event -/

/-- The books are kept, and every caller has what it was promised. -/
structure Kept (s : RPCCache) : Prop where
  book : s.Book
  served : ∀ c < s.calls, s.Served c

theorem Kept.init : Kept init := ⟨Book.init, nofun⟩

/-- A caller is registered, with nothing to its name. -/
theorem Book.call (hb : s.Book) : Book { s with calls := s.calls + 1 } :=
  { hb with fresh := fun c hc => hb.fresh c (Nat.le_of_succ_le hc) }

theorem Kept.send_call (h : Kept s) (hf : (should_cache_method key).isSome = true)
    (hold : ∀ time froms, s.request_rpc key = some (time, froms) → s.now - time ≤ default_timeout) :
    Kept ({ s with calls := s.calls + 1 }.send_request key (some s.calls)) := by
  obtain ⟨hb, hs⟩ := @Book.send { s with calls := s.calls + 1 } key (some s.calls) h.book.call hf hold
    (fun c hc => by rw [← Option.some.inj hc]; exact Nat.lt_succ_self _)
  refine ⟨hb, fun c hc => ?_⟩
  rw [hs.calls] at hc
  obtain ⟨hg, hw⟩ := h.book.fresh s.calls (Nat.le_refl _)
  by_cases he : c = s.calls
  · subst he
    refine .inr ⟨by rw [hs.got]; exact hg, key, (hs.waits _ _).2 (.inr ⟨rfl, rfl⟩), (hs.out key).2 (.inr rfl), ?_⟩
    intro k hk
    rcases (hs.waits _ _).1 hk with hk | ⟨hk, _⟩
    · exact absurd hk (hw k)
    · exact hk
  · refine hs.served (fun e => he (Option.some.inj e).symm) (h.served c ?_)
    change c < s.calls + 1 at hc
    omega

theorem Kept.reply_call (h : Kept s) (hb : s'.Book) (hcalls : s'.calls = s.calls + 1)
    (hg : ∀ c, s'.got c = s.got c)
    (hw : ∀ c k, s'.Waits c k ↔ s.Waits c k) (ho : ∀ k, s.Outstanding k → s'.Outstanding k) (ret : Ret) :
    Kept (s'.reply s.calls ret) := by
  have hgot : ∀ c, (s'.reply s.calls ret).got c = s.got c + if c = s.calls then 1 else 0 := by
    intro c
    rw [← hg c]
    unfold got reply
    rw [List.map_cons, List.count_cons]
    by_cases hc : c = s.calls
    · simp [hc]
    · simp [hc, Ne.symm hc]
  refine ⟨{ hb with fresh := fun c hc => ?_ }, fun c hc => ?_⟩
  · change s'.calls ≤ c at hc
    rw [hgot, if_neg (by omega)]
    exact ⟨(h.book.fresh c (by omega)).1, (hb.fresh c hc).2⟩
  · change c < s'.calls at hc
    by_cases he : c = s.calls
    · obtain ⟨hz, hn⟩ := h.book.fresh c (by omega)
      exact .inl ⟨by rw [hgot, hz, if_pos he], fun k hk => hn k ((hw c k).1 hk)⟩
    · rcases h.served c (by omega) with ⟨hone, hn⟩ | ⟨hz, k, hk, hout, hu⟩
      · exact .inl ⟨by rw [hgot, hone, if_neg he], fun k hk => hn k ((hw c k).1 hk)⟩
      · exact .inr ⟨by rw [hgot, hz, if_neg he], k, (hw c k).2 hk, ho k hout, fun k' hk' => hu k' ((hw c k').1 hk')⟩

theorem Kept.rpc (h : Kept s) {refresh : Bool} (hf : s.Fit (.rpc key refresh)) :
    Kept (s.rpc key refresh) := by
  unfold RPCCache.rpc
  dsimp only
  split
  · rename_i hc
    obtain ⟨hm, hold⟩ := hf fun r hr => nomatch hc.symm.trans hr
    exact h.send_call hm hold
  · rename_i r hc
    split
    · rename_i hr
      obtain ⟨hm, hold⟩ := hf fun r' hr' hs =>
        absurd hs (by rwa [← Option.some.inj (hc.symm.trans hr')])
      exact h.send_call hm hold
    · split
      · rename_i hr
        obtain ⟨hm, hold⟩ := hf fun _ _ _ => hr
        obtain ⟨hb, hs⟩ := @Book.send { s with calls := s.calls + 1 } key none h.book.call hm hold nofun
        exact h.reply_call hb hs.calls hs.got (fun c k => by rw [hs.waits]; simp [Waits])
          (fun k ho => (hs.out k).2 (.inl ho)) r
      · exact h.reply_call h.book.call rfl (fun _ => rfl) (fun _ _ => Iff.rfl) (fun _ ho => ho) r

theorem Kept.cache (h : Kept s) (cache : Key → Option Ret) : Kept { s with cache := cache } :=
    ⟨{ h.book with }, h.served⟩

theorem got_answer {froms : List (Option Nat)} (hn : froms.Nodup) (ret : Ret) (c : Nat) :
    ((froms.filterMap fun caller => caller.map fun c => (c, ret)).map Prod.fst).count c =
      if some c ∈ froms then 1 else 0 := by
  have hfst : ((froms.filterMap fun caller => caller.map fun c => (c, ret)).map Prod.fst) =
    froms.filterMap id := by
    rw [List.map_filterMap]
    congr 1
    funext caller
    cases caller <;> rfl
  have hnodup : (froms.filterMap id).Nodup :=
    hn.filterMap fun a b x ha hb => by rw [Option.mem_def] at ha hb; exact ha.trans hb.symm
  rw [hfst, hnodup.count]
  simp

/-- An answer serves exactly the callers of its entry. -/
theorem Kept.answer (h : Kept s) {id : Nat} (hm : (id, key) ∈ s.request_collection) (ret : Ret) :
    ∃ s', s.answer id key ret = some s' ∧ Kept s' := by
  have hb := h.book
  obtain ⟨⟨time, froms⟩, he⟩ := Option.ne_none_iff_exists'.1 ((hb.entry key).1 ⟨id, hm⟩)
  unfold RPCCache.answer
  rw [he]
  refine ⟨_, rfl, ?_⟩
  generalize hs' : RPCCache.mk _ _ _ _ _ _ _ = s'
  have hcol : ∀ i k, (i, k) ∈ s'.request_collection ↔ (i, k) ∈ s.request_collection ∧ i ≠ id := by
    intro i k
    rw [← hs']
    simp
  have hrpc : s'.request_rpc = Function.update s.request_rpc key none := by rw [← hs']
  have hwaits : ∀ c k, s'.Waits c k ↔ s.Waits c k ∧ k ≠ key := by
    intro c k
    unfold Waits
    rw [hrpc, Function.update_apply]
    by_cases hk : k = key <;> simp [hk]
  have hgot : ∀ c, s'.got c = (if some c ∈ froms then 1 else 0) + s.got c := by
    intro c
    rw [← hs']
    unfold got
    rw [List.map_append, List.count_append, got_answer (hb.callers key time froms he)]
  have hout : ∀ k, s'.Outstanding k ↔ s.Outstanding k ∧ k ≠ key := by
    intro k
    refine ⟨?_, ?_⟩
    · intro hx
      obtain ⟨i, hi⟩ := hx
      obtain ⟨hi, hne⟩ := (hcol i k).1 hi
      refine ⟨⟨i, hi⟩, fun hk => hne ?_⟩
      subst hk
      exact hb.one k i id hi hm
    · intro hx
      obtain ⟨⟨i, hi⟩, hk⟩ := hx
      refine ⟨i, (hcol i k).2 ⟨hi, fun hne => hk ?_⟩⟩
      rw [hne] at hi
      have := (Pairs.mem_iff_lookup hb.distinct).1 hi
      rw [(Pairs.mem_iff_lookup hb.distinct).1 hm] at this
      exact (Option.some.inj this).symm
  have hcalls : s'.calls = s.calls := by rw [← hs']
  have hsent : s'.sent = s.sent := by rw [← hs']
  have hat : ∀ c, s.Waits c key ↔ some c ∈ froms := by
    intro c
    refine ⟨?_, ?_⟩
    · intro hx
      obtain ⟨_, _, he', hc⟩ := hx
      rw [he] at he'
      rwa [(Prod.mk.inj (Option.some.inj he')).2]
    · exact fun hc => ⟨time, froms, he, hc⟩
  refine ⟨⟨?_, fun r hr => ?_, fun k => ?_, fun k i j hi hj => ?_, fun r hr => ?_, fun k t f hk => ?_, fun c hc => ?_⟩,
    fun c hc => ?_⟩
  · rw [← hs']
    exact hb.distinct.sublist (List.filter_sublist.map _)
  · rw [hsent]
    exact hb.ids r ((hcol r.1 r.2).1 hr).1
  · rw [hout, hb.entry, hrpc, Function.update_apply]
    by_cases hk : k = key <;> simp [hk]
  · exact hb.one k i j ((hcol i k).1 hi).1 ((hcol j k).1 hj).1
  · exact hb.filed r ((hcol r.1 r.2).1 hr).1
  · rw [hrpc, Function.update_apply] at hk
    split at hk
    · nomatch hk
    · exact hb.callers k t f hk
  · rw [hcalls] at hc
    obtain ⟨hz, hw⟩ := hb.fresh c hc
    refine ⟨?_, fun k hk => hw k ((hwaits c k).1 hk).1⟩
    rw [hgot, if_neg fun hc => hw key ((hat c).2 hc), hz]
  · rw [hcalls] at hc
    rcases h.served c hc with ⟨hone, hn⟩ | ⟨hz, k, hk, ho, hu⟩
    · refine .inl ⟨?_, fun k hk => hn k ((hwaits c k).1 hk).1⟩
      rw [hgot, if_neg fun hc => hn key ((hat c).2 hc), hone]
    · by_cases hkey : k = key
      · subst hkey
        refine .inl ⟨?_, fun k' hk' => ?_⟩
        · rw [hgot, if_pos ((hat c).1 hk), hz]
        · obtain ⟨hk', hne⟩ := (hwaits c k').1 hk'
          exact hne (hu k' hk')
      · refine .inr ⟨?_, k, (hwaits c k).2 ⟨hk, hkey⟩, (hout k).2 ⟨ho, hkey⟩, fun k' hk' =>
          hu k' ((hwaits c k').1 hk').1⟩
        rw [hgot, if_neg fun hc => hkey (hu key ((hat c).2 hc)).symm, hz]

theorem Kept.handle_info (h : Kept s) (id : Nat) (ret : Ret) (replied : Bool) :
    ∃ s', s.handle_info id ret replied = some s' ∧ Kept s' := by
  unfold RPCCache.handle_info
  cases hl : s.request_collection.lookup id with
  | none => exact ⟨s, rfl, h⟩
  | some key =>
    have hm := (Pairs.mem_iff_lookup h.book.distinct).2 hl
    dsimp only
    split
    · obtain ⟨m, hmethod⟩ := Option.isSome_iff_exists.1 (h.book.filed _ hm)
      dsimp only at hmethod
      rw [hmethod, Option.bind_eq_bind, Option.bind_some]
      split
      · exact (h.cache (Function.update s.cache key (some ret))).answer hm ret
      · exact h.answer hm ret
    · exact h.answer hm ret

theorem Kept.step (h : Kept s) {e : Event} (hf : s.Fit e) : ∃ s', s.step e = some s' ∧ Kept s' := by
  cases e with
  | rpc key refresh => exact ⟨_, rfl, h.rpc hf⟩
  | tick ms => exact ⟨_, rfl, ⟨{ h.book with }, h.served⟩⟩
  | response id ret => exact h.handle_info id ret true
  | error id reason => exact h.handle_info id (.error reason) false
  | evict k => exact ⟨_, rfl, h.cache _⟩

theorem Event.IsAnswer.fit {e : Event} (h : e.IsAnswer) : s.Fit e := by
  cases e with
  | response => trivial
  | error => trivial
  | rpc => exact h.elim
  | tick => trivial
  | evict => trivial

theorem Kept.answers (h : Kept s) : ∀ {answers : List Event}, (∀ e ∈ answers, e.IsAnswer) →
    ∃ s', s.run answers = some s' ∧ Kept s' := by
  intro answers
  induction answers generalizing s with
  | nil => exact fun _ => ⟨s, rfl, h⟩
  | cons e es ih =>
    intro ha
    obtain ⟨s₁, hs, h₁⟩ := h.step (ha e List.mem_cons_self).fit
    obtain ⟨s', hr, h'⟩ := ih h₁ fun x hx => ha x (List.mem_cons_of_mem e hx)
    exact ⟨s', by rw [run, hs, Option.bind_some, hr], h'⟩

/-! ## What goes wrong otherwise -/

/-- Two requests of one entry: the second answer finds none. -/
theorem answer_twice_raises {i j : Nat} (hd : (s.request_collection.map Prod.fst).Nodup)
    (hi : (i, key) ∈ s.request_collection) (hj : (j, key) ∈ s.request_collection) (hne : j ≠ i) (r : Nat) :
    s.run [.error i r, .error j r] = none := by
  have hli := (Pairs.mem_iff_lookup hd).1 hi
  cases he : s.request_rpc key with
  | none => simp [run, RPCCache.step, RPCCache.handle_info, hli, RPCCache.answer, he]
  | some p =>
    have hlj : (s.request_collection.filter fun r => r.1 ≠ i).lookup j = some key := by
      apply (Pairs.mem_iff_lookup (hd.sublist (List.filter_sublist.map _))).1
      simp [hj, hne]
    simp only [run, RPCCache.step, RPCCache.handle_info, hli, RPCCache.answer, he,
      Bool.false_eq_true, if_false,
      Option.bind_some, hlj, Function.update_self, Option.bind_none]

theorem unfit_sent (h : Kept s) {refresh : Bool} (hf : ¬ s.Fit (.rpc key refresh)) :
    (s.rpc key refresh).request_collection = s.request_collection ++ [(s.sent, key)] ∧
      (should_cache_method key = none ∨ s.Outstanding key) := by
  simp only [Fit, not_forall] at hf
  obtain ⟨hsends, hbad⟩ := hf
  have hsend : ∀ caller, ({ s with calls := s.calls + 1 }.send_request key caller).request_collection =
      s.request_collection ++ [(s.sent, key)] := by
    intro caller
    unfold send_request
    dsimp only
    cases he : s.request_rpc key with
    | none => rfl
    | some p =>
      have hold : default_timeout < s.now - p.1 := by
        by_contra hle
        refine hbad ⟨?_, fun time froms ht => ?_⟩
        · obtain ⟨id, hid⟩ := (h.book.entry key).2 (by rw [he]; exact Option.some_ne_none _)
          exact h.book.filed _ hid
        · rw [he] at ht
          rw [← (Prod.mk.inj (Option.some.inj ht)).1]
          omega
      simp only [if_pos hold]
      rfl
  refine ⟨?_, ?_⟩
  · unfold RPCCache.rpc
    dsimp only
    split
    · exact hsend _
    · rename_i r hc
      split
      · exact hsend _
      · rename_i hr
        rw [if_pos (hsends r hc (by simpa using hr))]
        exact hsend none
  · cases hm : should_cache_method key with
    | none => exact .inl rfl
    | some m =>
      right
      rw [h.book.entry key]
      intro he
      exact hbad ⟨by rw [hm]; rfl, fun time froms ht => nomatch he.symm.trans ht⟩

theorem unfit_raises (h : Kept s) {refresh : Bool} (hf : ¬ s.Fit (.rpc key refresh)) :
    ∃ answers : List Event, (∀ e ∈ answers, e.IsAnswer) ∧ (s.rpc key refresh).run answers = none := by
  obtain ⟨hcol, hcase⟩ := unfit_sent h hf
  have hd : ((s.rpc key refresh).request_collection.map Prod.fst).Nodup := by
    rw [hcol, List.map_append, List.nodup_append]
    refine ⟨h.book.distinct, List.nodup_singleton _, ?_⟩
    intro i hi j hj
    obtain ⟨r, hr, rfl⟩ := List.mem_map.1 hi
    have := h.book.ids r hr
    simp only [List.map_cons, List.map_nil, List.mem_singleton] at hj
    omega
  have hnew : (s.sent, key) ∈ (s.rpc key refresh).request_collection := by simp [hcol]
  rcases hcase with hm | ⟨id, hid⟩
  · refine ⟨[.response s.sent (.response 0)], by simp [Event.IsAnswer], ?_⟩
    simp only [run, RPCCache.step, RPCCache.handle_info, (Pairs.mem_iff_lookup hd).1 hnew, hm, if_true,
      Option.bind_eq_bind, Option.bind_none]
  · refine ⟨[.error s.sent 0, .error id 0], by simp [Event.IsAnswer], ?_⟩
    refine answer_twice_raises hd hnew (by simp [hcol, hid]) ?_ 0
    have := h.book.ids _ hid
    dsimp only at this
    omega

theorem holds_iff (h : Kept s) (es : List Event) : s.Holds es ↔ s.FitRun es := by
  induction es generalizing s with
  | nil =>
    refine ⟨fun _ => trivial, fun _ p q answers hp ha => ?_⟩
    rw [(List.append_eq_nil_iff.1 hp.symm).1, List.nil_append]
    obtain ⟨s', hr, h'⟩ := h.answers ha
    exact ⟨s', hr, h'.served⟩
  | cons e es ih =>
    refine ⟨?_, ?_⟩
    · intro hh
      have hfit : s.Fit e := by
        by_contra hf
        cases e with
        | rpc key refresh =>
          obtain ⟨answers, ha, hr⟩ := unfit_raises h hf
          obtain ⟨s', hs', _⟩ := hh [.rpc key refresh] es answers rfl ha
          rw [List.singleton_append, run, show s.step (.rpc key refresh) = some
            (s.rpc key refresh) from rfl,
            Option.bind_some, hr] at hs'
          nomatch hs'
        | _ => exact hf trivial
      refine ⟨hfit, fun s' hs => ?_⟩
      obtain ⟨s₁, hs₁, h₁⟩ := h.step hfit
      obtain rfl := Option.some.inj (hs₁.symm.trans hs)
      refine (ih h₁).1 fun p q answers hp ha => ?_
      obtain ⟨s₂, hr, hserved⟩ := hh (e :: p) q answers (by rw [hp, List.cons_append]) ha
      rw [List.cons_append, run, hs, Option.bind_some] at hr
      exact ⟨s₂, hr, hserved⟩
    · rintro ⟨hfit, hrest⟩ p q answers hp ha
      cases p with
      | nil =>
        obtain ⟨s', hr, h'⟩ := h.answers ha
        exact ⟨s', hr, h'.served⟩
      | cons x p =>
        obtain ⟨rfl, hp'⟩ := List.cons.inj hp
        obtain ⟨s₁, hs₁, h₁⟩ := h.step hfit
        obtain ⟨s', hr, hserved⟩ := (ih h₁).2 (hrest s₁ hs₁) p q answers hp' ha
        exact ⟨s', by rw [List.cons_append, run, hs₁, Option.bind_some, hr], hserved⟩

/-- A run of calls, clock, answers and evictions in any order. -/
theorem requests_iff (es : List Event) : init.Holds es ↔ init.FitRun es := holds_iff Kept.init es

/-- A request sent again after the timeout, then both answers. -/
theorem renewed_request_raises : init.run [.rpc ("eth_blockNumber", []) false, .tick 25001,
    .rpc ("eth_blockNumber", []) false, .response 1 (.response 7), .response 0 (.response 7)] = none := by
  decide

end RPCCache
end Diode.L6.Rpc
