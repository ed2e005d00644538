import Diode.L6Network.Nearest

/-!
# The search

A search has three workers, each starting with an empty reply. A reply makes its
worker idle and adds nodes to those that can be asked; the nearest of them are
given to the idle workers. It is over when no worker is busy and there is no node
to ask, or 200 ms after the first value.

A worker that exits is replaced, but if it was idle it stays in the list of idle
workers: the replacement is one too many, and a query given to the dead worker is
lost.

* `search_right`: in every run without such an exit, without a value that does not
  decode and without a queried node hidden by its twin, each node is asked once, no
  worker gets lost, the search ends with one answer, and the answer is the newest
  value.
-/
namespace Diode.L6.KademliaSearch
open Diode.Core Diode.L6.KBuckets

def alpha : Nat := 3

def max_oid : Nat := 2 ^ 256

/-- What a search is for, and of the rest of the node: the ring key of a node, the
block number of a value (`none` where decoding raises), and the order in which a
map gives its values. -/
structure Params (ι : Type) where
  ring_key : ι → Word
  key : Word
  k : Nat
  block_number : Bytes → Option Int
  order : { f : List ι → List ι // ∀ l, (f l).Perm l }

structure Answer (ι : Type) where
  value : Option Bytes
  nodes : List ι

/-- The search with its workers and its history. `outstanding` has the workers that
are to reply, with the node they were given; `tasks` are alive. -/
structure Search (ι : Type) where
  tasks : List Nat
  min_distance : Nat
  queryable : List ι
  visited : List ι
  waiting : List Nat
  queried : List ι
  best : Option Bytes
  finisher : Bool
  next : Nat
  outstanding : List (Nat × Option ι)
  answers : List (Answer ι)
  stopped : Bool
  values : List Bytes
  heard : List ι
  replies : Nat

/-- What a query comes back with. -/
inductive Ret (ι : Type) where
  | nodes (nodes : List ι)
  | value (value : Bytes)

inductive Event (ι : Type) where
  | kadret (task : Nat) (ret : Ret ι)
  | exit (task : Nat)
  | finish

section
variable {ι : Type} (P : Params ι)

/-- mirrors lib/kademliasearch.ex:38-49 -/
def find_nodes (nearest : List ι) : Search ι :=
  { tasks := [0, 1, 2], min_distance := max_oid, queryable := nearest, visited := [], waiting :=
    [], queried := [],
    best := none, finisher := false, next := 3, outstanding := [(0, none), (1, none), (2, none)],
      answers := [],
    stopped := false, values := [], heard := nearest, replies := 0 }

/-- mirrors lib/kbuckets.ex:185-190 -/
def unique (list : List ι) : List ι :=
  P.order.1 ((list.foldl (fun (acc : SMap Word ι) node => acc.put (P.ring_key node) node) .empty).entries.map Prod.snd)

/-- mirrors lib/kademliasearch.ex:58-76 -/
def finish (s : Search ι) : Search ι :=
  { s with answers := s.answers ++ [⟨s.best, unique P (s.visited ++ s.queried)⟩], stopped := true }

/-- `min_distance` once `node` has replied. -/
def nearer (s : Search ι) (node : Option ι) : Nat :=
  min (match node with
    | none => max_oid
    | some node => distance (P.ring_key node) P.key) s.min_distance

/-- The nodes that can be asked once `node` has replied with `nodes`. -/
def candidates (s : Search ι) (nodes : List ι) (node : Option ι) : List ι :=
  nearest_n P.ring_key
    ((unique P (s.queryable ++ nodes)).filter fun x =>
      distance P.key (P.ring_key x) < nearer P s node && !member? P.ring_key s.queried (P.ring_key x))
    P.key P.k

/-- The nearest candidates go to the idle workers. A message to a worker that is no
more is lost.
mirrors lib/kademliasearch.ex:121-152 -/
def assign (s : Search ι) (nodes : List ι) (node : Option ι) (task : Nat) : Search ι :=
  let waiting := task :: s.waiting
  let visited := match node with
    | none => s.visited
    | some node => unique P (s.visited ++ [node])
  let queryable := candidates P s nodes node
  let sends := min queryable.length waiting.length
  let nexts := queryable.take sends
  let sent := (nexts.zip (waiting.take sends)).filterMap fun x => if x.2 ∈ s.tasks then some
    (x.2, some x.1) else none
  { s with
    min_distance := nearer P s node
    queryable := queryable.drop sends
    visited
    waiting := waiting.drop sends
    queried := s.queried ++ nexts
    outstanding := s.outstanding ++ sent }

/-- mirrors lib/kademliasearch.ex:109-159 -/
def kadret (s : Search ι) (nodes : List ι) (node : Option ι) (task : Nat) : Search ι :=
  let s := assign P s nodes node task
  if s.queryable.isEmpty && s.waiting.length = alpha && !s.finisher then finish P s else s

/-- mirrors lib/kademliasearch.ex:78-107 -/
def kadret_value (s : Search ι) (value : Bytes) (node : Option ι) (task : Nat) : Option (Search ι) := do
  let obj_block_num ← P.block_number value
  let best ← match s.best with
    | none => some value
    | some best => (P.block_number best).map fun n => if n > obj_block_num then best else value
  return kadret P { s with best := some best, finisher := true, values := s.values ++ [value] } [] node task

/-- A worker replies to its start with no nodes. -/
def returned (node : Option ι) (ret : Ret ι) : Ret ι :=
  match node with
  | none => .nodes []
  | some _ => ret

/-- The search stops where it raises. mirrors lib/kademliasearch.ex:51-56 -/
def step (s : Search ι) (e : Event ι) : Search ι :=
  if s.stopped then s
  else match e with
    | .finish => if s.finisher then finish P s else s
    | .exit task =>
      if task ∈ s.tasks then
        { s with
          tasks := s.next :: s.tasks.filter fun pid => pid ≠ task
          outstanding := (s.next, none) :: s.outstanding.filter fun x => x.1 ≠ task
          next := s.next + 1 }
      else s
    | .kadret task ret =>
      match s.outstanding.find? fun x => x.1 = task with
      | none => s
      | some (_, node) =>
        let s := { s with outstanding := s.outstanding.filter fun x => x.1 ≠ task, replies :=
          s.replies + 1 }
        match returned node ret with
        | .nodes nodes => kadret P { s with heard := s.heard ++ nodes } nodes node task
        | .value value => (kadret_value P s value node task).getD { s with stopped := true }

end

/-! ## Candidates -/

section
variable {ι : Type} {P : Params ι} {s t : Search ι} {x : ι} {l : List ι} {node : Option ι} {task : Nat}

theorem unique_entries : ∀ (l : List ι) (acc : SMap Word ι), (∀ e ∈ acc.entries, P.ring_key e.2 = e.1) →
    ∀ e ∈ (l.foldl (fun (acc : SMap Word ι) node => acc.put (P.ring_key node) node) acc).entries,
      P.ring_key e.2 = e.1 ∧ (e ∈ acc.entries ∨ e.2 ∈ l)
  | [], acc, h, e, he => ⟨h e he, .inl he⟩
  | x :: l, acc, h, e, he => by
    have hput : ∀ e ∈ (acc.put (P.ring_key x) x).entries, e = (P.ring_key x, x) ∨
      e ∈ acc.entries := fun e he =>
      Assoc.mem_put he
    obtain ⟨hkey, hmem⟩ := unique_entries l _ (fun e he => by
      rcases hput e he with rfl | he
      · rfl
      · exact h e he) e he
    refine ⟨hkey, ?_⟩
    rcases hmem with hmem | hmem
    · rcases hput e hmem with rfl | hmem
      · exact .inr List.mem_cons_self
      · exact .inl hmem
    · exact .inr (List.mem_cons_of_mem _ hmem)

theorem mem_unique (h : x ∈ unique P l) : x ∈ l := by
  obtain ⟨e, he, rfl⟩ := List.mem_map.1 ((P.order.2 _).mem_iff.1 h)
  rcases (unique_entries l .empty nofun e he).2 with hmem | hmem
  · cases hmem
  · exact hmem

/-- `unique` has a key once. -/
theorem unique_nodup (P : Params ι) (l : List ι) : ((unique P l).map P.ring_key).Nodup := by
  refine ((P.order.2 _).map P.ring_key).nodup_iff.2 ?_
  rw [List.map_map]
  have hkeys := unique_entries (P := P) l .empty nofun
  generalize l.foldl (fun (acc : SMap Word ι) node => acc.put (P.ring_key node) node)
    .empty = m at hkeys
  have hmap : m.entries.map (P.ring_key ∘ Prod.snd) = m.entries.map Prod.fst :=
    List.map_congr_left fun e he => (hkeys e he).1
  rw [hmap]
  exact List.pairwise_map.2 (m.sorted.imp fun h => ne_of_lt h)

theorem nearest_perm (P : Params ι) (l : List ι) (k : Word) : (nearest P.ring_key l k).Perm l :=
    List.perm_insertionSort ..

theorem mem_candidates {nodes : List ι} (h : x ∈ candidates P s nodes node) :
    (x ∈ s.queryable ∨ x ∈ nodes) ∧ distance P.key (P.ring_key x) < nearer P s node ∧
      member? P.ring_key s.queried (P.ring_key x) = false := by
  have hfilter := (nearest_perm P _ _).mem_iff.1 (List.mem_of_mem_take h)
  obtain ⟨hunique, hcond⟩ := List.mem_filter.1 hfilter
  rw [Bool.and_eq_true, decide_eq_true_eq, Bool.not_eq_true'] at hcond
  exact ⟨List.mem_append.1 (mem_unique hunique), hcond⟩

theorem candidates_nodup (P : Params ι) (s : Search ι) (nodes : List ι) (node : Option ι) :
    ((candidates P s nodes node).map P.ring_key).Nodup := by
  unfold candidates nearest_n
  refine List.Nodup.sublist ((List.take_sublist ..).map _) ?_
  rw [((nearest_perm P _ _).map P.ring_key).nodup_iff]
  exact (unique_nodup P _).sublist ((List.filter_sublist).map _)

/-- A queried node that no twin hides is no candidate. -/
theorem candidates_new {nodes : List ι} (h : x ∈ candidates P s nodes node)
    (hhidden : ¬Hidden P.ring_key s.queried (P.ring_key x)) :
    P.ring_key x ∉ s.queried.map P.ring_key := by
  intro hmem
  obtain ⟨y, hy, hyx⟩ := List.mem_map.1 hmem
  have hmember := (found_iff.2 hhidden).member.2 ⟨y, hy, hyx⟩
  rw [(mem_candidates h).2.2] at hmember
  cases hmember

/-! ## The invariant -/

/-- The value is the newest of those that arrived. -/
def Newest (P : Params ι) (values : List Bytes) (value : Bytes) : Prop :=
  value ∈ values ∧ ∃ n, P.block_number value = some n ∧ ∀ v ∈ values, ∃ m,
    P.block_number v = some m ∧ m ≤ n

/-- The best is the newest value, if there was one. -/
def Best (P : Params ι) (values : List Bytes) (best : Option Bytes) : Prop :=
  match best with
  | none => values = []
  | some best => Newest P values best

/-- What holds while a reply is being handled: `extra` is its worker. -/
structure Core (P : Params ι) (s : Search ι) (extra : List Nat) : Prop where
  once : (s.queried.map P.ring_key).Nodup
  tasks : s.tasks.Perm (extra ++ s.waiting ++ s.outstanding.map Prod.fst)
  nodup : s.tasks.Nodup
  below : ∀ pid ∈ s.tasks, pid < s.next
  workers : s.tasks.length = alpha
  work : s.replies + s.outstanding.length = alpha + s.queried.length
  queried : s.queried ⊆ s.heard
  queryable : s.queryable ⊆ s.heard
  best : Best P s.values s.best
  finisher : s.finisher = true ↔ s.values ≠ []

/-- The search goes on with a worker or the timer to come, or it is over with its
answer given. -/
def Ends (P : Params ι) (s : Search ι) : Prop :=
  (s.stopped = false ∧ s.answers = [] ∧ (s.outstanding ≠ [] ∨ s.finisher = true)) ∨
    (s.stopped = true ∧ s.answers = [⟨s.best, unique P (s.visited ++ s.queried)⟩])

structure Inv (P : Params ι) (s : Search ι) : Prop where
  core : Core P s []
  ends : Ends P s

theorem Core.finish (h : Core P s []) (hrun : s.answers = []) : Inv P (finish P s) := by
  refine ⟨⟨h.once, h.tasks, h.nodup, h.below, h.workers, h.work, h.queried, h.queryable, h.best,
    h.finisher⟩, .inr ⟨rfl, ?_⟩⟩
  unfold KademliaSearch.finish
  rw [hrun]
  rfl

/-- Each of the nodes goes to a worker that is alive. -/
theorem sent_eq {nexts : List ι} {pids tasks : List Nat} (h : pids ⊆ tasks) :
    ((nexts.zip pids).filterMap fun (x : ι × Nat) => if x.2 ∈ tasks then some
      (x.2, some x.1) else none) =
      (nexts.zip pids).map fun x => (x.2, some x.1) := by
  rw [← List.filterMap_eq_map']
  refine List.filterMap_congr fun x hx => ?_
  rw [if_pos (h (List.of_mem_zip hx).2)]

/-- How many nodes are given away. -/
def sends (P : Params ι) (s : Search ι) (nodes : List ι) (node : Option ι) : Nat :=
  min (candidates P s nodes node).length (s.waiting.length + 1)

/-- The queries that go out, one to a worker. -/
theorem Core.sent (h : Core P s [task]) (nodes : List ι) (node : Option ι) :
    ∃ sent : List (Nat × Option ι), (assign P s nodes node task).outstanding = s.outstanding ++ sent ∧
      sent.map Prod.fst = (task :: s.waiting).take (sends P s nodes node) := by
  have hpids : (task :: s.waiting).take (sends P s nodes node) ⊆ s.tasks := fun pid hpid => by
    refine h.tasks.mem_iff.2 (List.mem_append_left _ ?_)
    exact List.mem_of_mem_take hpid
  refine ⟨_, congrArg (s.outstanding ++ ·) (sent_eq hpids), ?_⟩
  have hlen : ((task :: s.waiting).take (sends P s nodes node)).length ≤
      ((candidates P s nodes node).take (sends P s nodes node)).length := by
    simp only [List.length_take, List.length_cons, sends]
    omega
  rw [List.map_map]
  exact List.map_snd_zip hlen

theorem Core.assign {nodes : List ι} (h : Core P s [task]) (hnodes : nodes ⊆ s.heard)
    (hnew : ∀ x ∈ candidates P s nodes node, P.ring_key x ∉ s.queried.map P.ring_key) :
    Core P (assign P s nodes node task) [] := by
  obtain ⟨sent, hout, hpids⟩ := h.sent nodes node
  have hcand : candidates P s nodes node ⊆ s.heard := fun x hx => by
    rcases (mem_candidates hx).1 with hx | hx
    · exact h.queryable hx
    · exact hnodes hx
  have hsent : sent.length = sends P s nodes node := by
    rw [← List.length_map Prod.fst, hpids, List.length_take, sends]
    simp
  refine ⟨?_, ?_, h.nodup, h.below, h.workers, ?_, ?_, ?_, h.best, h.finisher⟩
  · change ((s.queried ++ (candidates P s nodes node).take (sends P s nodes node)).map P.ring_key).Nodup
    rw [List.map_append, List.nodup_append]
    refine ⟨h.once, (candidates_nodup P s nodes node).sublist ((List.take_sublist ..).map _),
      fun a ha b hb heq => ?_⟩
    obtain ⟨x, hx, rfl⟩ := List.mem_map.1 hb
    exact hnew x (List.mem_of_mem_take hx) (heq ▸ ha)
  · rw [hout, List.map_append, hpids]
    change s.tasks.Perm ([] ++ (task :: s.waiting).drop (sends P s nodes node) ++ _)
    refine h.tasks.trans ?_
    have hsplit := List.take_append_drop (sends P s nodes node) (task :: s.waiting)
    rw [List.nil_append, List.singleton_append]
    nth_rewrite 1 [← hsplit]
    rw [List.append_assoc]
    exact List.perm_append_comm.trans (List.append_assoc .. ▸ .refl _)
  · rw [hout, List.length_append, hsent]
    change s.replies + _ = alpha + (s.queried ++ (candidates P s nodes node).take
      (sends P s nodes node)).length
    have := h.work
    rw [List.length_append, List.length_take]
    unfold sends
    omega
  · exact List.append_subset.2 ⟨h.queried, fun x hx => hcand (List.mem_of_mem_take hx)⟩
  · exact fun x hx => hcand (List.mem_of_mem_drop hx)

/-- If nobody is busy after a reply, the search is over or the timer runs. -/
theorem Core.idle {nodes : List ι} (h : Core P s [task])
    (h' : Core P (KademliaSearch.assign P s nodes node task) [])
    (hout : (KademliaSearch.assign P s nodes node task).outstanding = []) :
    (KademliaSearch.assign P s nodes node task).queryable = [] ∧
      (KademliaSearch.assign P s nodes node task).waiting.length = alpha := by
  obtain ⟨sent, hsent, hpids⟩ := h.sent nodes node
  have hnone : sent = [] := (List.append_eq_nil_iff.1 (hsent.symm.trans hout)).2
  have hzero : sends P s nodes node = 0 := by
    have hlen := congrArg List.length hpids
    rw [hnone, List.length_take] at hlen
    simp only [List.map_nil, List.length_nil, List.length_cons] at hlen
    unfold sends at *
    omega
  refine ⟨?_, ?_⟩
  · have hempty : (candidates P s nodes node).length = 0 := by
      unfold sends at hzero
      omega
    change (candidates P s nodes node).drop _ = []
    rw [List.eq_nil_of_length_eq_zero hempty, List.drop_nil]
  · have htasks := h'.tasks.length_eq
    rw [hout] at htasks
    have := h'.workers
    simp at htasks
    omega

theorem Core.kadret {nodes : List ι} (h : Core P s [task]) (hrun : s.stopped = false)
    (hans : s.answers = [])
    (hnodes : nodes ⊆ s.heard)
    (hnew : ∀ x ∈ candidates P s nodes node, P.ring_key x ∉ s.queried.map P.ring_key) :
      Inv P (kadret P s nodes node task) := by
  have hassign := h.assign hnodes hnew
  unfold KademliaSearch.kadret
  dsimp only
  split
  · exact hassign.finish hans
  · rename_i hcond
    refine ⟨hassign, .inl ⟨hrun, hans, ?_⟩⟩
    by_contra hnot
    rw [not_or, not_not, Bool.not_eq_true] at hnot
    obtain ⟨hqueryable, hwaiting⟩ := h.idle hassign hnot.1
    exact hcond (by simp [hqueryable, hwaiting, hnot.2])

/-! ## Steps -/

theorem Newest.of_le {values : List Bytes} {best value : Bytes} {n m : Int} (h : Newest P values best)
    (hbest : P.block_number best = some n) (hvalue : P.block_number value = some m) (hle : m ≤ n) :
    Newest P (values ++ [value]) best := by
  refine ⟨List.mem_append_left _ h.1, n, hbest, fun v hv => ?_⟩
  obtain ⟨n', hn', hall⟩ := h.2
  obtain rfl : n' = n := Option.some.inj (hn'.symm.trans hbest)
  rcases List.mem_append.1 hv with hv | hv
  · exact hall v hv
  · rw [List.mem_singleton.1 hv]
    exact ⟨m, hvalue, hle⟩

theorem Newest.of_ge {values : List Bytes} {best value : Bytes} {n m : Int} (h : Newest P values best)
    (hbest : P.block_number best = some n) (hvalue : P.block_number value = some m) (hle : n ≤ m) :
    Newest P (values ++ [value]) value := by
  refine ⟨List.mem_append_right _ List.mem_cons_self, m, hvalue, fun v hv => ?_⟩
  obtain ⟨n', hn', hall⟩ := h.2
  obtain rfl : n' = n := Option.some.inj (hn'.symm.trans hbest)
  rcases List.mem_append.1 hv with hv | hv
  · obtain ⟨k, hk, hkn⟩ := hall v hv
    exact ⟨k, hk, hkn.trans hle⟩
  · rw [List.mem_singleton.1 hv]
    exact ⟨m, hvalue, Int.le_refl m⟩

/-- A value that decodes makes a new best of the two. -/
theorem kadret_value_spec (node : Option ι) (task : Nat) {value : Bytes} {m : Int}
    (hbest : Best P s.values s.best)
    (hvalue : P.block_number value = some m) :
    ∃ best, Newest P (s.values ++ [value]) best ∧ kadret_value P s value node task =
      some (kadret P { s with best := some best, finisher := true, values := s.values ++ [value] }
        [] node task) := by
  unfold kadret_value
  rw [hvalue]
  cases hs : s.best with
  | none =>
    rw [hs] at hbest
    refine ⟨value, ?_, rfl⟩
    rw [show s.values = [] from hbest]
    refine ⟨List.mem_cons_self, m, hvalue, fun v hv => ?_⟩
    rw [List.mem_singleton.1 hv]
    exact ⟨m, hvalue, Int.le_refl m⟩
  | some best =>
    rw [hs] at hbest
    have hnewest : Newest P s.values best := hbest
    obtain ⟨n, hn, -⟩ := hnewest.2
    by_cases hlt : n > m
    · exact ⟨best, hnewest.of_le hn hvalue hlt.le, by simp [hn, hlt]⟩
    · exact ⟨value, hnewest.of_ge hn hvalue (not_lt.1 hlt), by simp [hn, hlt]⟩

theorem Core.value {value best : Bytes} (h : Core P s [task])
    (hbest : Newest P (s.values ++ [value]) best) :
    Core P { s with best := some best, finisher := true, values := s.values ++ [value] } [task] := by
  refine ⟨h.once, h.tasks, h.nodup, h.below, h.workers, h.work, h.queried, h.queryable, hbest, ?_⟩
  exact iff_of_true rfl (List.append_ne_nil_of_right_ne_nil _ nofun)

/-- What may come: no exit of an idle worker, no value that does not decode, and
none of the nodes near enough to be asked was queried and is hidden by its twin. -/
def Meets (P : Params ι) (s : Search ι) : Event ι → Prop
  | .finish => True
  | .exit task => task ∉ s.waiting
  | .kadret task ret => ∀ node, (task, node) ∈ s.outstanding →
    match returned node ret with
    | .nodes nodes => ∀ x ∈ s.queryable ++ nodes, distance P.key (P.ring_key x) < nearer P s node →
        ¬Hidden P.ring_key s.queried (P.ring_key x)
    | .value value => (P.block_number value).isSome ∧ ∀ x ∈ s.queryable, distance P.key
        (P.ring_key x) < nearer P s node →
        ¬Hidden P.ring_key s.queried (P.ring_key x)

theorem candidates_fresh {nodes : List ι} (h : ∀ x ∈ s.queryable ++ nodes, distance P.key
    (P.ring_key x) < nearer P s node →
    ¬Hidden P.ring_key s.queried (P.ring_key x)) :
    ∀ x ∈ candidates P s nodes node, P.ring_key x ∉ s.queried.map P.ring_key := by
  intro x hx
  obtain ⟨hmem, hnear, -⟩ := mem_candidates hx
  exact candidates_new hx (h x (List.mem_append.2 hmem) hnear)

/-- Without a worker that is in the list once. -/
theorem perm_filter {β : Type} {l : List (Nat × β)} (hl : (l.map Prod.fst).Nodup)
    (htask : task ∈ l.map Prod.fst) :
    (l.map Prod.fst).Perm (task :: (l.filter fun x => x.1 ≠ task).map Prod.fst) := by
  have hfilter : (l.filter fun x => x.1 ≠ task).map Prod.fst = (l.map Prod.fst).erase task := by
    rw [hl.erase_eq_filter, List.filter_map]
    congr 1
    exact List.filter_congr fun x _ => by by_cases hx : x.1 = task <;> simp [hx]
  rw [hfilter]
  exact List.perm_cons_erase htask

theorem Core.pids (h : Core P s []) : (s.waiting ++ s.outstanding.map Prod.fst).Nodup :=
    h.tasks.nodup_iff.1 h.nodup

theorem Core.length_filter (h : Core P s []) (htask : task ∈ s.outstanding.map Prod.fst) :
    (s.outstanding.filter fun x => x.1 ≠ task).length + 1 = s.outstanding.length := by
  have hlen := (perm_filter (List.nodup_append.1 h.pids).2.1 htask).length_eq
  simpa using hlen.symm

/-- A worker of the outstanding ones replies. -/
theorem Core.replied (h : Core P s []) (heard : List ι) (htask : task ∈ s.outstanding.map Prod.fst) :
    Core P { s with
      outstanding := s.outstanding.filter fun x => x.1 ≠ task
      replies := s.replies + 1
      heard := s.heard ++ heard } [task] := by
  refine ⟨h.once, ?_, h.nodup, h.below, h.workers, ?_, ?_, ?_, h.best, h.finisher⟩
  · refine h.tasks.trans ?_
    rw [List.nil_append]
    refine ((perm_filter (List.nodup_append.1 h.pids).2.1 htask).append_left _).trans ?_
    exact List.perm_middle
  · have := h.work
    have := h.length_filter htask
    dsimp only
    omega
  · exact fun x hx => List.mem_append_left _ (h.queried hx)
  · exact fun x hx => List.mem_append_left _ (h.queryable hx)

/-- A busy worker exits, and another one starts. -/
theorem Core.exit (h : Core P s []) (hmem : task ∈ s.tasks) (hidle : task ∉ s.waiting) :
    Core P { s with
      tasks := s.next :: s.tasks.filter fun pid => pid ≠ task
      outstanding := (s.next, none) :: s.outstanding.filter fun x => x.1 ≠ task
      next := s.next + 1 } [] := by
  have htask : task ∈ s.outstanding.map Prod.fst := by
    have hall := h.tasks.mem_iff.1 hmem
    rw [List.nil_append, List.mem_append] at hall
    exact hall.resolve_left hidle
  have herase : s.tasks.filter (fun pid => pid ≠ task) = s.tasks.erase task := by
    rw [h.nodup.erase_eq_filter]
    exact List.filter_congr fun x _ => by by_cases hx : x = task <;> simp [hx]
  have hperm : s.tasks.Perm
    (task :: (s.waiting ++ (s.outstanding.filter fun x => x.1 ≠ task).map Prod.fst)) := by
    refine h.tasks.trans ?_
    rw [List.nil_append]
    exact ((perm_filter (List.nodup_append.1 h.pids).2.1 htask).append_left _).trans List.perm_middle
  have hrest := ((List.perm_cons_erase hmem).symm.trans hperm).cons_inv
  refine ⟨h.once, ?_, ?_, ?_, ?_, ?_, h.queried, h.queryable, h.best, h.finisher⟩
  · dsimp only
    rw [herase, List.nil_append, List.map_cons]
    exact (hrest.cons _).trans List.perm_middle.symm
  · refine List.nodup_cons.2 ⟨fun hin => ?_, h.nodup.filter _⟩
    exact Nat.lt_irrefl _ (h.below _ (List.mem_of_mem_filter hin))
  · intro pid hpid
    rcases List.mem_cons.1 hpid with rfl | hpid
    · exact Nat.lt_succ_self _
    · exact Nat.lt_succ_of_lt (h.below pid (List.mem_of_mem_filter hpid))
  · dsimp only
    rw [herase, List.length_cons, List.length_erase_of_mem hmem, ← h.workers]
    have := List.length_pos_of_mem hmem
    omega
  · have := h.work
    have := h.length_filter htask
    dsimp only
    rw [List.length_cons]
    omega

theorem Inv.step (h : Inv P s) {e : Event ι} (he : Meets P s e) : Inv P (step P s e) := by
  unfold KademliaSearch.step
  split
  · exact h
  rename_i hstopped
  obtain ⟨hrun, hans, hends⟩ | ⟨hstop, -⟩ := h.ends
  swap
  · exact absurd hstop hstopped
  cases e with
  | finish =>
    dsimp only
    split
    · exact h.core.finish hans
    · exact h
  | exit task =>
    dsimp only
    split
    · rename_i hmem
      exact ⟨h.core.exit hmem he, .inl ⟨hrun, hans, .inl nofun⟩⟩
    · exact h
  | kadret task ret =>
    dsimp only
    split
    · exact h
    · rename_i pid node hfind
      obtain rfl : pid = task := by simpa using List.find?_some hfind
      have hmem := List.mem_of_find?_eq_some hfind
      have htask : pid ∈ s.outstanding.map Prod.fst := List.mem_map.2 ⟨_, hmem, rfl⟩
      have hmeets := he node hmem
      split
      · rename_i nodes hret
        rw [hret] at hmeets
        exact (h.core.replied nodes htask).kadret hrun hans (List.subset_append_right ..)
          (candidates_fresh hmeets)
      · rename_i value hret
        rw [hret] at hmeets
        obtain ⟨m, hm⟩ := Option.isSome_iff_exists.1 hmeets.1
        have hcore := h.core.replied [] htask
        rw [List.append_nil] at hcore
        obtain ⟨best, hbest, hspec⟩ := kadret_value_spec node pid hcore.best hm
        rw [hspec]
        refine (hcore.value hbest).kadret hrun hans (List.nil_subset _) (candidates_fresh ?_)
        rw [List.append_nil]
        exact hmeets.2

/-! ## Runs -/

/-- The states of the runs whose events all meet the condition. -/
inductive Reached (P : Params ι) (nearest : List ι) : Search ι → Prop
  | find_nodes : Reached P nearest (find_nodes nearest)
  | step {s : Search ι} {e : Event ι} (h : Reached P nearest s) (he : Meets P s e) :
      Reached P nearest (step P s e)

theorem Inv.find_nodes (P : Params ι) (nearest : List ι) : Inv P (find_nodes nearest) := by
  have htasks : ([0, 1, 2] : List Nat).Nodup ∧ ∀ pid ∈ [0, 1, 2], pid < 3 := by decide
  refine ⟨⟨.nil, .refl _, htasks.1, htasks.2, rfl, rfl, nofun, fun _ hx => hx, rfl, ?_⟩, ?_⟩
  · exact iff_of_false nofun (not_not.2 rfl)
  exact .inl ⟨rfl, rfl, .inl nofun⟩

theorem Reached.inv {nearest : List ι} (h : Reached P nearest s) : Inv P s := by
  induction h with
  | find_nodes => exact .find_nodes P nearest
  | step _ he ih => exact ih.step he

/-- What is wanted of a search. -/
structure Right (P : Params ι) (s : Search ι) : Prop where
  /-- No node is asked twice. -/
  once : (s.queried.map P.ring_key).Nodup
  /-- No worker gets lost, and there is none too many. -/
  workers : s.waiting.length + s.outstanding.length = alpha
  /-- The search is over when it has given its one answer, and before that a worker
  or the timer is to come. -/
  answered : (s.stopped = false ∧ s.answers = [] ∧ (s.outstanding ≠ [] ∨ s.finisher = true)) ∨
    (s.stopped = true ∧ ∃ a, s.answers = [a])
  /-- There are no more replies than workers and nodes. -/
  bounded : s.replies ≤ alpha + s.heard.length
  /-- The answer has the newest value, if one arrived. -/
  best : ∀ a ∈ s.answers, match a.value with
    | none => s.values = []
    | some value => Newest P s.values value

theorem Inv.right (h : Inv P s) : Right P s := by
  refine ⟨h.core.once, ?_, ?_, ?_, fun a ha => ?_⟩
  · have htasks := h.core.tasks.length_eq
    have := h.core.workers
    simp at htasks
    omega
  · rcases h.ends with hrun | ⟨hstop, hans⟩
    · exact .inl hrun
    · exact .inr ⟨hstop, _, hans⟩
  · have hle : s.queried.length ≤ s.heard.length :=
      ((List.Nodup.of_map _ h.core.once).subperm h.core.queried).length_le
    have := h.core.work
    omega
  · rcases h.ends with ⟨-, hans, -⟩ | ⟨-, hans⟩
    · rw [hans] at ha
      cases ha
    · rw [hans] at ha
      rw [List.mem_singleton.1 ha]
      exact h.core.best

/-- A search is right at every point of every run in which no idle worker exits, each
value decodes, and no node near enough was queried and is hidden by its twin. -/
theorem search_right (P : Params ι) (nearest : List ι) (h : Reached P nearest s) :
    Right P s := h.inv.right

end

/-! ## Two runs -/

/-- Nodes that are their ring keys, and values with their length as block number. -/
def trial : Params Word := ⟨id, 0, 20, fun v => some v.length, id, fun _ => .refl _⟩

/-- A worker that was given a node exits. -/
theorem search_right_exit :
    Right trial (step trial (step trial (find_nodes [5]) (.kadret 0 (.nodes []))) (.exit 0)) := by
  refine search_right trial [5] (.step (.step .find_nodes fun node _ => ?_) ?_)
  · have hret : returned node (.nodes ([] : List Word)) = .nodes [] := by cases node <;> rfl
    rw [hret]
    rintro x - - ⟨before, y, after, h, -⟩
    simp [find_nodes] at h
  · show 0 ∉ (step trial (find_nodes [5]) (.kadret 0 (.nodes []))).waiting
    decide

/-- The idle worker 1 exits, and with its replacement the search is over before the
one node that was asked has replied. -/
theorem idle_exit_ends_early :
    let s := [Event.kadret 0 (.nodes []), .kadret 1 (.nodes []), .exit 1, .kadret 3 (.nodes []),
      .kadret 2 (.nodes [])].foldl
      (step trial) (find_nodes [5])
    s.stopped = true ∧ s.outstanding = [(0, some 5)] ∧ ¬Right trial s := by
  refine ⟨by decide, by decide, fun h => ?_⟩
  exact absurd h.workers (by decide)

end Diode.L6.KademliaSearch
