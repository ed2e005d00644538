import Diode.Core.Bytes
import Diode.Core.SMap

/-!
# The object store

`KademliaSql.maybe_update_object` keeps one signed server object for each key
and replaces it by one with a greater block number. The block number is looked
up in the extra fields of an object, where it is taken for 0 when it is not
there. A tuple of six elements, the form before there were extra fields, has
its signature in the place of the extra fields, so that asking for its block
number raises.

* `object_store_iff`: the store holds the greatest block number received for
  each key, in every state of a run, exactly when no call that should replace
  an object compares one of these forms.
* `run_own`: in every run an object is stored under its own key only.
-/
namespace Diode.L6.ObjectStore
open Diode.Core

/-! ## Server objects -/

/-- The value of a field; a list is one of extra fields, each a name and an
integer. -/
inductive Field where
  | bin (b : Bytes)
  | int (n : Int)
  | atom (name : Bytes)
  | list (extra : List (Bytes × Int))
  deriving DecidableEq

/-- The tuple `{:server, value1, ..., valueN, signature}`. -/
structure Server where
  values : List Field
  signature : Bytes
  deriving DecidableEq

/-- The elements behind the tag. -/
def elems (serv : Server) : List Field := serv.values ++ [.bin serv.signature]

def tuple_size (serv : Server) : Nat := (elems serv).length + 1

/-- mirrors lib/object/server.ex:77-83 -/
def extra (serv : Server) : Field :=
  if 5 < tuple_size serv then (elems serv).getD 4 (.list []) else .list []

/-- `"block"`. -/
def block : Bytes := [98, 108, 111, 99, 107]

/-- `none` is a raise: only a list can be searched. An integer that was found
is no false value, and neither is the default.
mirrors lib/object/server.ex:41-48 -/
def block_number (serv : Server) : Option Int :=
  match extra serv with
  | .list extra =>
    some ((extra.findSome? fun field => if field.1 = block then some field.2 else none).getD 0)
  | _ => none

/-- The block number an object stands for: that of a form without extra fields
is 0. -/
def blockOf (serv : Server) : Int := (block_number serv).getD 0

/-- Signatures, hashes and the external form `β` of an object. -/
structure Platform (β : Type) where
  message : List Field → Bytes
  recover : (signature message : Bytes) → Option Addr
  hash : Addr → Word
  encode : Server → β
  decode : β → Option Server
  decode_encode : ∀ serv, decode (encode serv) = some serv

/-! ## The store -/

variable {β : Type} (pf : Platform β)

/-- mirrors lib/object/server.ex:33-39 -/
def key (serv : Server) : Option Addr := pf.recover serv.signature (pf.message serv.values)

/-- mirrors lib/object/object.ex:77-88 -/
def key_hash (serv : Server) : Option Word := (key pf serv).map pf.hash

abbrev Table (β : Type) := SMap Word β

/-- `Object.block_number(existing_object) < Object.block_number(object)`. -/
def outdated (existing_object object : Server) : Option Bool := do
  let old ← block_number existing_object
  let new ← block_number object
  return old < new

/-- The second clause. `none` is a raise, before anything is written.
mirrors lib/model/kademliasql.ex:39-56 -/
def update_tuple (table : Table β) (key : Option Word) (object : Server) : Option (Table β) :=
  match key_hash pf object with
  | none => none
  | some hkey =>
    if key = none ∨ key = some hkey then
      match table.get hkey with
      | none => some (table.put hkey (pf.encode object))
      | some existing => do
        let existing_object ← pf.decode existing
        let newer ← outdated existing_object object
        return if newer then table.put hkey (pf.encode object) else table
    else some table

/-- An object as it comes in. -/
inductive Payload (β : Type) where
  | encoded (b : β)
  | tuple (object : Server)

structure Call (β : Type) where
  key : Option Word
  payload : Payload β

/-- `Object.decode!` of the first clause. -/
def Payload.object : Payload β → Option Server
  | encoded b => pf.decode b
  | tuple object => some object

/-- mirrors lib/model/kademliasql.ex:34-37 -/
def maybe_update_object (table : Table β) (call : Call β) : Option (Table β) :=
  (call.payload.object pf).bind (update_tuple pf table call.key)

/-- The store after a call; one that raises leaves it as it is. -/
def step (table : Table β) (call : Call β) : Table β := (maybe_update_object pf table call).getD table

def run (calls : List (Call β)) : Table β := calls.foldl (step pf) .empty

/-! ## What the store is for -/

/-- The key and the object a call offers: the object's own key, which is also
the one that is asked for, if any is. -/
def offer (call : Call β) : Option (Word × Server) :=
  (call.payload.object pf).bind fun object => (key_hash pf object).bind fun hkey =>
    if call.key = none ∨ call.key = some hkey then some (hkey, object) else none

/-- The object stored under a key. -/
def stored (table : Table β) (k : Word) : Option Server := (table.get k).bind pf.decode

def blockAt (table : Table β) (k : Word) : Option Int := (stored pf table k).map blockOf

/-- The objects received for a key, in order. -/
def received (calls : List (Call β)) (k : Word) : List Server :=
  (calls.filterMap (offer pf)).filterMap fun p => if p.1 = k then some p.2 else none

/-- What is stored is an object under its own key. -/
def Own (table : Table β) : Prop :=
  ∀ k b, table.get k = some b → ∃ object, b = pf.encode object ∧ key_hash pf object = some k

/-- The store holds the greatest block number received for each key. -/
def Greatest (calls : List (Call β)) : Prop :=
  ∀ k, blockAt pf (run pf calls) k = ((received pf calls k).map blockOf).max?

/-- In every state of the run the objects are under their own keys, no call
decreases a block number, and what is stored has the greatest one received. -/
structure Right (calls : List (Call β)) : Prop where
  own : ∀ before, before <+: calls → Own pf (run pf before)
  grows : ∀ before call, before ++ [call] <+: calls →
    ∀ k old, blockAt pf (run pf before) k = some old →
      ∃ new, blockAt pf (run pf (before ++ [call])) k = some new ∧ old ≤ new
  greatest : ∀ before, before <+: calls → Greatest pf before

/-- Nodes that received the same objects. -/
def Same (calls calls' : List (Call β)) : Prop :=
  (calls.filterMap (offer pf)).Perm (calls'.filterMap (offer pf))

/-- The object on offer and the one it is compared with have block numbers, or
it has to be dropped anyway. -/
def Comparable (table : Table β) (call : Call β) : Prop :=
  ∀ k object existing, offer pf call = some (k, object) → stored pf table k = some existing →
    (block_number existing).isSome ∧ (block_number object).isSome ∨ blockOf object ≤ blockOf existing

/-- Every call of the run meets this. -/
def Along (calls : List (Call β)) : Prop :=
  ∀ before call, before ++ [call] <+: calls → Comparable pf (run pf before) call

/-! ## One call -/

/-- Which of two objects stays. -/
def kept (existing : Option Server) (object : Server) : Server :=
  match existing with
  | none => object
  | some existing => if outdated existing object = some true then object else existing

variable {pf} {table : Table β} {call : Call β} {k hkey : Word} {object existing : Server}

theorem outdated_of_isSome (h : (block_number existing).isSome ∧ (block_number object).isSome) :
    outdated existing object = some (decide (blockOf existing < blockOf object)) := by
  obtain ⟨old, h1⟩ := Option.isSome_iff_exists.1 h.1
  obtain ⟨new, h2⟩ := Option.isSome_iff_exists.1 h.2
  unfold outdated blockOf
  rw [h1, h2]
  rfl

theorem outdated_of_not (h : ¬((block_number existing).isSome ∧ (block_number object).isSome)) :
    outdated existing object = none := by
  unfold outdated
  cases h1 : block_number existing with
  | none => rfl
  | some old =>
    cases h2 : block_number object with
    | none => rfl
    | some new => exact absurd ⟨by rw [h1]; rfl, by rw [h2]; rfl⟩ h

/-- The greater object stays, if the two can be compared. -/
theorem blockOf_kept_iff : blockOf (kept (some existing) object) =
      max (blockOf existing) (blockOf object) ↔
    (block_number existing).isSome ∧ (block_number object).isSome ∨
      blockOf object ≤ blockOf existing := by
  unfold kept
  dsimp only
  by_cases h : (block_number existing).isSome ∧ (block_number object).isSome
  · rw [outdated_of_isSome h]
    refine iff_of_true ?_ (Or.inl h)
    by_cases hlt : blockOf existing < blockOf object
    · rw [decide_eq_true hlt, if_pos rfl]
      omega
    · rw [decide_eq_false hlt, if_neg (by decide)]
      omega
  · rw [outdated_of_not h, if_neg (by decide)]
    constructor
    · intro hmax
      right
      omega
    · rintro (hsome | hle)
      · exact absurd hsome h
      · omega

theorem le_blockOf_kept : blockOf existing ≤ blockOf (kept (some existing) object) := by
  by_cases h : (block_number existing).isSome ∧ (block_number object).isSome
  · rw [blockOf_kept_iff.2 (Or.inl h)]
    omega
  · unfold kept
    dsimp only
    rw [outdated_of_not h, if_neg (by decide)]

/-- A call that offers nothing changes nothing. -/
theorem step_of_none (h : offer pf call = none) : step pf table call = table := by
  unfold step maybe_update_object
  unfold offer at h
  cases hd : call.payload.object pf with
  | none => rfl
  | some object =>
    rw [hd, Option.bind_some] at h
    rw [Option.bind_some]
    unfold update_tuple
    cases hk : key_hash pf object with
    | none => rfl
    | some hkey =>
      rw [hk, Option.bind_some] at h
      dsimp only
      split at h
      · nomatch h
      · rename_i hne
        rw [if_neg hne]
        rfl

/-- What a call offers is an object with its own key. -/
theorem offer_some (h : offer pf call = some (k, object)) : key_hash pf object = some k ∧
    maybe_update_object pf table call = update_tuple pf table call.key object ∧
    (call.key = none ∨ call.key = some k) := by
  unfold offer at h
  unfold maybe_update_object
  cases hd : call.payload.object pf with
  | none =>
    rw [hd] at h
    nomatch h
  | some o =>
    rw [hd, Option.bind_some] at h
    cases hk : key_hash pf o with
    | none =>
      rw [hk] at h
      nomatch h
    | some hkey =>
      rw [hk, Option.bind_some] at h
      split at h
      · rename_i hkeys
        cases h
        exact ⟨hk, rfl, hkeys⟩
      · nomatch h

/-- **One call** on a table of decodable objects writes the object that stays. -/
theorem step_of_offer (ho : Own pf table) (h : offer pf call = some (k, object)) :
    step pf table call = table.put k (pf.encode (kept (stored pf table k) object)) := by
  obtain ⟨hk, hupdate, hkeys⟩ := @offer_some β pf table call k object h
  unfold step
  rw [hupdate]
  unfold update_tuple stored
  rw [hk]
  dsimp only
  rw [if_pos hkeys]
  cases hb : table.get k with
  | none => rfl
  | some b =>
    obtain ⟨existing, rfl, -⟩ := ho k b hb
    have hsame : table.put k (pf.encode existing) = table := table.put_get_self hb
    simp only [Option.bind_some, pf.decode_encode, kept, Option.bind_eq_bind]
    cases outdated existing object with
    | none => exact hsame.symm
    | some newer =>
      cases newer with
      | false => exact hsame.symm
      | true => rfl

theorem key_kept (ho : Own pf table) (h : offer pf call = some (k, object)) :
    key_hash pf (kept (stored pf table k) object) = some k := by
  obtain ⟨hk, -, -⟩ := @offer_some β pf table call k object h
  unfold stored
  cases hb : table.get k with
  | none => exact hk
  | some b =>
    obtain ⟨existing, rfl, hown⟩ := ho k b hb
    rw [Option.bind_some, pf.decode_encode]
    unfold kept
    dsimp only
    split
    · exact hk
    · exact hown

theorem own_step (ho : Own pf table) (call : Call β) : Own pf (step pf table call) := by
  cases h : offer pf call with
  | none =>
    rw [step_of_none h]
    exact ho
  | some p =>
    rw [step_of_offer ho h]
    intro j b hj
    rw [SMap.get_put] at hj
    split at hj
    · rename_i e
      cases hj
      subst e
      exact ⟨_, rfl, key_kept ho h⟩
    · exact ho j b hj

theorem stored_step (ho : Own pf table) (h : offer pf call = some (k, object)) (j : Word) :
    stored pf (step pf table call) j =
      if k = j then some (kept (stored pf table k) object) else stored pf table j := by
  rw [step_of_offer ho h, stored, SMap.get_put]
  split
  · exact pf.decode_encode _
  · rfl

/-! ## A run -/

theorem run_snoc (calls : List (Call β)) (call : Call β) :
    run pf (calls ++ [call]) = step pf (run pf calls) call := List.foldl_concat ..

/-- **Objects are stored under their own keys**, whatever is received. -/
theorem run_own (calls : List (Call β)) : Own pf (run pf calls) := by
  induction calls using List.reverseRecOn with
  | nil => exact fun k b h => by cases h
  | append_singleton calls call ih =>
    rw [run_snoc]
    exact own_step ih call

/-- A call never decreases a block number. -/
theorem step_grows (ho : Own pf table) {old : Int} (h : blockAt pf table k = some old) :
    ∃ new, blockAt pf (step pf table call) k = some new ∧ old ≤ new := by
  cases hoffer : offer pf call with
  | none =>
    rw [step_of_none hoffer]
    exact ⟨old, h, Int.le_refl _⟩
  | some p =>
    unfold blockAt at h ⊢
    rw [stored_step ho hoffer]
    split
    · rename_i e
      subst e
      obtain ⟨existing, hs, rfl⟩ := Option.map_eq_some_iff.1 h
      rw [hs]
      exact ⟨_, rfl, le_blockOf_kept⟩
    · exact ⟨old, h, Int.le_refl _⟩

theorem received_snoc (calls : List (Call β)) (call : Call β) (k : Word) :
    received pf (calls ++ [call]) k = received pf calls k ++
      ((offer pf call).toList.filterMap fun p => if p.1 = k then some p.2 else none) := by
  unfold received
  rw [List.filterMap_append, List.filterMap_append]
  cases h : offer pf call <;> simp [h]

theorem received_of_none (h : offer pf call = none) (calls : List (Call β)) :
    received pf (calls ++ [call]) k = received pf calls k := by
  rw [received_snoc, h]
  exact List.append_nil _

theorem received_of_offer (h : offer pf call = some (hkey, object)) (calls : List (Call β)) :
    received pf (calls ++ [call]) k = received pf calls k ++ if hkey = k then [object] else [] := by
  rw [received_snoc, h]
  split
  · rename_i e
    simp [e]
  · rename_i e
    simp [e]

theorem max?_snoc (l : List Int) (n : Int) : (l ++ [n]).max? = some (l.max?.elim n (max · n)) := by
  cases l with
  | nil => rfl
  | cons m l =>
    rw [List.cons_append, List.max?_cons', List.foldl_concat, List.max?_cons', Option.elim_some]

/-- Under the offered key the greatest block number of all is the greater one
of two. -/
theorem blockAt_step_iff (ho : Own pf table) (h : offer pf call = some (k, object)) :
    blockAt pf (step pf table call) k =
        some ((blockAt pf table k).elim (blockOf object) (max · (blockOf object))) ↔
      Comparable pf table call := by
  unfold blockAt Comparable
  rw [stored_step ho h, if_pos rfl, Option.map_some, h]
  cases hs : stored pf table k with
  | none =>
    refine iff_of_true rfl fun j object' existing hj hex => ?_
    cases hj
    rw [hs] at hex
    nomatch hex
  | some existing =>
    rw [Option.map_some, Option.elim_some, Option.some.injEq, blockOf_kept_iff]
    constructor
    · intro hc j object' existing' hj hex
      cases hj
      rw [hs] at hex
      cases hex
      exact hc
    · intro hc
      exact hc k object existing rfl hs

/-- What one more call makes of it. -/
theorem greatest_snoc {calls : List (Call β)} (hg : Greatest pf calls) :
    Greatest pf (calls ++ [call]) ↔ Comparable pf (run pf calls) call := by
  unfold Greatest
  rw [run_snoc]
  cases hoffer : offer pf call with
  | none =>
    refine iff_of_true (fun k => ?_) fun k object existing h => ?_
    · rw [step_of_none hoffer, received_of_none hoffer]
      exact hg k
    · rw [hoffer] at h
      nomatch h
  | some p =>
    obtain ⟨hkey, object⟩ := p
    have ho : Own pf (run pf calls) := run_own calls
    have hat : ∀ k, ((received pf (calls ++ [call]) k).map blockOf).max? = if hkey = k then
        some ((blockAt pf (run pf calls) k).elim (blockOf object) (max · (blockOf object)))
        else blockAt pf (run pf calls) k := fun k => by
      rw [received_of_offer hoffer, hg k]
      split
      · rw [List.map_append, List.map_singleton, max?_snoc]
      · rw [List.append_nil]
    rw [← blockAt_step_iff ho hoffer]
    constructor
    · intro h
      rw [h, hat, if_pos rfl]
    · intro h k
      rw [hat]
      split
      · rename_i e
        rw [← e, h]
      · rename_i e
        unfold blockAt
        rw [stored_step ho hoffer, if_neg e]

theorem greatest_iff (calls : List (Call β)) :
    (∀ before, before <+: calls → Greatest pf before) ↔ Along pf calls := by
  constructor
  · intro h before call hp
    exact (greatest_snoc (h before ((List.prefix_append ..).trans hp))).1 (h _ hp)
  · intro h before hp
    induction before using List.reverseRecOn with
    | nil => exact fun k => rfl
    | append_singleton before call ih =>
      exact (greatest_snoc (ih ((List.prefix_append ..).trans hp))).2 (h before call hp)

theorem right_iff (calls : List (Call β)) : Right pf calls ↔ Along pf calls := by
  rw [← greatest_iff]
  refine ⟨fun h => h.greatest, fun h => ⟨fun before _ => run_own before, ?_, h⟩⟩
  intro before call _ k old hold
  rw [run_snoc]
  exact step_grows (run_own before) hold

theorem max?_perm {l m : List Int} (h : l.Perm m) : l.max? = m.max? := by
  cases hm : m.max? with
  | none =>
    obtain rfl := List.max?_eq_none_iff.1 hm
    rw [h.eq_nil]
    rfl
  | some n =>
    obtain ⟨hmem, hle⟩ := List.max?_eq_some_iff.1 hm
    exact List.max?_eq_some_iff.2 ⟨h.mem_iff.2 hmem, fun b hb => hle b (h.mem_iff.1 hb)⟩

/-- **The object store** grows to the greatest block number of each key, and two
nodes agree on it, in the runs that compare no object without a block number
with one it would have to replace or be replaced by. -/
theorem object_store_iff (pf : Platform β) (calls : List (Call β)) :
    (Right pf calls ↔ Along pf calls) ∧ (Along pf calls → ∀ calls', Along pf calls' →
      Same pf calls calls' → ∀ k, blockAt pf (run pf calls) k = blockAt pf (run pf calls') k) := by
  refine ⟨right_iff calls, fun h calls' h' hsame k => ?_⟩
  have hperm : ((received pf calls k).map blockOf).Perm ((received pf calls' k).map blockOf) :=
    (hsame.filterMap _).map _
  rw [((right_iff calls).2 h).greatest calls List.prefix_rfl k,
    ((right_iff calls').2 h').greatest calls' List.prefix_rfl k, max?_perm hperm]

/-- One signer, and objects that are their own external form. -/
def oneSigner : Platform Server where
  message _ := []
  recover _ _ := some 1
  hash a := a.setWidth 256
  encode serv := serv
  decode := some
  decode_encode _ := rfl

/-- Without extra fields. -/
def classic : Call Server := ⟨none, .tuple ⟨[.bin [104], .int 1, .int 2, .bin [97]], [0]⟩⟩

/-- The same node at block 100. -/
def current : Call Server :=
  ⟨none, .tuple ⟨[.bin [104], .int 1, .int 2, .bin [97], .list [(block, 100)]], [0]⟩⟩

/-- An object without extra fields is never replaced, so the order counts. -/
theorem classic_stays : Same oneSigner [classic, current] [current, classic] ∧
    blockAt oneSigner (run oneSigner [classic, current]) 1 = some 0 ∧
    blockAt oneSigner (run oneSigner [current, classic]) 1 = some 100 ∧
    ¬Right oneSigner [classic, current] := by
  refine ⟨List.Perm.swap .., by decide, by decide, fun h => ?_⟩
  have hg := h.greatest [classic, current] List.prefix_rfl 1
  revert hg
  decide

end Diode.L6.ObjectStore
