import Diode.L3State.DifferenceExact
import Diode.L3State.Native

/-!
# Differences as Elixir terms, and their replay

`Chain.State.difference` turns the tuples of `account_map_difference_full` into
reports, and `Chain.State.apply_difference` replays them on a clone.

`difference_round_trip` says exactly when replaying the difference of `A` and
`B` on a clone of `A` gives `B`: every account of `A` is one of `B`, where two
leaves agree the records do, and the native calls on the way are sound. A
difference has no way to say that an account is gone, so an account that `B` lacks
comes back with its fields zeroed (`deleted_account_comes_back`).
-/
namespace Diode.L3
open Diode.Core Diode.L1.Ext Function Heap

/-- `%Chain.State{}`.
mirrors lib/chain/state.ex:14-16 -/
structure ChainState where
  accounts : Nat
  hash : Option Word
  deriving DecidableEq

/-- A field of a side, as the reports compare it. -/
inductive FieldValue where
  | num (n : Nat)
  | bytes (b : Bytes)
  deriving DecidableEq

def FieldValue.term : FieldValue → Term
  | num n => .int n
  | bytes b => .bin b

/-- mirrors lib/chain/state.ex:179-189 -/
def sideField : Option DiffSide → Field → FieldValue
  | none, .nonce => .num 0
  | none, .balance => .num 0
  | none, .code => .bytes []
  | some s, .nonce => .num s.nonce.toNat
  | some s, .balance => .num s.balance.toNat
  | some s, .code => .bytes s.code

/-- mirrors lib/chain/state.ex:168-177 -/
def putSideFieldDiff (a b : Option DiffSide) (report : List (Term × Term)) (field : Field) :
    List (Term × Term) :=
  if sideField a field = sideField b field then report
  else report ++ [(.atom field.atom, .tuple [(sideField a field).term, (sideField b field).term])]

def storageValue : Option Word → Term
  | none => .atom .nil
  | some w => .ofWord w

/-- mirrors lib/caccount_map.ex:130-137 -/
def decodeStorageDiff (storage : List (Bytes × Option Word × Option Word)) : List (Term × Term) :=
  storage.map fun s => (.bin s.1, .tuple [storageValue s.2.1, storageValue s.2.2])

section
variable (sha : Bytes → Word)

/-- `nil` stands for the root of an empty storage.
mirrors lib/chain/state.ex:150-166 -/
def decodeDiffRoot (root : Option Word) : Term := .ofWord (root.getD (Tree.empty.rootHash sha))

/-- The report of one address.
mirrors lib/chain/state.ex:121-141 -/
def report (d : DiffEntry) : List (Term × Term) :=
  let fields := [Field.nonce, .balance, .code].foldl (putSideFieldDiff d.a d.b) []
  let storage := decodeStorageDiff d.storage
  if storage.isEmpty then fields
  else fields ++ [(.atom .state, .map storage),
    (.atom .root_hash, .tuple [decodeDiffRoot sha d.root_a, decodeDiffRoot sha d.root_b])]

def reportItem (d : DiffEntry) : Term := .tuple [.ofAddr d.addr, .map (report sha d)]

namespace ChainState

/-- mirrors lib/chain/state.ex:191-194 -/
def clone (n : Native) (s : ChainState) : Option (ChainState × Native) :=
  match n.step sha (.clone s.accounts) with
  | some (n, .handle c) => some (⟨c, none⟩, n)
  | _ => none

/-- mirrors lib/chain/state.ex:113-148 -/
def difference (n : Native) (a b : ChainState) : Option (Term × Native) :=
  match n.step sha (.difference a.accounts b.accounts) with
  | some (n, .difference l) => some (.ofList (l.map (reportItem sha)), n)
  | _ => none

/-- A fault raises.
mirrors lib/chain/state.ex:202-210 -/
def applyDifference (n : Native) (s : ChainState) (delta : Term) : Option (ChainState × Native) :=
  match n.step sha (.applyDifference s.accounts delta) with
  | some (n, .ok) => some (⟨s.accounts, none⟩, n)
  | _ => none

/-- mirrors lib/chain/state.ex:72-78 -/
def hashOf (n : Native) (s : ChainState) : Option (Term × Native) :=
  match s.hash with
  | none =>
    match n.step sha (.ask s.accounts .rootHash) with
    | some (n, .answer (.term t)) => some (t, n)
    | _ => none
  | some w => some (.ofWord w, n)

/-- `apply_difference(clone(a), difference(a, b))`, and the hashes of the result
and of `b`. -/
def replay (n : Native) (a b : ChainState) : Option (ChainState × Native × Term × Term) := do
  let (c, n) ← clone sha n a
  let (delta, n) ← difference sha n a b
  let (c, n) ← applyDifference sha n c delta
  let (x, n) ← hashOf sha n c
  let (y, n) ← hashOf sha n b
  some (c, n, x, y)

/-- The native calls that `replay` makes: the difference is that of the first heap. -/
def replayOps (h : Heap) (a b : ChainState) : List Op :=
  let delta := ((h.step sha (.clone a.accounts)).1.differenceFull sha a.accounts b.accounts).2.elim (.atom .nil)
    fun l => .ofList (l.map (reportItem sha))
  [.clone a.accounts, .difference a.accounts b.accounts, .applyDifference h.nextMap delta,
    .ask h.nextMap .rootHash] ++ if b.hash = none then [.ask b.accounts .rootHash] else []

end ChainState
end

variable {sha : Bytes → Word} {v w : View}

/-! ## Reading a report -/

theorem lookup_append (l m : List (Term × Term)) (key : Atom) :
    Term.lookup (l ++ m) key = (Term.lookup l key).or (Term.lookup m key) := by
  induction l with
  | nil => rfl
  | cons p l ih =>
    obtain ⟨t, x⟩ := p
    cases t with
    | atom a =>
      simp only [List.cons_append, Term.lookup]
      split
      · rfl
      · exact ih
    | _ => exact ih

theorem lookup_field (a b : Option DiffSide) (l : List (Term × Term)) (f g : Field) :
    Term.lookup (putSideFieldDiff a b l f) g.atom = (Term.lookup l g.atom).or
      (if f = g ∧ sideField a f ≠ sideField b f then some
        (.tuple [(sideField a f).term, (sideField b f).term]) else none) := by
  unfold putSideFieldDiff
  by_cases h : sideField a f = sideField b f
  · rw [if_pos h, if_neg fun e => e.2 h, Option.or_none]
  · rw [if_neg h, lookup_append]
    by_cases e : f = g
    · subst e
      rw [if_pos ⟨rfl, h⟩]
      simp only [Term.lookup, if_true]
    · have ha : f.atom ≠ g.atom := by
        cases f <;> cases g <;> first | exact absurd rfl e | nofun
      rw [if_neg fun e' => e e'.1]
      simp only [Term.lookup, if_neg ha]

theorem lookup_fields_state (a b : Option DiffSide) (l : List (Term × Term)) (f : Field)
    (h : Term.lookup l .state = none) : Term.lookup (putSideFieldDiff a b l f) .state = none := by
  unfold putSideFieldDiff
  split
  · exact h
  · rw [lookup_append, h]
    cases f <;> rfl

/-- What a report says about a field: both values, where they differ. -/
theorem lookup_report (d : DiffEntry) (f : Field) : Term.lookup (report sha d) f.atom =
    if sideField d.a f = sideField d.b f then none
    else some (.tuple [(sideField d.a f).term, (sideField d.b f).term]) := by
  have hfields : Term.lookup ([Field.nonce, .balance, .code].foldl (putSideFieldDiff d.a d.b) []) f.atom =
      if sideField d.a f = sideField d.b f then none
      else some (.tuple [(sideField d.a f).term, (sideField d.b f).term]) := by
    simp only [List.foldl_cons, List.foldl_nil, lookup_field, Term.lookup, Option.none_or]
    cases f <;> simp
  unfold report
  dsimp only
  split
  · exact hfields
  · rw [lookup_append, hfields]
    cases f <;> simp [Term.lookup, Field.atom]

theorem lookup_report_state (d : DiffEntry) : Term.lookup (report sha d) .state =
    if d.storage = [] then none else some (.map (decodeStorageDiff d.storage)) := by
  have hfields : Term.lookup ([Field.nonce, .balance, .code].foldl (putSideFieldDiff d.a d.b) [])
    .state = none :=
    lookup_fields_state _ _ _ _ (lookup_fields_state _ _ _ _ (lookup_fields_state _ _ _ _ rfl))
  unfold report decodeStorageDiff
  dsimp only
  cases d.storage with
  | nil => exact hfields
  | cons s l =>
    rw [if_neg nofun, if_neg nofun, lookup_append, hfields]
    rfl

/-! ## Replaying a report -/

/-- The edits of one slot of a report. -/
def slotEdit (a : Addr) (s : Bytes × Option Word × Option Word) : Edit :=
  .slot a s.1 (some (s.2.1.getD 0)) (s.2.2.getD 0)

theorem getStorageValue_storageValue (x : Option Word) : (storageValue x).getStorageValue = some
    (x.getD 0) := by
  cases x with
  | none => rfl
  | some w => exact Term.getStorageValue_ofWord w

theorem storageEdits_decode (a : Addr) (l : List (Bytes × Option Word × Option Word)) :
    storageEdits a (.map (decodeStorageDiff l)) = l.map (slotEdit a) := by
  unfold storageEdits decodeStorageDiff Term.entries?
  dsimp only
  rw [List.flatMap_map]
  induction l with
  | nil => rfl
  | cons s l ih =>
    have hs : slotEdits a (.bin s.1, .tuple [storageValue s.2.1, storageValue s.2.2]) =
      [slotEdit a s] := by
      unfold slotEdits Term.bin? Term.pair?
      dsimp only
      rw [getStorageValue_storageValue, getStorageValue_storageValue]
      rfl
    rw [List.flatMap_cons, hs, ih]
    rfl

/-- The edit of one field. -/
def fieldEdit (a : Addr) (x y : DiffSide) : Field → Edit
  | .nonce => .nonce a x.nonce y.nonce
  | .balance => .balance a x.balance y.balance
  | .code => .code a x.code y.code

/-- An absent side counts as the default account. -/
def sideOr (x : Option DiffSide) : DiffSide := x.getD ⟨0, 0, []⟩

theorem fieldEdits_term (a : Addr) (x y : Option DiffSide) (f : Field) :
    fieldEdits a f (.tuple [(sideField x f).term, (sideField y f).term]) =
      [fieldEdit a (sideOr x) (sideOr y) f] := by
  have hn : ∀ n : Word, (Term.int n.toNat).getBalance = some n := Term.getBalance_int
  cases f with
  | nonce =>
    have hx : ∀ x : Option DiffSide, (sideField x .nonce).term = .int (sideOr x).nonce.toNat :=
      fun x => by cases x <;> rfl
    unfold fieldEdits Term.pair?
    dsimp only
    rw [hx, hx, Term.getUint64_int, Term.getUint64_int]
    rfl
  | balance =>
    have hx : ∀ x : Option DiffSide, (sideField x .balance).term = .int (sideOr x).balance.toNat :=
      fun x => by cases x <;> rfl
    unfold fieldEdits Term.pair?
    dsimp only
    rw [hx, hx, hn, hn]
    rfl
  | code =>
    have hx : ∀ x : Option DiffSide, (sideField x .code).term = .bin (sideOr x).code := fun x => by
      cases x <;> rfl
    unfold fieldEdits Term.pair?
    dsimp only
    rw [hx, hx]
    rfl

theorem fieldEdit_of_eq {x y : Option DiffSide} {f : Field} (h : sideField x f = sideField y f) :
    match f with
    | .nonce => (sideOr x).nonce = (sideOr y).nonce
    | .balance => (sideOr x).balance = (sideOr y).balance
    | .code => (sideOr x).code = (sideOr y).code := by
  cases f <;> cases x <;> cases y <;> simp only [sideField, FieldValue.num.injEq,
    FieldValue.bytes.injEq] at h
  all_goals first | rfl | exact h | exact h.symm | exact BitVec.eq_of_toNat_eq h

/-- The edits of a tuple. -/
def entryEdits (d : DiffEntry) : List Edit :=
  [.ensure d.addr] ++ d.storage.map (slotEdit d.addr) ++
    [Field.nonce, .balance, .code].flatMap (fun f =>
      if sideField d.a f = sideField d.b f then [] else [fieldEdit d.addr (sideOr d.a)
        (sideOr d.b) f]) ++ [.seal d.addr]

theorem itemEdits_reportItem (d : DiffEntry) : itemEdits (reportItem sha d) = entryEdits d := by
  unfold itemEdits reportItem entryEdits Term.pair?
  dsimp only
  rw [Term.getAddress_ofAddr]
  dsimp only [Term.entries?, Term.mapGetAtom]
  simp only [Option.bind_some, lookup_report, lookup_report_state]
  have hstate : (if d.storage = [] then none else some
    (Term.map (decodeStorageDiff d.storage))).elim [] (storageEdits d.addr) =
      d.storage.map (slotEdit d.addr) := by
    by_cases h : d.storage = []
    · rw [if_pos h, h]
      rfl
    · rw [if_neg h]
      exact storageEdits_decode _ _
  rw [hstate]
  have hfield : ∀ f, (if sideField d.a f = sideField d.b f then none
      else some (Term.tuple [(sideField d.a f).term, (sideField d.b f).term])).elim []
        (fieldEdits d.addr f) =
      if sideField d.a f = sideField d.b f then [] else [fieldEdit d.addr (sideOr d.a)
        (sideOr d.b) f] := by
    intro f
    split
    · rfl
    · exact fieldEdits_term _ _ _ _
  simp only [hfield]

theorem deltaEdits_reports (l : List DiffEntry) : deltaEdits (.ofList (l.map (reportItem sha))) =
    l.flatMap entryEdits := by
  unfold deltaEdits
  rw [Term.cells_ofList, List.flatMap_map]
  simp only [itemEdits_reportItem]
  cases l <;> rfl

namespace View

/-- The view with the record `acc` for `a`. -/
def withAccount (v : View) (a : Addr) (acc : Account) : View :=
    { v with accounts := v.accounts.put a acc }

theorem get_withAccount (v : View) (a : Addr) (acc : Account) :
    (v.withAccount a acc).accounts.get a = some acc :=
  SMap.get_put_self _ _ _

theorem update_withAccount (v : View) (a : Addr) (acc : Account) (f : Account → Account) :
    (v.withAccount a acc).update a f = v.withAccount a (f acc) := by
  rw [update_of_get (get_withAccount v a acc)]
  unfold withAccount
  rw [SMap.put_put]

theorem storage_withAccount (v : View) (a : Addr) (acc : Account) :
    (v.withAccount a acc).storage a = acc.storage := by
  unfold storage
  rw [get_withAccount, Option.elim_some]

end View

theorem run_ensure {a : Addr} {x : Option Account} (hx : w.accounts.get a = x) :
    w.run sha [.ensure a] = (w.withAccount a (x.getD Account.default), none) := by
  unfold View.run View.edit View.withAccount
  dsimp only
  rw [hx]
  cases x with
  | none => rfl
  | some acc =>
    rw [Option.isSome_some, if_pos rfl, Option.getD_some, SMap.put_get_self _ hx]
    rfl

/-- The slots of a report, one after the other. -/
theorem run_slots (w : View) (a : Addr) (acc : Account) :
    ∀ (l : List (Bytes × Option Word × Option Word)) (t : Tree),
    (l.map Prod.fst).Nodup → (∀ s ∈ l, t.read s.1 = s.2.1.getD 0) →
    (w.withAccount a { acc with storage := t }).run sha (l.map (slotEdit a)) =
      (w.withAccount a { acc with storage := l.foldl (fun t s => t.insertItem s.1 (s.2.2.getD 0)) t }, none)
  | [], _, _, _ => rfl
  | s :: l, t, hnd, hr => by
    rw [List.map_cons, List.nodup_cons] at hnd
    rw [List.map_cons, View.run, slotEdit, View.edit, View.storage_withAccount]
    dsimp only
    rw [Option.all_some, decide_eq_true (hr s List.mem_cons_self), if_pos rfl, View.update_withAccount]
    refine run_slots w a acc l (t.insertItem s.1 (s.2.2.getD 0)) hnd.2 fun s' hs' => ?_
    have hne : s.1 ≠ s'.1 := fun e => hnd.1 (List.mem_map.2 ⟨s', hs', e.symm⟩)
    rw [Tree.read_insertItem, if_neg hne]
    exact hr s' (List.mem_cons_of_mem _ hs')

theorem foldl_slots (u : Tree) : ∀ (l : List (Bytes × Option Word × Option Word)) (t : Tree),
    (∀ s ∈ l, s.2.2.getD 0 = u.read s.1) → (∀ k, k ∉ l.map Prod.fst → t.read k = u.read k) →
    l.foldl (fun t s => t.insertItem s.1 (s.2.2.getD 0)) t = u
  | [], t, _, ho => Tree.ext fun k => ho k (by simp)
  | s :: l, t, hl, ho => by
    rw [List.foldl_cons]
    refine foldl_slots u l _ (fun s' hs' => hl s' (List.mem_cons_of_mem _ hs')) fun k hk => ?_
    rw [Tree.read_insertItem]
    split
    · rename_i e
      rw [hl s List.mem_cons_self, e]
    · rename_i e
      refine ho k fun hm => ?_
      rw [List.map_cons, List.mem_cons] at hm
      rcases hm with hm | hm
      · exact e hm.symm
      · exact hk hm

/-- Replaying the slots on which `t` and `u` disagree turns `t` into `u`. -/
theorem replay_slots (t u : Tree) : (slotDiff t u).foldl
    (fun t s => t.insertItem s.1 (s.2.2.getD 0)) t = u := by
  refine foldl_slots u _ t (fun s hs => ?_) fun k hk => ?_
  · obtain ⟨k, x, y⟩ := s
    obtain ⟨-, rfl, -⟩ := mem_slotDiff.1 hs
    rfl
  · by_contra hne
    refine hk (List.mem_map.2 ⟨(k, t.slots.get k, u.slots.get k), mem_slotDiff.2 ⟨rfl, rfl, fun e => hne ?_⟩, rfl⟩)
    exact get_eq_iff.1 e

/-- The record with one field taken from `y`. -/
def setField (acc : Account) (y : DiffSide) : Field → Account
  | .nonce => { acc with nonce := y.nonce }
  | .balance => { acc with balance := y.balance }
  | .code => { acc with code := y.code }

theorem run_field (w : View) (a : Addr) {acc : Account} {x y : Option DiffSide} {f : Field}
    (hx : acc = setField acc (sideOr x) f) :
    (w.withAccount a acc).run sha
      (if sideField x f = sideField y f then [] else [fieldEdit a (sideOr x) (sideOr y) f]) =
      (w.withAccount a (setField acc (sideOr y) f), none) := by
  split
  · rename_i h
    have heq := fieldEdit_of_eq h
    have : setField acc (sideOr y) f = acc := by
      rw [hx]
      cases f <;> simp only [setField] at heq ⊢ <;> rw [heq]
    rw [this]
    rfl
  · have hget := View.get_withAccount w a acc
    cases f with
    | nonce =>
      have h1 : acc.nonce = (sideOr x).nonce := congrArg Account.nonce hx
      simp only [fieldEdit, View.run, View.edit, hget, Option.map_some, h1, if_true,
        View.update_withAccount, setField]
    | balance =>
      have h1 : acc.balance = (sideOr x).balance := congrArg Account.balance hx
      simp only [fieldEdit, View.run, View.edit, hget, Option.map_some, h1, if_true,
        View.update_withAccount, setField]
    | code =>
      have h1 : acc.code = (sideOr x).code := congrArg Account.code hx
      simp only [fieldEdit, View.run, View.edit, hget, Option.map_some, h1, if_true,
        View.update_withAccount, setField]

theorem run_append_none {u : View} {es fs : List Edit} (h : v.run sha es = (u, none)) :
    v.run sha (es ++ fs) = u.run sha fs := by
  rw [View.run_append, h]

/-- A record and its leaf set to `acc`. -/
def View.place (sha : Bytes → Word) (v : View) (a : Addr) (acc : Account) : View :=
  { v.withAccount a acc with trie := v.trie.insertItem (Addr.bytes a) (acc.hash sha) }

theorem sideOr_map (x : Option Account) :
    sideOr (x.map Account.side) = (x.getD Account.default).side := by
  cases x <;> rfl

theorem elim_storage_getD (x : Option Account) :
    x.elim Tree.empty Account.storage = (x.getD Account.default).storage := by
  cases x <;> rfl

/-- **One report.** Where the record is the first side, it becomes the second
one; an absent side counts as the default account. -/
theorem run_entryEdits {a : Addr} {x y : Option Account} (hx : w.accounts.get a = x) :
    w.run sha (entryEdits (diffEntry sha a x y)) = (w.place sha a (y.getD Account.default), none) := by
  have hslots := @run_slots sha w a (x.getD Account.default) (slotDiff (x.getD Account.default).storage
    (y.getD Account.default).storage) (x.getD Account.default).storage (nodup_slotDiff _ _) fun s hs => by
      obtain ⟨k, o, n⟩ := s
      obtain ⟨rfl, -, -⟩ := mem_slotDiff.1 hs
      rfl
  rw [replay_slots] at hslots
  unfold entryEdits diffEntry
  dsimp only
  rw [elim_storage_getD, elim_storage_getD, List.append_assoc, List.append_assoc, run_append_none
    (run_ensure hx),
    run_append_none hslots]
  have hfield : ∀ (acc : Account) (f : Field), acc = setField acc (x.getD Account.default).side f →
      (w.withAccount a acc).run sha (if sideField (x.map Account.side) f = sideField
        (y.map Account.side) f then []
        else [fieldEdit a (sideOr (x.map Account.side)) (sideOr (y.map Account.side)) f]) =
        (w.withAccount a (setField acc (y.getD Account.default).side f), none) := by
    intro acc f h
    rw [run_field w a (by rw [sideOr_map]; exact h), sideOr_map]
  rw [List.flatMap_cons, List.flatMap_cons, List.flatMap_cons, List.flatMap_nil, List.append_nil,
    List.append_assoc,
    List.append_assoc, run_append_none (hfield _ .nonce rfl), run_append_none (hfield _ .balance rfl),
    run_append_none (hfield _ .code rfl)]
  unfold View.run View.edit
  dsimp only
  rw [View.get_withAccount]
  rfl

/-- Every report of a difference, one after the other. -/
theorem run_reports (v u : View) : ∀ (l : List Addr) (w : View), l.Nodup →
    (∀ a ∈ l, w.accounts.get a = v.accounts.get a) →
    w.run sha ((l.map fun a => diffEntry sha a (v.accounts.get a) (u.accounts.get a)).flatMap entryEdits) =
      (l.foldl (fun w a => w.place sha a ((u.accounts.get a).getD Account.default)) w, none)
  | [], _, _, _ => rfl
  | a :: l, w, hnd, hw => by
    rw [List.nodup_cons] at hnd
    rw [List.map_cons, List.flatMap_cons, run_append_none
      (run_entryEdits (hw a List.mem_cons_self)), List.foldl_cons]
    refine run_reports v u l _ hnd.2 fun b hb => ?_
    have hne : a ≠ b := fun e => hnd.1 (by rw [e]; exact hb)
    rw [View.place, View.withAccount, SMap.get_put_ne _ _ hne]
    exact hw b (List.mem_cons_of_mem _ hb)

theorem get_foldl_place (f : Addr → Account) (b : Addr) : ∀ (l : List Addr) (w : View),
    (l.foldl (fun w a => w.place sha a (f a)) w).accounts.get b = if b ∈ l then some
      (f b) else w.accounts.get b
  | [], w => rfl
  | a :: l, w => by
    rw [List.foldl_cons, get_foldl_place f b l, View.place, View.withAccount, SMap.get_put]
    by_cases h1 : b ∈ l
    · rw [if_pos h1, if_pos (List.mem_cons_of_mem _ h1)]
    · rw [if_neg h1]
      by_cases h2 : a = b
      · rw [if_pos h2, if_pos (by rw [h2]; exact List.mem_cons_self), h2]
      · rw [if_neg h2, if_neg]
        intro hm
        rcases List.mem_cons.1 hm with e | e
        · exact h2 e.symm
        · exact h1 e

theorem read_foldl_place (f : Addr → Account) (b : Addr) : ∀ (l : List Addr) (w : View),
    (l.foldl (fun w a => w.place sha a (f a)) w).trie.read (Addr.bytes b) =
      if b ∈ l then (f b).hash sha else w.trie.read (Addr.bytes b)
  | [], w => rfl
  | a :: l, w => by
    rw [List.foldl_cons, read_foldl_place f b l, View.place, Tree.read_insertItem]
    by_cases h1 : b ∈ l
    · rw [if_pos h1, if_pos (List.mem_cons_of_mem _ h1)]
    · rw [if_neg h1]
      by_cases h2 : a = b
      · rw [if_pos (by rw [h2]), if_pos (by rw [h2]; exact List.mem_cons_self), h2]
      · rw [if_neg fun e => h2 (Addr.bytes_inj e), if_neg]
        intro hm
        rcases List.mem_cons.1 hm with e | e
        · exact h2 e.symm
        · exact h1 e

theorem read_foldl_place_extra (f : Addr → Account) {k : Bytes} (hk : ∀ a, Addr.bytes a ≠ k) :
    ∀ (l : List Addr) (w : View),
    (l.foldl (fun w a => w.place sha a (f a)) w).trie.read k = w.trie.read k
  | [], w => rfl
  | a :: l, w => by
    rw [List.foldl_cons, read_foldl_place_extra f hk l, View.place, Tree.read_insertItem, if_neg (hk a)]

/-- What replaying the difference of `v` and `u` on a copy of `v` shows. -/
def View.replay (sha : Bytes → Word) (v u : View) : View :=
  (diffKeys v.trie u.trie).reverse.foldl
    (fun w a => w.place sha a ((u.accounts.get a).getD Account.default))
    { v with frozen := false }

/-- **When the replay is exact.** No account of `v` is missing in `u`, and
where two leaves agree the records do. -/
theorem View.replay_exact {u : View} (cv : v.Coherent sha) (cu : u.Coherent sha) :
    ((v.replay sha u).accounts = u.accounts ∧ (v.replay sha u).trie = u.trie ↔
      (∀ a, v.accounts.get a ≠ none → u.accounts.get a ≠ none) ∧
        ∀ a, v.trie.read (Addr.bytes a) = u.trie.read (Addr.bytes a) →
          v.accounts.get a = u.accounts.get a) ∧
    ((v.replay sha u).accounts = u.accounts → (v.replay sha u).trie = u.trie) := by
  have hget : ∀ b, (v.replay sha u).accounts.get b =
      if v.trie.read (Addr.bytes b) ≠ u.trie.read (Addr.bytes b) then some
        ((u.accounts.get b).getD Account.default)
      else v.accounts.get b := by
    intro b
    unfold View.replay
    rw [get_foldl_place, if_congr (List.mem_reverse.trans mem_diffKeys) rfl rfl]
  have hread : ∀ b, (v.replay sha u).trie.read (Addr.bytes b) =
      if v.trie.read (Addr.bytes b) ≠ u.trie.read
        (Addr.bytes b) then ((u.accounts.get b).getD Account.default).hash sha
      else v.trie.read (Addr.bytes b) := by
    intro b
    unfold View.replay
    rw [read_foldl_place, if_congr (List.mem_reverse.trans mem_diffKeys) rfl rfl]
  have htrie : (v.replay sha u).accounts = u.accounts → (v.replay sha u).trie = u.trie := by
    intro ha
    apply Tree.ext
    intro k
    by_cases hk : ∃ a, Addr.bytes a = k
    · obtain ⟨a, rfl⟩ := hk
      have hga := hget a
      rw [ha] at hga
      rw [hread]
      by_cases hd : v.trie.read (Addr.bytes a) ≠ u.trie.read (Addr.bytes a)
      · rw [if_pos hd] at hga ⊢
        rw [cu.leaves a not_false, hga]
        rfl
      · rw [if_neg hd, not_not.1 hd]
    · have hk' : ∀ a, Addr.bytes a ≠ k := fun a e => hk ⟨a, e⟩
      unfold View.replay
      rw [read_foldl_place_extra _ hk', cu.extra k hk']
      exact cv.extra k hk'
  refine ⟨⟨fun h => ⟨fun a hv => ?_, fun a he => ?_⟩, fun h => ?_⟩, htrie⟩
  · rw [← h.1, hget]
    split
    · nofun
    · exact hv
  · rw [← h.1, hget, if_neg (not_not.2 he)]
  · obtain ⟨h1, h2⟩ := h
    have ha : (v.replay sha u).accounts = u.accounts := by
      apply SMap.ext
      intro b
      rw [hget]
      by_cases hd : v.trie.read (Addr.bytes b) ≠ u.trie.read (Addr.bytes b)
      · rw [if_pos hd]
        cases hu : u.accounts.get b with
        | some acc => rfl
        | none =>
          exfalso
          have hv : v.accounts.get b = none := by
            by_contra hne
            exact h1 b hne hu
          apply hd
          rw [cv.leaves b not_false, cu.leaves b not_false, hv, hu]
      · rw [if_neg hd]
        exact h2 b (not_not.1 hd)
    exact ⟨ha, htrie ha⟩

/-! ## On the heap -/

namespace Heap
variable {h h' : Heap} {m n : Nat} {u : View}

/-- A write to one map leaves the trie of another alone, shared storages or not. -/
theorem Within.trie {W : List Addr} (hk : Ok sha h) (hw : Within h h' m W) (hn : n ≠ m) :
    (h'.view n).map View.trie = (h.view n).map View.trie := by
  unfold view
  rw [hw.maps n hn]
  cases hs : h.maps n with
  | none => rfl
  | some s =>
    have ho : h.own (.trie n) = some s.state_trie := by
      show (h.maps n).map _ = _
      rw [hs, Option.map_some]
    rw [Option.map_some, Option.map_some, Option.map_some, Option.map_some]
    refine congrArg some (hw.trees (.trie n) s.state_trie hn ho fun a _ e => ?_)
    rcases hk.apart _ _ _ e ho with e' | ⟨_, _, _, _, _, -, e'⟩ <;> cases e'

/-- The calls of a replay, one by one. The last map shows `View.replay`. -/
theorem replay_steps (hk : Ok sha h) {a b : ChainState} (ha : h.view a.accounts = some v)
    (hb : h.view b.accounts = some u) (cv : v.Coherent sha) (cu : u.Coherent sha) :
    ∃ h₁ h₂ h₃ delta, h.step sha (.clone a.accounts) = (h₁, .handle h.nextMap) ∧
      (∃ l, h₁.step sha (.difference a.accounts b.accounts) = (h₂, .difference l) ∧
        delta = .ofList (l.map (reportItem sha))) ∧
      h₂.step sha (.applyDifference h.nextMap delta) = (h₃, .ok) ∧
      ChainState.replayOps sha h a b = [.clone a.accounts, .difference a.accounts b.accounts,
        .applyDifference h.nextMap delta, .ask h.nextMap .rootHash] ++
          (if b.hash = none then [.ask b.accounts .rootHash] else []) ∧
      Ok sha h₃ ∧ h₃.view h.nextMap = some (v.replay sha u) ∧ (h₃.view b.accounts).map View.trie = some u.trie := by
  obtain ⟨h₁, hc, hbd, -⟩ := accountMapClone_builds hk ha
  have hna : a.accounts ≠ h.nextMap := Nat.ne_of_lt (view_lt hk ha)
  have hnb : b.accounts ≠ h.nextMap := Nat.ne_of_lt (view_lt hk hb)
  have ha1 : h₁.view a.accounts = some v := (hbd.beside.frame hk hna).trans ha
  have hb1 : h₁.view b.accounts = some u := (hbd.beside.frame hk hnb).trans hb
  obtain ⟨hd, hf⟩ := differenceFull_spec hbd.ok ha1 hb1
  have hn2 : (h₁.differenceFull sha a.accounts b.accounts).1.view h.nextMap = some
    { v with frozen := false } :=
    (hf.view hbd.ok _).trans hbd.view
  obtain ⟨hm, hfault⟩ := applyDifference_performs hf.ok hn2
    (.ofList ((v.differenceFull sha u).map (reportItem sha)))
  have hrun : ({ v with frozen := false } : View).run sha (({ v with frozen := false } : View).writable
      (deltaEdits (.ofList ((v.differenceFull sha u).map (reportItem sha))))) =
        (v.replay sha u, none) := by
    have hrev : v.differenceFull sha u =
        (diffKeys v.trie u.trie).reverse.map fun a => diffEntry sha a (v.accounts.get a)
          (u.accounts.get a) := by
      rw [differenceFull_coherent cv cu, List.map_reverse]
    unfold View.writable
    rw [if_neg nofun, deltaEdits_reports, hrev]
    exact run_reports v u _ _ (List.nodup_reverse.2 (nodup_diffKeys _ _)) fun _ _ => rfl
  rw [hrun] at hm hfault
  have hclone : h.step sha (.clone a.accounts) = (h₁, .handle h.nextMap) := by
    rw [step, hc]
    rfl
  refine ⟨h₁, (h₁.differenceFull sha a.accounts b.accounts).1, _, _, hclone, ⟨v.differenceFull sha u, ?_, rfl⟩,
    ?_, ?_, hm.ok, hm.view, ?_⟩
  · rw [step]
    generalize h₁.differenceFull sha a.accounts b.accounts = r at hd
    obtain ⟨g, o⟩ := r
    obtain rfl := hd
    rfl
  · rw [step, Heap.replyOf, hfault]
    rfl
  · rw [ChainState.replayOps, hclone, hd]
    rfl
  · rw [hm.within.trie hf.ok hnb, hf.view hbd.ok, hb1, Option.map_some]

end Heap

/-! ## The native calls -/

namespace ChainState
variable {n : Native} {u : View} {s : ChainState}

theorem step_rootHash {h : Heap} {m : Nat} (hk : Ok sha h) (hv : h.view m = some v) :
    h.step sha (.ask m .rootHash) = (h, .answer (.term (.ofWord (v.trie.rootHash sha)))) := by
  have ha := (ask_moves hk hv .rootHash).1
  obtain ⟨s, hs, -⟩ := view_some hv
  have hfst : (h.ask sha m .rootHash).1 = h := by
    unfold Heap.ask
    rw [hs]
  rw [Heap.step]
  exact Prod.ext hfst (congrArg Reply.answer ha)

/-- The hash of a state whose trie is known, and whose kept hash is the right one. -/
theorem hashOf_cases (hn : n.Holds sha) (hk : Ok sha n.heap) {t : Tree}
    (ht : (n.heap.view s.accounts).map View.trie = some t) (hash : ∀ x, s.hash = some x → x = t.rootHash sha) :
    (n.soundRun sha (if s.hash = none then [.ask s.accounts .rootHash] else []) = true ∧
      ∃ P, hashOf sha n s = some (.ofWord (t.rootHash sha), ⟨n.heap, P⟩) ∧ Native.Holds sha ⟨n.heap, P⟩) ∨
    (n.soundRun sha (if s.hash = none then [.ask s.accounts .rootHash] else []) = false ∧ hashOf sha n s = none) := by
  unfold hashOf
  cases hx : s.hash with
  | some x =>
    rw [if_neg nofun, hash x hx]
    exact .inl ⟨rfl, n.pools, rfl, hn⟩
  | none =>
    obtain ⟨v, hv, rfl⟩ := Option.map_eq_some_iff.1 ht
    rw [if_pos rfl, Native.soundRun]
    rcases Native.step_cases hn (step_rootHash hk hv) with ⟨hs, P, h1, hP⟩ | ⟨hs, h1⟩
    · rw [hs, h1]
      exact .inl ⟨rfl, P, rfl, hP⟩
    · rw [hs, h1]
      exact .inr ⟨rfl, rfl⟩

/-- A replay comes back with `View.replay`, or one of its calls is not sound. -/
theorem replay_cases (hn : n.Holds sha) (hk : Ok sha n.heap) {a b : ChainState}
    (ha : n.heap.view a.accounts = some v) (hb : n.heap.view b.accounts = some u)
    (cv : v.Coherent sha) (cu : u.Coherent sha) (hash : ∀ x, b.hash = some x → x = u.trie.rootHash sha) :
    (n.soundRun sha (replayOps sha n.heap a b) = true ∧
      ∃ n', replay sha n a b = some (⟨n.heap.nextMap, none⟩, n', .ofWord ((v.replay sha u).trie.rootHash sha),
        .ofWord (u.trie.rootHash sha)) ∧ n'.heap.view n.heap.nextMap = some (v.replay sha u)) ∨
    (n.soundRun sha (replayOps sha n.heap a b) = false ∧ replay sha n a b = none) := by
  obtain ⟨h₁, h₂, h₃, delta, s1, ⟨l, s2, rfl⟩, s3, hops, hk₃, hv₃, hb₃⟩ := replay_steps hk ha hb cv cu
  rw [hops]
  simp only [List.cons_append, List.nil_append, Native.soundRun, replay, clone, difference, applyDifference]
  -- each call comes back, or both sides stop there
  rcases Native.step_cases hn s1 with ⟨e1, P₁, h1, hP₁⟩ | ⟨e1, h1⟩
  case inr => exact .inr ⟨by rw [e1, Bool.false_and], by rw [h1]; rfl⟩
  rcases Native.step_cases hP₁ s2 with ⟨e2, P₂, h2, hP₂⟩ | ⟨e2, h2⟩
  case inr =>
    refine .inr ⟨?_, ?_⟩
    · simp only [e1, h1, Option.all_some, e2, Bool.false_and, Bool.and_false]
    · simp only [h1, Option.bind_eq_bind, Option.bind_some, h2, Option.bind_none]
  rcases Native.step_cases hP₂ s3 with ⟨e3, P₃, h3, hP₃⟩ | ⟨e3, h3⟩
  case inr =>
    refine .inr ⟨?_, ?_⟩
    · simp only [e1, h1, Option.all_some, e2, h2, e3, Bool.false_and, Bool.and_false]
    · simp only [h1, Option.bind_eq_bind, Option.bind_some, h2, h3, Option.bind_none]
  simp only [h1, Option.bind_eq_bind, Option.bind_some, h2, h3, e1, e2, e3, Option.all_some, Bool.true_and]
  rcases Native.step_cases hP₃ (step_rootHash hk₃ hv₃) with ⟨e4, P₄, h4, hP₄⟩ | ⟨e4, h4⟩
  case inr =>
    refine .inr ⟨?_, ?_⟩
    · rw [e4, Bool.false_and]
    · simp only [hashOf, h4, Option.bind_none]
  have hc : hashOf sha ⟨h₃, P₃⟩ ⟨n.heap.nextMap, none⟩ =
      some (.ofWord ((v.replay sha u).trie.rootHash sha), ⟨h₃, P₄⟩) := by
    simp only [hashOf, h4]
  simp only [e4, h4, hc, Option.all_some, Bool.true_and, Option.bind_some]
  rcases hashOf_cases hP₄ hk₃ hb₃ hash with ⟨e5, P₅, h5, -⟩ | ⟨e5, h5⟩
  · rw [h5]
    exact .inl ⟨e5, _, rfl, hv₃⟩
  · rw [h5]
    exact .inr ⟨e5, rfl⟩

/-- **Difference and replay.** Replaying the difference of `a` and `b` on a clone of
`a` gives the accounts and the hash of `b` exactly when no account of `a` is missing
in `b`, where two leaves agree the records do, and the native calls on the way are
sound. -/
theorem difference_round_trip (hn : n.Holds sha) (hk : Ok sha n.heap) {a b : ChainState}
    (ha : n.heap.view a.accounts = some v) (hb : n.heap.view b.accounts = some u)
    (cv : v.Coherent sha) (cu : u.Coherent sha) (hash : ∀ x, b.hash = some x → x = u.trie.rootHash sha) :
    (∃ c n' w x y, replay sha n a b = some (c, n', x, y) ∧ n'.heap.view c.accounts = some w ∧
      w.accounts = u.accounts ∧ x = y) ↔
      ((∀ x, v.accounts.get x ≠ none → u.accounts.get x ≠ none) ∧
        ∀ x, v.trie.read (Addr.bytes x) = u.trie.read (Addr.bytes x) → v.accounts.get x = u.accounts.get x) ∧
      n.soundRun sha (replayOps sha n.heap a b) = true := by
  rw [← (View.replay_exact cv cu).1]
  rcases replay_cases hn hk ha hb cv cu hash with ⟨hs, n', hr, hv⟩ | ⟨hs, hr⟩
  · refine ⟨fun hy => ?_, fun hy => ?_⟩
    · obtain ⟨c, q, w, x, y, hr', hv', hw, -⟩ := hy
      rw [hr, Option.some.injEq, Prod.mk.injEq, Prod.mk.injEq] at hr'
      obtain ⟨rfl, rfl, -⟩ := hr'
      obtain rfl := Option.some.inj (hv.symm.trans hv')
      exact ⟨⟨hw, (View.replay_exact cv cu).2 hw⟩, hs⟩
    · obtain ⟨⟨h1, h2⟩, -⟩ := hy
      exact ⟨_, n', _, _, _, hr, hv, h1, by rw [h2]⟩
  · refine ⟨fun hy => ?_, fun hy => ?_⟩
    · obtain ⟨_, _, _, _, _, hr', -⟩ := hy
      nomatch hr.symm.trans hr'
    · nomatch hs.symm.trans hy.2

/-- A fork in which the balance and the storage of an account change. -/
theorem difference_round_trip_one :
    let ops : List Op := [.new, .put 0 (.ofAddr 1) (.int 3) (.int 5) (.ofList [.tuple [.ofWord 7, .ofWord 8]])
      (.bin [1, 2]), .clone 0, .put 1 (.ofAddr 1) (.int 3) (.int 9) (.ofList [.tuple [.ofWord 5, .ofWord 6]]) (.bin [1, 2])]
    ∃ n v u, Native.init.run Sha256.sha256 ops = some n ∧ n.heap.view 0 = some v ∧ n.heap.view 1 = some u ∧
      ((∃ c n' w x y, replay Sha256.sha256 n ⟨0, none⟩ ⟨1, none⟩ = some (c, n', x, y) ∧
          n'.heap.view c.accounts = some w ∧ w.accounts = u.accounts ∧ x = y) ↔
        ((∀ x, v.accounts.get x ≠ none → u.accounts.get x ≠ none) ∧
          ∀ x, v.trie.read (Addr.bytes x) = u.trie.read (Addr.bytes x) → v.accounts.get x = u.accounts.get x) ∧
        n.soundRun Sha256.sha256 (replayOps Sha256.sha256 n.heap ⟨0, none⟩ ⟨1, none⟩) = true) := by
  intro ops
  have hc : Heap.init.CarefulRun Sha256.sha256 ops :=
    ⟨careful_of_no_slots nofun nofun, careful_put .., careful_of_no_slots nofun nofun, careful_put .., trivial⟩
  have hrun : (Heap.init.successful Sha256.sha256 ops && (Native.init.run Sha256.sha256 ops).any (fun n =>
      (n.heap.view 0).isSome && (n.heap.view 1).isSome)) = true := by
    rw [Sha256.sha256_eq]; decide +kernel
  rw [Bool.and_eq_true] at hrun
  obtain ⟨n, hn, hq⟩ := (Option.any_eq_true ..).1 hrun.2
  rw [Bool.and_eq_true] at hq
  obtain ⟨hh, hP⟩ := Native.holds_run (Native.holds_init _) hn
  have hk : Ok Sha256.sha256 n.heap := hh ▸ run_ok ok_init hc
  have hcoh : ∀ m w, n.heap.view m = some w → w.Coherent Sha256.sha256 :=
    hh ▸ run_coherent ok_init hc hrun.1 fun _ _ hu => by cases hu
  have hv := (Option.some_get hq.1).symm
  have hu := (Option.some_get hq.2).symm
  exact ⟨n, _, _, hn, hv, hu, difference_round_trip (a := ⟨0, none⟩) (b := ⟨1, none⟩) hP hk hv hu
    (hcoh 0 _ hv) (hcoh 1 _ hu) nofun⟩

/-- **An account that is gone comes back.** `a` has an account with balance 5,
`b` is empty; the replay has the account with balance 0, and another hash. -/
theorem deleted_account_comes_back :
    ∃ n u c n' x y, Native.init.run Sha256.sha256 [.new, .new, .put 0 (.ofAddr 1) (.int 3) (.int 5)
        (.atom .nil) (.atom .nil)] = some n ∧
      n.heap.view 1 = some u ∧ u.accounts.get 1 = none ∧
      replay Sha256.sha256 n ⟨0, none⟩ ⟨1, none⟩ = some (c, n', x, y) ∧
      (n'.heap.view c.accounts).bind (fun w => w.accounts.get 1) = some Account.default ∧ x ≠ y := by
  have hrun : (Native.init.run Sha256.sha256 [.new, .new, .put 0 (.ofAddr 1) (.int 3) (.int 5)
      (.atom .nil) (.atom .nil)]).any (fun n => (n.heap.view 1).any (fun u => u.accounts.get 1 = none) &&
        (replay Sha256.sha256 n ⟨0, none⟩ ⟨1, none⟩).any fun r =>
          ((r.2.1.heap.view r.1.accounts).bind (fun w => w.accounts.get 1) = some Account.default) &&
            r.2.2.1.bin? ≠ r.2.2.2.bin?) = true := by
    rw [Sha256.sha256_eq]; decide +kernel
  obtain ⟨n, hn, hrun⟩ := (Option.any_eq_true ..).1 hrun
  rw [Bool.and_eq_true] at hrun
  obtain ⟨u, hu, hnone⟩ := (Option.any_eq_true ..).1 hrun.1
  obtain ⟨⟨c, n', x, y⟩, hr, hq⟩ := (Option.any_eq_true ..).1 hrun.2
  rw [Bool.and_eq_true] at hq
  exact ⟨n, u, c, n', x, y, hn, hu, of_decide_eq_true hnone, hr, of_decide_eq_true hq.1,
    fun e => of_decide_eq_true hq.2 (congrArg Term.bin? e)⟩

end ChainState
end Diode.L3
