import Diode.L3State.Handles

/-!
# The state trie follows the account table

`Coherent`: the trie has a leaf for exactly the addresses in the table, each
the hash of the record. Every edit of an account leaves its leaf behind and
`seal` brings it up to date; `dirty` follows which leaves are behind, and each
native call ends with none (`dirty_edits`).

`run_coherent`: after every run of successful calls each map is coherent, so
the reported root is the root computed from scratch, as long as the writes are
`Careful`. A slot written through a shared storage leaves the leaf of the other
map behind.
-/
namespace Diode.L3
open Diode.Core Diode.L1.Ext Function Heap

section
variable (sha : Bytes → Word)

/-- The leaves are right, except perhaps those of the accounts in `D`. -/
structure View.CoherentBut (v : View) (D : Addr → Prop) : Prop where
  leaf : ∀ a, D a → v.accounts.get a ≠ none ∨ v.trie.read (Addr.bytes a) = 0
  leaves : ∀ a, ¬D a → v.trie.read (Addr.bytes a) = (v.accounts.get a).elim 0 (Account.hash sha)
  extra : ∀ k, (∀ a, Addr.bytes a ≠ k) → v.trie.read k = 0

/-- The trie maps the addresses of the table to the hashes of their records,
and no other key. -/
def View.Coherent (v : View) : Prop := v.CoherentBut sha fun _ => False

end

variable {sha : Bytes → Word} {v w : View} {D : Addr → Prop}

namespace View

theorem CoherentBut.mono {D' : Addr → Prop} (h : v.CoherentBut sha D) (hs : ∀ a, D a → D' a) :
    v.CoherentBut sha D' where
  leaf := by
    intro a ha
    by_cases hd : D a
    · exact h.leaf a hd
    · rw [h.leaves a hd]
      cases v.accounts.get a with
      | none => exact .inr rfl
      | some acc => exact .inl nofun
  leaves := fun a ha => h.leaves a fun hd => ha (hs a hd)
  extra := h.extra

/-- Two coherent views with the same table have the same trie. -/
theorem Coherent.trie_eq (hv : v.Coherent sha) (hw : w.Coherent sha)
    (ha : v.accounts = w.accounts) : v.trie = w.trie := by
  apply Tree.ext
  intro k
  by_cases hk : ∃ a, Addr.bytes a = k
  · obtain ⟨a, rfl⟩ := hk
    rw [hv.leaves a not_false, hw.leaves a not_false, ha]
  · rw [hv.extra k fun a e => hk ⟨a, e⟩, hw.extra k fun a e => hk ⟨a, e⟩]

theorem coherent_empty : View.empty.Coherent sha := ⟨fun _ h => h.elim, fun _ _ => rfl, fun _ _ => rfl⟩

theorem CoherentBut.congr (h : v.CoherentBut sha D) (ht : w.trie = v.trie)
    (ha : w.accounts = v.accounts) :
    w.CoherentBut sha D := ⟨by rw [ht, ha]; exact h.leaf, by rw [ht, ha]; exact h.leaves, by rw [ht]; exact h.extra⟩

/-- A change of the record of `a` alone, which exists afterwards. -/
theorem CoherentBut.touch (h : v.CoherentBut sha D) {a : Addr} (ht : w.trie = v.trie)
    (ha : ∀ b, b ≠ a → w.accounts.get b = v.accounts.get b) (hex : w.accounts.get a = none →
      v.accounts.get a = none) :
    w.CoherentBut sha fun b => D b ∨ b = a where
  leaf := by
    intro b hb
    rw [ht]
    by_cases e : b = a
    · subst e
      cases hw : w.accounts.get b with
      | some acc => exact .inl nofun
      | none =>
        have hv := hex hw
        refine .inr ?_
        by_cases hd : D b
        · rcases h.leaf b hd with h1 | h1
          · exact absurd hv h1
          · exact h1
        · rw [h.leaves b hd, hv]
          rfl
    · rw [ha b e]
      rcases hb with hb | hb
      · exact h.leaf b hb
      · exact absurd hb e
  leaves := by
    intro b hb
    have e : b ≠ a := fun e => hb (.inr e)
    rw [ht, ha b e]
    exact h.leaves b fun hd => hb (.inl hd)
  extra := by
    rw [ht]
    exact h.extra

/-- A leaf brought up to date. -/
theorem CoherentBut.write (h : v.CoherentBut sha D) {a : Addr} {x : Option Account}
    (ht : w.trie = v.trie.insertItem (Addr.bytes a) (x.elim 0 (Account.hash sha)))
      (hx : w.accounts.get a = x)
    (ha : ∀ b, b ≠ a → w.accounts.get b = v.accounts.get b) : w.CoherentBut sha fun b =>
      D b ∧ b ≠ a where
  leaf := by
    intro b hb
    rw [ht, ha b hb.2, Tree.read_insertItem, if_neg fun e => hb.2 (Addr.bytes_inj e.symm)]
    exact h.leaf b hb.1
  leaves := by
    intro b hb
    rw [ht, Tree.read_insertItem]
    by_cases e : b = a
    · subst e
      rw [if_pos rfl, hx]
    · rw [if_neg fun e' => e (Addr.bytes_inj e'.symm), ha b e]
      exact h.leaves b fun hd => hb ⟨hd, e⟩
  extra := by
    intro k hk
    rw [ht, Tree.read_insertItem, if_neg (hk a)]
    exact h.extra k hk

end View

/-! ## Edits -/

/-- The accounts whose leaf is behind after an edit. -/
def Edit.dirty (D : Addr → Prop) : Edit → Addr → Prop
  | .ensure a => fun b => D b ∨ b = a
  | .nonce a _ _ => fun b => D b ∨ b = a
  | .balance a _ _ => fun b => D b ∨ b = a
  | .code a _ _ => fun b => D b ∨ b = a
  | .slot a _ _ _ => fun b => D b ∨ b = a
  | .fields a _ _ _ => fun b => D b ∨ b = a
  | .replace a _ => fun b => D b ∨ b = a
  | .erase a => fun b => D b ∧ b ≠ a
  | .seal a => fun b => D b ∧ b ≠ a
  | .fail _ => D

def dirty (D : Addr → Prop) (es : List Edit) : Addr → Prop := es.foldl Edit.dirty D

theorem update_touch (h : v.CoherentBut sha D) (a : Addr) (f : Account → Account) :
    (v.update a f).CoherentBut sha fun b => D b ∨ b = a := by
  refine h.touch (View.update_trie v a f) (fun b hb => ?_) fun hn => ?_
  · rw [View.get_update, if_neg fun e => hb e.symm]
  · rw [View.get_update, if_pos rfl, Option.map_eq_none_iff] at hn
    exact hn

/-- Where there is no account there is no leaf to refresh. -/
theorem write_absent {a : Addr} (h : v.CoherentBut sha D) (ha : v.accounts.get a = none) :
    v.CoherentBut sha fun b => D b ∧ b ≠ a := by
  refine h.write (x := none) ?_ ha fun _ _ => rfl
  refine (Tree.insertItem_read ?_).symm
  by_cases hd : D a
  · rcases h.leaf a hd with h1 | h1
    · exact absurd ha h1
    · exact h1
  · rw [h.leaves a hd, ha]

/-- **One edit.** -/
theorem edit_coherent {e : Edit} (h : v.CoherentBut sha D) (he : v.edit sha e = .ok w) :
    w.CoherentBut sha (e.dirty D) := by
  cases e with
  | ensure a =>
    simp only [View.edit, Except.ok.injEq] at he
    subst he
    split
    · exact h.mono fun b hb => .inl hb
    · refine h.touch rfl (fun b hb => ?_) fun hn => ?_
      · exact SMap.get_put_ne _ _ fun e => hb e.symm
      · rw [SMap.get_put_self] at hn
        cases hn
  | nonce a old new =>
    simp only [View.edit] at he
    split at he
    · cases he; exact update_touch h a _
    · cases he
  | balance a old new =>
    simp only [View.edit] at he
    split at he
    · cases he; exact update_touch h a _
    · cases he
  | code a old new =>
    simp only [View.edit] at he
    split at he
    · cases he; exact update_touch h a _
    · cases he
  | slot a key old new =>
    simp only [View.edit] at he
    split at he
    · cases he; exact update_touch h a _
    · cases he
  | fields a nonce balance code =>
    cases he
    exact update_touch h a _
  | replace a acc =>
    cases he
    refine h.touch rfl (fun b hb => ?_) fun hn => ?_
    · exact SMap.get_put_ne _ _ fun e => hb e.symm
    · rw [SMap.get_put_self] at hn
      cases hn
  | erase a =>
    simp only [View.edit, Except.ok.injEq] at he
    subst he
    cases ha : v.accounts.get a with
    | some acc =>
      rw [Option.isSome_some, if_pos rfl]
      refine h.write (x := none) rfl ?_ fun b hb => ?_
      · rw [SMap.get_del, if_pos rfl]
      · rw [SMap.get_del, if_neg fun e => hb e.symm]
    | none =>
      rw [Option.isSome_none, if_neg Bool.false_ne_true]
      exact write_absent h ha
  | «seal» a =>
    simp only [View.edit, Except.ok.injEq] at he
    subst he
    cases ha : v.accounts.get a with
    | some acc => exact h.write (x := some acc) rfl ha fun _ _ => rfl
    | none => exact write_absent h ha
  | fail f => cases he

theorem run_edits_coherent : ∀ {es : List Edit} {v : View} {D : Addr → Prop}, v.CoherentBut sha D →
    (v.run sha es).2 = none → (v.run sha es).1.CoherentBut sha (dirty D es)
  | [], _, _, h, _ => h
  | e :: es, v, D, h, hr => by
    unfold View.run at hr ⊢
    cases he : v.edit sha e with
    | error f => rw [he] at hr; cases hr
    | ok v' =>
      rw [he] at hr
      exact run_edits_coherent (edit_coherent h he) hr

/-! ## The edits of a call -/

theorem dirty_append (D : Addr → Prop) (es fs : List Edit) : dirty D (es ++ fs) = dirty
    (dirty D es) fs := List.foldl_append

/-- The edits the loops of the bulk updates make on the account `a`. -/
inductive Touches (a : Addr) : Edit → Prop where
  | ensure : Touches a (.ensure a)
  | nonce (old new : BitVec 64) : Touches a (.nonce a old new)
  | balance (old new : Word) : Touches a (.balance a old new)
  | code (old new : Bytes) : Touches a (.code a old new)
  | slot (key : Bytes) (old : Option Word) (new : Word) : Touches a (.slot a key old new)
  | fail (f : Fault) : Touches a (.fail f)

theorem Touches.dirty {a b : Addr} {e : Edit} (h : Touches a e) (hd : e.dirty D b) : D b ∨ b = a := by
  cases h with
  | fail f => exact .inl hd
  | _ => exact hd

theorem dirty_about {a : Addr} : ∀ {es : List Edit} {D : Addr → Prop}, (∀ e ∈ es, Touches a e) →
    ∀ b, dirty D es b → D b ∨ b = a
  | [], _, _, _, h => .inl h
  | e :: es, D, he, b, h => by
    rcases dirty_about (D := e.dirty D) (fun x hx => he x (List.mem_cons_of_mem _ hx)) b h with h1 | h1
    · exact (he e List.mem_cons_self).dirty h1
    · exact .inr h1

/-- A group of edits of one account, sealed at the end. -/
theorem dirty_group {a : Addr} {es : List Edit} {D : Addr → Prop} (he : ∀ e ∈ es, Touches a e) (b : Addr)
    (h : dirty D (es ++ [.seal a]) b) : D b := by
  rw [dirty_append] at h
  obtain ⟨h1, h2⟩ := h
  rcases dirty_about he b h1 with h3 | h3
  · exact h3
  · exact absurd h3 h2

theorem dirty_flatMap {α : Type} {f : α → List Edit} : ∀ {l : List α} {D : Addr → Prop},
    (∀ x ∈ l, ∀ D b, dirty D (f x) b → D b) → ∀ b, dirty D (l.flatMap f) b → D b
  | [], _, _, _, h => h
  | x :: l, D, hf, b, h => by
    rw [List.flatMap_cons, dirty_append] at h
    exact hf x List.mem_cons_self D b (dirty_flatMap (fun y hy => hf y (List.mem_cons_of_mem _ hy)) b h)

theorem touches_slotEdits (a : Addr) (slot : Term × Term) : ∀ e ∈ slotEdits a slot, Touches a e := by
  unfold slotEdits
  intro e he
  repeat' split at he
  all_goals rw [List.mem_singleton.1 he]
  · exact .slot ..
  · exact .fail _
  · exact .fail _

theorem touches_storageEdits (a : Addr) (t : Term) : ∀ e ∈ storageEdits a t, Touches a e := by
  unfold storageEdits
  intro e he
  split at he
  · rw [List.mem_singleton.1 he]
    exact .fail _
  · obtain ⟨x, -, hx⟩ := List.mem_flatMap.1 he
    exact touches_slotEdits a x e hx

theorem touches_fieldEdits (a : Addr) (f : Field) (t : Term) : ∀ e ∈ fieldEdits a f t, Touches a e := by
  unfold fieldEdits
  intro e he
  repeat' split at he
  all_goals
    simp only [List.mem_cons, List.not_mem_nil, or_false] at he
    try rcases he with rfl | rfl
    all_goals
      try subst he
      constructor

theorem touches_putSlotEdits (a : Addr) (kv : Term) : ∀ e ∈ putSlotEdits a kv, Touches a e := by
  unfold putSlotEdits
  intro e he
  split at he
  · rw [List.mem_singleton.1 he]
    exact .fail _
  · rw [List.mem_singleton.1 he]
    exact .slot ..

/-- An entry of a difference is refused, or works on one account and seals it. -/
theorem itemEdits_cases (head : Term) :
    (∃ f, itemEdits head = [.fail f]) ∨ ∃ a es, itemEdits head = es ++ [.seal a] ∧
      ∀ e ∈ es, Touches a e := by
  unfold itemEdits
  split
  · exact .inl ⟨_, rfl⟩
  · split
    · rename_i a _ _ _
      refine .inr ⟨a, _, rfl, fun e he => ?_⟩
      simp only [List.mem_append, List.mem_singleton, List.mem_flatMap] at he
      rcases he with (rfl | he) | ⟨f, -, he⟩
      · exact .ensure
      · cases hm : Term.mapGetAtom _ .state with
        | none => rw [hm] at he; cases he
        | some t => rw [hm] at he; exact touches_storageEdits a t e he
      · cases hm : Term.mapGetAtom _ f.atom with
        | none => rw [hm] at he; cases he
        | some t => rw [hm] at he; exact touches_fieldEdits a f t e he
    · exact .inl ⟨_, rfl⟩

theorem putItemEdits_cases (head : Term) :
    (∃ f, putItemEdits head = [.fail f]) ∨ ∃ a es, putItemEdits head = es ++ [.seal a] ∧
      ∀ e ∈ es, Touches a e := by
  unfold putItemEdits
  split
  · exact .inl ⟨_, rfl⟩
  · split
    · exact .inl ⟨_, rfl⟩
    · rename_i a _
      split
      · refine .inr ⟨a, _, rfl, fun e he => ?_⟩
        simp only [List.mem_append, List.mem_singleton, List.mem_flatMap] at he
        rcases he with rfl | ⟨x, -, he⟩
        · exact .ensure
        · exact touches_putSlotEdits a x e he
      · exact .inl ⟨_, rfl⟩

/-- Both kinds of entries leave nothing behind. -/
theorem dirty_item {es : List Edit}
    (h : (∃ f, es = [.fail f]) ∨ ∃ a fs, es = fs ++ [.seal a] ∧ ∀ e ∈ fs, Touches a e)
      (D : Addr → Prop) (b : Addr)
    (hd : dirty D es b) : D b := by
  rcases h with ⟨f, rfl⟩ | ⟨a, fs, rfl, he⟩
  · exact hd
  · exact dirty_group he b hd

/-- **Every call ends with its leaves up to date.** -/
theorem dirty_edits (op : Op) (D : Addr → Prop) (b : Addr) (h : dirty D op.edits b) : D b := by
  cases op with
  | put m addr nonce balance storage code =>
    simp only [Op.edits, putEdits] at h
    split at h
    · rename_i a _ _ _ _ _ _ _
      split at h
      · rcases h with ⟨(h | h) | h, hne⟩
        · exact h
        · exact absurd h hne
        · exact absurd h hne
      · split at h
        · exact h
        · rcases h with ⟨h | h, hne⟩
          · exact h
          · exact absurd h hne
    · exact h
  | delete m addr =>
    simp only [Op.edits, deleteEdits] at h
    split at h
    · exact h
    · exact h.1
  | storagePutMap m updates =>
    simp only [Op.edits, putMapEdits] at h
    split at h
    · exact dirty_flatMap (fun x _ D b => dirty_item (putItemEdits_cases x) D b) b h
    · exact h
  | applyDifference m delta =>
    simp only [Op.edits, deltaEdits] at h
    split at h
    · exact dirty_flatMap (fun x _ D b => dirty_item (itemEdits_cases x) D b) b h
    · exact h
  | _ => exact h

/-! ## States built from scratch -/

theorem ofAccounts_coherentBut : ∀ (l : List (Addr × Account)) (v : View), v.Coherent sha →
    View.Coherent sha ⟨v.frozen, l.foldl (fun t p => t.insertItem (Addr.bytes p.1) (p.2.hash sha)) v.trie,
      l.foldl (fun t p => t.put p.1 p.2) v.accounts⟩
  | [], v, h => h
  | p :: l, v, h => by
    rw [List.foldl_cons, List.foldl_cons]
    refine ofAccounts_coherentBut l ⟨v.frozen, v.trie.insertItem (Addr.bytes p.1) (p.2.hash sha),
      v.accounts.put p.1 p.2⟩ ?_
    exact (View.CoherentBut.write (a := p.1) (x := some p.2) h rfl (SMap.get_put_self _ _ _)
      fun b hb => SMap.get_put_ne _ _ fun e => hb e.symm).mono fun _ hb => hb.1

/-- A state built from scratch is coherent. -/
theorem ofAccounts_coherent (l : List (Addr × Account)) : (View.ofAccounts sha l).Coherent sha :=
  ofAccounts_coherentBut l View.empty View.coherent_empty

theorem ofAccounts_accounts (t : SMap Addr Account) : (View.ofAccounts sha t.entries).accounts =
    t := t.foldl_entries

/-- The trie of a coherent view is the one built from its table. -/
theorem View.Coherent.trie_ofAccounts (h : v.Coherent sha) :
    v.trie = (View.ofAccounts sha v.accounts.entries).trie :=
  h.trie_eq (ofAccounts_coherent _) (ofAccounts_accounts _).symm

/-! ## Runs -/

namespace Heap
variable {h : Heap} {op : Op}

/-- A successful write leaves its map coherent. -/
theorem write_coherent (hk : Ok sha h) {n : Nat} (hw : op.writes = some n) {u : View}
    (hu : h.view n = some u)
    (hcoh : u.Coherent sha) (hs : (h.step sha op).2.isFault = false)
      (hv : (h.step sha op).1.view n = some v) :
    v.Coherent sha := by
  obtain ⟨hm, hf⟩ := write_performs hk hu hw
  rw [hm.view, Option.some.injEq] at hv
  rw [hf] at hs
  have hnone : (u.run sha (u.writable op.edits)).2 = none := by
    cases hr : (u.run sha (u.writable op.edits)).2 with
    | none => rfl
    | some f => rw [hr] at hs; cases hs
  have hes : u.writable op.edits = op.edits := by
    unfold View.writable at hnone ⊢
    split at hnone
    · cases hnone
    · rw [if_neg ‹_›]
  rw [hes] at hv hnone
  subst hv
  exact (run_edits_coherent hcoh hnone).mono fun b hb => dirty_edits op _ b hb

theorem step_coherent (hk : Ok sha h) (hc : h.Careful sha op) (hs : (h.step sha op).2.isFault = false)
    (hall : ∀ n u, h.view n = some u → u.Coherent sha) : ∀ n w, (h.step sha op).1.view n = some w →
      w.Coherent sha := by
  intro n w hw
  have he := step_effect hk hc
  cases hu : h.view n with
  | none =>
    cases he.born hk hu hw with
    | fresh e => rw [e]; exact View.coherent_empty
    | fork m x hx ht ha => exact (hall m x hx).congr ht ha
    | built l e => rw [e]; exact ofAccounts_coherent l
  | some u =>
    by_cases hwr : op.writes = some n
    · exact write_coherent hk hwr hu (hall n u hu) hs hw
    · by_cases hd : op = .destroy n
      · subst hd
        obtain ⟨-, h2, -⟩ := destructAccountmap_spec hk hu
        have hgone : (h.destructAccountmap n).view n = none := by
          unfold view
          rw [h2, Option.map_none]
        have hw' : (h.destructAccountmap n).view n = some w := hw
        rw [hgone] at hw'
        cases hw'
      · obtain ⟨x, h1, h2, h3, -⟩ := he.keeps hk hu hwr hd
        rw [h1, Option.some.injEq] at hw
        subst hw
        exact (hall n u hu).congr h2 h3

theorem run_coherent {ops : List Op} : ∀ {h : Heap}, Ok sha h → h.CarefulRun sha ops →
    h.successful sha ops = true →
    (∀ n u, h.view n = some u → u.Coherent sha) → ∀ n w, (h.run sha ops).view n = some w →
      w.Coherent sha := by
  induction ops with
  | nil => exact fun _ _ _ hall => hall
  | cons op ops ih =>
    intro h hk hc hs hall
    unfold successful at hs
    rw [Bool.and_eq_true, Bool.not_eq_true'] at hs
    exact ih (step_effect hk hc.1).ok hc.2 hs.2 (step_coherent hk hc.1 hs.1 hall)

/-- After every run of successful calls the trie of each map has exactly the
leaves of its table, and the reported root is the one computed from scratch. -/
theorem reached_coherent (ops : List Op) (hc : Heap.init.CarefulRun sha ops)
    (hs : Heap.init.successful sha ops = true)
    (m : Nat) (v : View) (hv : (Heap.init.run sha ops).view m = some v) :
    v.Coherent sha ∧ ((Heap.init.run sha ops).ask sha m .rootHash).2 =
      .term (.ofWord ((View.ofAccounts sha v.accounts.entries).trie.rootHash sha)) := by
  have hcoh := run_coherent ok_init hc hs (fun _ _ hu => by cases hu) m v hv
  refine ⟨hcoh, ?_⟩
  rw [(ask_moves (run_ok ok_init hc) hv .rootHash).1, ← hcoh.trie_ofAccounts]
  rfl

end Heap
end Diode.L3
