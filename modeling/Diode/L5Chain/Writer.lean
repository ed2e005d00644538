import Diode.L5Chain.StoredStates

/-!
# The writer of new blocks

A new block goes into the writer's ETS table and is written to SQL by the writer
process. Jump blocks are submitted by a call, the others by a cast, and every
command joins one queue. A call is answered after one write, which is that of the
head of the queue: the block itself may still be in the table when its process
goes on and the chain knows it. Each command in the queue has a `:write` message
behind it, so whatever is sent after the answer finds the block written.

Processes may stop anywhere: a step that nobody takes is left out of the run. The
writer's own crash, after which it starts over with the table in any order, is not
in the model, and neither is the repair of stored blocks.

* `Inv.known`: a block the chain knows is in the table or in SQL.
* `Inv.apart`: of two jump blocks up to 500 in a row that the chain knows, the
  first has left the table.
-/
namespace Diode.L5
open Diode.Core Block

/-- What the writer is asked to do: number a block, or write one whose state is
still to be prepared (`hash`) or is prepared by a task. -/
inductive Cmd where
  | num (b : Block)
  | hash (b : Block)
  | task (b : Block)
  deriving DecidableEq

inductive Msg where
  | call (b : Block)
  | cast (c : Cmd)
  | write
  | wait_for_done
  deriving DecidableEq

/-- The block that is written. -/
def Cmd.block : Cmd → Option Block
  | .num _ => none
  | .hash b => some b
  | .task b => some b

def Msg.block : Msg → Option Block
  | .call b => some b
  | .cast c => c.block
  | _ => none

/-- The table `blocks`, the ETS table of the writer, its queue and its messages,
and the hashes in the ETS table of the chain. A block in `submitting` is in the
writer's table and its process has not sent the message yet; for one in `returned`
`submit_new_block` is done. -/
structure Writer where
  stored : List Block
  buffer : List Block
  blocks : List Cmd
  mailbox : List Msg
  known : List Block
  submitting : List Block
  returned : List Block

namespace Writer

/-- mirrors lib/chain.ex:303-313 -/
def seed (m : Bytes) : Writer := ⟨[genesis m], [], [], [], [genesis m], [], []⟩

/-- A block is validated when the chain knows its parent, and imported when it does
not know the block.
mirrors lib/model/chainsql.ex:42-43 -/
def put (w : Writer) (b : Block) : Writer :=
  match b.parent with
  | none => w
  | some p =>
    if p ∈ w.known ∧ b ∉ w.known then
      { w with buffer := if b ∈ w.buffer then w.buffer else w.buffer ++ [b]
               submitting := b :: w.submitting
               returned := w.returned.filter (· ≠ b) }
    else w

/-- mirrors lib/model/chainsql.ex:45-60 -/
def submit (w : Writer) (b : Block) : Writer :=
  if b ∈ w.submitting then
    let w := { w with submitting := w.submitting.erase b }
    if 24 < w.buffer.length ∨ is_jumpblock b.number then { w with mailbox := w.mailbox ++ [.call b] }
    else { w with mailbox := w.mailbox ++ [.cast (.task b)], returned := b :: w.returned }
  else w

/-- mirrors lib/chain.ex:679-682 -/
def ets_add_alt (w : Writer) (b : Block) : Writer :=
  if b ∈ w.returned then { w with known := b :: w.known } else w

/-- mirrors lib/model/chainsql.ex:150-187 -/
def do_write (w : Writer) (c : Cmd) : Writer :=
  match c.block with
  | none => w
  | some b =>
    if b ∈ w.buffer then
      { w with stored := if b ∈ w.stored then w.stored else b :: w.stored
               buffer := w.buffer.filter (· ≠ b)
               mailbox := w.mailbox ++ [.write] }
    else w

/-- mirrors lib/model/chainsql.ex:139-148 -/
def write (w : Writer) : Writer :=
  match w.blocks with
  | [] => w
  | a :: rest =>
    let w := w.do_write a
    { w with blocks := rest, mailbox := w.mailbox ++ [.write] }

/-- mirrors lib/model/chainsql.ex:118-137 -/
def handle (w : Writer) : Msg → Writer
  | .call b =>
    let w := { w with blocks := w.blocks ++ [Cmd.hash b] }.write
    { w with returned := b :: w.returned }
  | .cast c => { w with blocks := w.blocks ++ [c], mailbox := w.mailbox ++ [.write] }
  | .write => w.write
  | .wait_for_done => w.write

inductive Op where
  | put (b : Block)
  | submit (b : Block)
  | ets_add_alt (b : Block)
  | put_block_number (b : Block)
  | wait_for_done
  | handle
  | restart

def step (w : Writer) : Op → Writer
  | .put b => w.put b
  | .submit b => w.submit b
  | .ets_add_alt b => w.ets_add_alt b
  | .put_block_number b => { w with mailbox := w.mailbox ++ [.cast (.num b)] }
  | .wait_for_done => { w with mailbox := w.mailbox ++ [.wait_for_done] }
  | .handle =>
    match w.mailbox with
    | [] => w
    | m :: rest => { w with mailbox := rest }.handle m
  | .restart => ⟨w.stored, [], [], [], w.stored, [], []⟩

/-! ## What the queue keeps -/

variable {w : Writer} {a b p : Block} {stored l : List Block} {c : Cmd} {rest : List Cmd}

/-- The blocks still to be written, in their order. -/
def pending (w : Writer) : List Block := w.blocks.filterMap Cmd.block ++ w.mailbox.filterMap Msg.block

/-- The blocks of a queue are written after their parents. -/
def Queued : List Block → List Block → Prop
  | _, [] => True
  | stored, b :: rest => (∀ p ∈ b.parent, p ∈ stored) ∧ Queued (b :: stored) rest

theorem Queued.snoc : ∀ {l stored : List Block}, Queued stored l →
    (∀ p ∈ b.parent, p ∈ stored ∨ p ∈ l) → Queued stored (l ++ [b])
  | [], stored, _, hb => ⟨fun p hp => (hb p hp).resolve_right (by simp), trivial⟩
  | a :: l, stored, h, hb => by
    refine ⟨h.1, h.2.snoc fun p hp => ?_⟩
    rcases hb p hp with hs | hs
    · exact .inl (List.mem_cons_of_mem _ hs)
    · rcases List.mem_cons.1 hs with rfl | hs
      · exact .inl List.mem_cons_self
      · exact .inr hs

theorem Queued.mono : ∀ {l s t : List Block}, Queued s l → (∀ x ∈ s, x ∈ t) → Queued t l
  | [], _, _, _, _ => trivial
  | a :: l, s, t, h, hst => by
    refine ⟨fun p hp => hst p (h.1 p hp), h.2.mono fun x hx => ?_⟩
    rcases List.mem_cons.1 hx with rfl | hx
    · exact List.mem_cons_self
    · exact List.mem_cons_of_mem _ (hst x hx)

/-- The process that submitted the block was answered. -/
def Answered (w : Writer) (b : Block) : Prop := b ∈ w.returned ∨ b ∈ w.known

/-- `parents` follows from the order in which the chain comes to know blocks;
`waiting` and `apart` are about the jump blocks up to 500, which are all submitted
by calls. -/
structure Inv (w : Writer) : Prop where
  closed : ∀ b ∈ w.stored, ∀ p ∈ b.parent, p ∈ w.stored
  queued : Queued w.stored w.pending
  held : ∀ b, b ∈ w.pending ∨ b ∈ w.submitting → b ∈ w.stored ∨ b ∈ w.buffer
  kept : ∀ b, w.Answered b → b ∈ w.stored ∨ b ∈ w.pending
  parents : ∀ b, w.Answered b ∨ b ∈ w.submitting ∨ b ∈ w.pending ∨ b ∈ w.buffer ∨ b ∈ w.stored →
    ∀ p ∈ b.parent, p ∈ w.known
  rooted : ∀ b ∈ w.buffer, b.parent ≠ none
  waiting : ∀ b ∈ w.buffer, w.Answered b → b.number ≤ jump_size → Cmd.hash b ∈ w.blocks
  apart : ∀ b, w.Answered b → b.number ≤ jump_size → ∀ p ∈ b.parent, p ∉ w.buffer

theorem Inv.known (h : Inv w) (hb : b ∈ w.known) : b ∈ w.stored ∨ b ∈ w.buffer := by
  rcases h.kept b (.inr hb) with hs | hp
  · exact .inl hs
  · exact h.held b (.inl hp)

/-- Once all is written, the blocks of the table still have their parents there. -/
theorem Inv.closed_all (h : Inv w) : ∀ b ∈ w.stored ++ w.buffer, ∀ p ∈ b.parent,
    p ∈ w.stored ++ w.buffer := by
  intro b hb p hp
  rcases List.mem_append.1 hb with hb | hb
  · exact List.mem_append_left _ (h.closed b hb p hp)
  · exact List.mem_append.2 (h.known (h.parents b (.inr (.inr (.inr (.inl hb)))) p hp))

theorem Inv.seed (m : Bytes) : Inv (seed m) where
  closed b hb p hp := by
    obtain rfl := List.mem_singleton.1 hb
    cases hp
  queued := trivial
  held b hb := by
    rcases hb with hb | hb
    · cases hb
    · cases hb
  kept b hb := by
    rcases hb with hb | hb
    · cases hb
    · exact .inl hb
  parents b hb p hp := by
    rcases hb with (hb | hb) | hb | hb | hb | hb
    · cases hb
    · obtain rfl := List.mem_singleton.1 hb
      cases hp
    · cases hb
    · cases hb
    · cases hb
    · obtain rfl := List.mem_singleton.1 hb
      cases hp
  rooted := nofun
  waiting := nofun
  apart _ _ _ _ _ := nofun

/-! ## One write -/

theorem do_write_out (h : ∀ b ∈ c.block, b ∉ w.buffer) : w.do_write c = w := by
  unfold do_write
  cases hc : c.block with
  | none => rfl
  | some b => exact if_neg (h b hc)

theorem do_write_in (hc : c.block = some b) (h : b ∈ w.buffer) :
    w.do_write c = { w with stored := if b ∈ w.stored then w.stored else b :: w.stored
                            buffer := w.buffer.filter (· ≠ b)
                            mailbox := w.mailbox ++ [.write] } := by
  unfold do_write
  rw [hc]
  exact if_pos h

theorem write_eq (hb : w.blocks = c :: rest) :
    w.write = { w.do_write c with blocks := rest, mailbox := (w.do_write c).mailbox ++ [.write] } := by
  unfold write
  rw [hb]

/-- The head of the queue is written, or left out as it is not in the table. -/
theorem write_spec (hb : w.blocks = c :: rest) :
    (w.write.blocks = rest ∧ w.write.known = w.known ∧ w.write.submitting = w.submitting ∧
      w.write.returned = w.returned ∧ (∃ k, w.write.mailbox = w.mailbox ++ List.replicate (k + 1) .write)) ∧
    ((w.write.stored = w.stored ∧ w.write.buffer = w.buffer ∧ ∀ b ∈ c.block, b ∉ w.buffer) ∨
      ∃ b, c.block = some b ∧ b ∈ w.buffer ∧ w.write.buffer = w.buffer.filter (· ≠ b) ∧
        ∀ x, x ∈ w.write.stored ↔ x = b ∨ x ∈ w.stored) := by
  by_cases hin : ∃ b, c.block = some b ∧ b ∈ w.buffer
  · obtain ⟨b, hc, hmem⟩ := hin
    rw [write_eq hb, do_write_in hc hmem]
    refine ⟨⟨rfl, rfl, rfl, rfl, 1, by simp⟩, .inr ⟨b, hc, hmem, rfl, fun x => ?_⟩⟩
    by_cases hs : b ∈ w.stored
    · simp only [if_pos hs]
      exact ⟨.inr, fun hx => hx.elim (fun he => he ▸ hs) id⟩
    · simp only [if_neg hs, List.mem_cons]
  · have hout : ∀ b ∈ c.block, b ∉ w.buffer := fun b hc hmem => hin ⟨b, hc, hmem⟩
    rw [write_eq hb, do_write_out hout]
    exact ⟨⟨rfl, rfl, rfl, rfl, 0, rfl⟩, .inl ⟨rfl, rfl, hout⟩⟩

theorem filterMap_writes (k : Nat) : (List.replicate k Msg.write).filterMap Msg.block = [] := by
  rw [List.filterMap_eq_nil_iff]
  intro m hm
  rw [(List.mem_replicate.1 hm).2]
  rfl

/-- The head leaves the pending blocks. -/
theorem pending_write (hb : w.blocks = c :: rest) : w.pending = c.block.toList ++ w.write.pending := by
  obtain ⟨⟨hr, -, -, -, k, hm⟩, -⟩ := write_spec hb
  unfold pending
  rw [hr, hm, hb, List.filterMap_append, filterMap_writes, List.append_nil, List.filterMap_cons]
  cases c.block with
  | none => rfl
  | some b => rfl

/-- A block that is in the table after a write was there, and is not the one that was
at the head of the queue. -/
theorem mem_buffer_write (hb : w.blocks = c :: rest) (ha : a ∈ w.write.buffer) :
    a ∈ w.buffer ∧ c.block ≠ some a := by
  obtain ⟨-, ⟨-, hbuf, hout⟩ | ⟨b, hc, -, hbuf, -⟩⟩ := write_spec hb
  · rw [hbuf] at ha
    exact ⟨ha, fun hc => hout a hc ha⟩
  · rw [hbuf, List.mem_filter] at ha
    refine ⟨ha.1, fun he => ?_⟩
    rw [hc, Option.some.injEq] at he
    exact absurd he.symm (of_decide_eq_true ha.2)

theorem mem_stored_write (hb : w.blocks = c :: rest) (ha : a ∈ w.stored) : a ∈ w.write.stored := by
  obtain ⟨-, ⟨hst, -⟩ | ⟨b, -, -, -, hst⟩⟩ := write_spec hb
  · exact hst ▸ ha
  · exact (hst a).2 (.inr ha)

/-- The block at the head is in SQL afterwards. -/
theorem head_stored (h : Inv w) (hb : w.blocks = c :: rest) (hc : c.block = some b) :
    b ∈ w.write.stored := by
  obtain ⟨-, ⟨-, -, hout⟩ | ⟨b', hc', -, -, hst⟩⟩ := write_spec hb
  · have hp : b ∈ w.pending := by
      rw [pending_write hb, hc]
      exact List.mem_cons_self
    exact mem_stored_write hb ((h.held b (.inl hp)).resolve_right (hout b hc))
  · rw [hc, Option.some.injEq] at hc'
    exact (hst b).2 (.inl hc')

/-- What is in SQL or still to be written is so after a write. -/
theorem Inv.moved (h : Inv w) (hb : w.blocks = c :: rest) (hm : b ∈ w.stored ∨ b ∈ w.pending) :
    b ∈ w.write.stored ∨ b ∈ w.write.pending := by
  rcases hm with hm | hm
  · exact .inl (mem_stored_write hb hm)
  · rw [pending_write hb, List.mem_append] at hm
    rcases hm with hm | hm
    · exact .inl (head_stored h hb (Option.mem_toList.1 hm))
    · exact .inr hm

theorem Inv.write_cons (h : Inv w) (hb : w.blocks = c :: rest) : Inv w.write := by
  obtain ⟨⟨hr, hk, hsub, hret, -⟩, hcase⟩ := write_spec hb
  have hpend := pending_write hb
  have hans : ∀ b, w.write.Answered b ↔ w.Answered b := fun b => by
    unfold Answered
    rw [hk, hret]
  have hsubset : ∀ b ∈ w.write.pending, b ∈ w.pending := fun b hm => by
    rw [hpend]
    exact List.mem_append_right _ hm
  refine ⟨?_, ?_, ?_, fun b hb' => h.moved hb (h.kept b ((hans b).1 hb')), ?_, ?_, ?_, ?_⟩
  · -- a written block's parent was written before
    rcases hcase with ⟨hst, -⟩ | ⟨b, hc, -, -, hst⟩
    · rw [hst]
      exact h.closed
    · intro x hx p hp
      rcases (hst x).1 hx with rfl | hx
      · have hq := h.queued
        rw [hpend, hc] at hq
        exact (hst p).2 (.inr (hq.1 p hp))
      · exact (hst p).2 (.inr (h.closed x hx p hp))
  · have hq := h.queued
    rw [hpend] at hq
    cases hc : c.block with
    | none =>
      rw [hc] at hq
      exact hq.mono fun x => mem_stored_write hb
    | some b =>
      rw [hc] at hq
      refine hq.2.mono fun x hx => ?_
      rcases List.mem_cons.1 hx with rfl | hx
      · exact head_stored h hb hc
      · exact mem_stored_write hb hx
  · intro x hx
    by_cases hc : c.block = some x
    · exact .inl (head_stored h hb hc)
    · rcases h.held x (hx.imp (hsubset x) (hsub ▸ ·)) with hs | hs
      · exact .inl (mem_stored_write hb hs)
      · rcases hcase with ⟨-, hbuf, -⟩ | ⟨b, hcb, -, hbuf, -⟩
        · exact .inr (hbuf ▸ hs)
        · refine .inr (hbuf ▸ List.mem_filter.2 ⟨hs, decide_eq_true fun he => hc ?_⟩)
          rw [he, hcb]
  · intro b hm p hp
    rw [hk]
    refine h.parents b ?_ p hp
    rcases hm with hm | hm | hm | hm | hm
    · exact .inl ((hans b).1 hm)
    · exact .inr (.inl (hsub ▸ hm))
    · exact .inr (.inr (.inl (hsubset b hm)))
    · exact .inr (.inr (.inr (.inl (mem_buffer_write hb hm).1)))
    · rcases hcase with ⟨hst, -⟩ | ⟨a, -, hin, -, hst⟩
      · exact .inr (.inr (.inr (.inr (hst ▸ hm))))
      · rcases (hst b).1 hm with rfl | hm
        · exact .inr (.inr (.inr (.inl hin)))
        · exact .inr (.inr (.inr (.inr hm)))
  · exact fun b hm => h.rooted b (mem_buffer_write hb hm).1
  · intro b hm ha hn
    obtain ⟨hin, hne⟩ := mem_buffer_write hb hm
    have hw := h.waiting b hin ((hans b).1 ha) hn
    rw [hb] at hw
    rw [hr]
    exact (List.mem_cons.1 hw).resolve_left fun he => hne (he ▸ rfl)
  · exact fun b ha hn p hp hm => h.apart b ((hans b).1 ha) hn p hp (mem_buffer_write hb hm).1

theorem Inv.write (h : Inv w) : Inv w.write := by
  cases hb : w.blocks with
  | nil =>
    unfold Writer.write
    rw [hb]
    exact h
  | cons c rest => exact h.write_cons hb

/-! ## Submitting -/

/-- A command moves from the messages to the queue. -/
theorem Inv.requeue (h : Inv w) {q : List Cmd} {M : List Msg}
    (hp : { w with blocks := q, mailbox := M }.pending = w.pending) (hq : ∀ c ∈ w.blocks, c ∈ q) :
    Inv { w with blocks := q, mailbox := M } where
  closed := h.closed
  queued := by
    rw [hp]
    exact h.queued
  held := by
    rw [hp]
    exact h.held
  kept := by
    rw [hp]
    exact h.kept
  parents := by
    rw [hp]
    exact h.parents
  rooted := h.rooted
  waiting b hb ha hn := hq _ (h.waiting b hb ha hn)
  apart := h.apart

/-- The process of a block is answered. -/
theorem Inv.answer (h : Inv w) (hk : b ∈ w.stored ∨ b ∈ w.pending) (hp : ∀ p ∈ b.parent, p ∈ w.known)
    (hw : b ∈ w.buffer → b.number ≤ jump_size → Cmd.hash b ∈ w.blocks)
    (ha : b.number ≤ jump_size → ∀ p ∈ b.parent, p ∉ w.buffer) :
    Inv { w with returned := b :: w.returned } := by
  have hans : ∀ x, Answered { w with returned := b :: w.returned } x → x = b ∨ w.Answered x := by
    intro x hx
    rcases hx with hx | hx
    · exact (List.mem_cons.1 hx).imp_right .inl
    · exact .inr (.inr hx)
  refine ⟨h.closed, h.queued, h.held, fun x hx => ?_, fun x hx => ?_, h.rooted, fun x hb hx hn => ?_,
    fun x hx hn => ?_⟩
  · rcases hans x hx with rfl | hx
    · exact hk
    · exact h.kept x hx
  · rcases hx with hx | hx
    · rcases hans x hx with rfl | hx
      · exact hp
      · exact h.parents x (.inl hx)
    · exact h.parents x (.inr hx)
  · rcases hans x hx with rfl | hx
    · exact hw hb hn
    · exact h.waiting x hb hx hn
  · rcases hans x hx with rfl | hx
    · exact ha hn
    · exact h.apart x hx hn

theorem Inv.put (h : Inv w) (b : Block) : Inv (w.put b) := by
  unfold Writer.put
  cases hpar : b.parent with
  | none => exact h
  | some p =>
    by_cases hput : p ∈ w.known ∧ b ∉ w.known
    · simp only [if_pos hput]
      have hbuf : ∀ x, x ∈ (if b ∈ w.buffer then w.buffer else w.buffer ++ [b]) ↔ x ∈ w.buffer ∨ x = b := by
        intro x
        by_cases hb : b ∈ w.buffer
        · rw [if_pos hb]
          exact ⟨.inl, fun hx => hx.elim id (fun he => he ▸ hb)⟩
        · rw [if_neg hb, List.mem_append, List.mem_singleton]
      have hans : ∀ x, (x ∈ w.returned.filter (· ≠ b) ∨ x ∈ w.known) → w.Answered x ∧ x ≠ b := by
        rintro x (hx | hx)
        · obtain ⟨hx, hne⟩ := List.mem_filter.1 hx
          exact ⟨.inl hx, of_decide_eq_true hne⟩
        · exact ⟨.inr hx, fun he => hput.2 (he ▸ hx)⟩
      have hown : ∀ q ∈ b.parent, q ∈ w.known := fun q hq => by
        rw [hpar] at hq
        cases hq
        exact hput.1
      refine ⟨h.closed, h.queued, fun x hx => ?_, fun x hx => h.kept x (hans x hx).1, fun x hx => ?_,
        fun x hx => ?_, fun x hb hx hn => ?_, fun x hx hn q hq hm => ?_⟩
      · rw [hbuf]
        rcases hx with hx | hx
        · exact (h.held x (.inl hx)).imp_right .inl
        · rcases List.mem_cons.1 hx with rfl | hx
          · exact .inr (.inr rfl)
          · exact (h.held x (.inr hx)).imp_right .inl
      · rcases hx with hx | hx | hx | hx | hx
        · exact h.parents x (.inl (hans x hx).1)
        · rcases List.mem_cons.1 hx with rfl | hx
          · exact hown
          · exact h.parents x (.inr (.inl hx))
        · exact h.parents x (.inr (.inr (.inl hx)))
        · rcases (hbuf x).1 hx with hx | rfl
          · exact h.parents x (.inr (.inr (.inr (.inl hx))))
          · exact hown
        · exact h.parents x (.inr (.inr (.inr (.inr hx))))
      · rcases (hbuf x).1 hx with hx | rfl
        · exact h.rooted x hx
        · rw [hpar]
          nofun
      · obtain ⟨hx, hne⟩ := hans x hx
        exact h.waiting x (((hbuf x).1 hb).resolve_right hne) hx hn
      · -- the parent of an answered block is known, and is not put again
        have hax := (hans x hx).1
        rcases (hbuf q).1 hm with hm | rfl
        · exact h.apart x hax hn q hq hm
        · exact hput.2 (h.parents x (.inl hax) q hq)
    · simp only [if_neg hput]
      exact h

theorem Inv.ets_add_alt (h : Inv w) (b : Block) : Inv (w.ets_add_alt b) := by
  unfold Writer.ets_add_alt
  split
  · rename_i hb
    have hans : ∀ x, Answered { w with known := b :: w.known } x → w.Answered x := by
      rintro x (hx | hx)
      · exact .inl hx
      · rcases List.mem_cons.1 hx with rfl | hx
        · exact .inl hb
        · exact .inr hx
    exact
      { closed := h.closed
        queued := h.queued
        held := h.held
        kept := fun x hx => h.kept x (hans x hx)
        parents := fun x hx p hp =>
          List.mem_cons_of_mem _ (h.parents x (hx.imp_left (hans x)) p hp)
        rooted := h.rooted
        waiting := fun x hb hx => h.waiting x hb (hans x hx)
        apart := fun x hx => h.apart x (hans x hx) }
  · exact h

theorem pending_snoc {s t : List Block} {m : Msg} (hm : m.block = some b) :
    { w with mailbox := w.mailbox ++ [m], submitting := s, returned := t }.pending = w.pending ++ [b] := by
  unfold pending
  simp [hm]

/-- The message of a block joins the others. -/
theorem Inv.send (h : Inv w) {m : Msg} (hm : m.block = some b) (hb : b ∈ w.submitting) :
    Inv { w with submitting := w.submitting.erase b, mailbox := w.mailbox ++ [m] } := by
  have hpend : { w with submitting := w.submitting.erase b, mailbox := w.mailbox ++ [m] }.pending =
      w.pending ++ [b] := pending_snoc hm
  have hpar := h.parents b (.inr (.inl hb))
  have hmem : ∀ x, x ∈ w.pending ++ [b] → x ∈ w.pending ∨ x ∈ w.submitting := by
    intro x hx
    rcases List.mem_append.1 hx with hx | hx
    · exact .inl hx
    · exact .inr (List.mem_singleton.1 hx ▸ hb)
  have hsub : ∀ x ∈ w.submitting.erase b, x ∈ w.submitting := fun x => List.mem_of_mem_erase
  refine ⟨h.closed, ?_, fun x hx => ?_, fun x hx => ?_, fun x hx => ?_, h.rooted, h.waiting, h.apart⟩
  · have hq : Queued w.stored (w.pending ++ [b]) :=
      h.queued.snoc fun p hp => h.kept p (.inr (hpar p hp))
    exact hpend.symm ▸ hq
  · rcases hx with hx | hx
    · exact h.held x (hmem x (hpend ▸ hx))
    · exact h.held x (.inr (hsub x hx))
  · refine (h.kept x hx).imp_right fun hx => ?_
    exact hpend.symm ▸ List.mem_append_left _ hx
  · rcases hx with hx | hx | hx | hx
    · exact h.parents x (.inl hx)
    · exact h.parents x (.inr (.inl (hsub x hx)))
    · rcases hmem x (hpend ▸ hx) with hx | hx
      · exact h.parents x (.inr (.inr (.inl hx)))
      · exact h.parents x (.inr (.inl hx))
    · exact h.parents x (.inr (.inr (.inr hx)))

theorem Inv.submit (h : Inv w) (b : Block) : Inv (w.submit b) := by
  unfold Writer.submit
  split
  · rename_i hb
    dsimp only
    split
    · exact h.send rfl hb
    · rename_i hcall
      have hlate : ¬ b.number ≤ jump_size := fun hn =>
        hcall (.inr (Bool.or_eq_true_iff.2 (.inl (decide_eq_true hn))))
      have hsend := @Inv.send w b h (.cast (.task b)) rfl hb
      refine hsend.answer (.inr ?_) (h.parents b (.inr (.inl hb))) (fun _ hn => absurd hn hlate)
        (fun hn => absurd hn hlate)
      rw [pending_snoc (m := .cast (.task b)) rfl]
      exact List.mem_append_right _ List.mem_cons_self
  · exact h

/-! ## Who is served when -/

/-- Each command has a `:write` behind it. A call finds the block's parent written:
the `:write` messages before the call reach it in the queue. `k` counts a `:write`
that is being handled. -/
structure Served (w : Writer) (k : Nat) : Prop where
  credit : w.blocks.length ≤ k + w.mailbox.count .write
  calls : ∀ M₁ M₂ b, w.mailbox = M₁ ++ .call b :: M₂ → b.number ≤ jump_size → ∀ p ∈ b.parent,
    p ∈ w.buffer → Cmd.hash p ∈ w.blocks.take (k + M₁.count .write)

theorem take_mono {α : Type} {l : List α} {x : α} {m n : Nat} (hx : x ∈ l.take m) (hmn : m ≤ n) :
    x ∈ l.take n :=
  (List.take_subset_take_left l hmn) hx

theorem Served.succ (hs : Served w 0) : Served w 1 where
  credit := by
    have := hs.credit
    omega
  calls M₁ M₂ b hM hn p hp hm := take_mono (hs.calls M₁ M₂ b hM hn p hp hm) (by omega)

/-- A call that stands before other messages. -/
theorem call_of_append {M N M₁ M₂ : List Msg} (h : M ++ N = M₁ ++ .call b :: M₂)
    (hN : ∀ x, Msg.call x ∉ N) : ∃ M₂', M = M₁ ++ .call b :: M₂' := by
  rcases List.append_eq_append_iff.1 h with ⟨T, hT, hN'⟩ | ⟨T, hT, hM⟩
  · exact absurd (hN' ▸ List.mem_append_right T List.mem_cons_self) (hN b)
  · cases T with
    | nil =>
      rw [List.nil_append] at hM
      exact absurd (hM ▸ List.mem_cons_self) (hN b)
    | cons m T =>
      rw [List.cons_append, List.cons.injEq] at hM
      exact ⟨T, by rw [hT, ← hM.1]⟩

theorem Served.write (hs : Served w 1) : Served w.write 0 := by
  cases hb : w.blocks with
  | nil =>
    have heq : w.write = w := by
      unfold Writer.write
      rw [hb]
    rw [heq]
    refine ⟨by rw [hb]; exact Nat.zero_le _, fun M₁ M₂ b hM hn p hp hm => ?_⟩
    have := hs.calls M₁ M₂ b hM hn p hp hm
    rw [hb, List.take_nil] at this
    cases this
  | cons c rest =>
    obtain ⟨⟨hr, -, -, -, k, hk⟩, -⟩ := write_spec hb
    constructor
    · have := hs.credit
      rw [hr, hk, List.count_append, List.count_replicate_self]
      rw [hb, List.length_cons] at this
      omega
    · intro M₁ M₂ b hM hn p hp hm
      rw [hk] at hM
      obtain ⟨M₂', hM⟩ := call_of_append hM fun x hx => by cases (List.mem_replicate.1 hx).2
      obtain ⟨hin, hne⟩ := mem_buffer_write hb hm
      have htake := hs.calls M₁ M₂' b hM hn p hp hin
      rw [hb, Nat.add_comm, List.take_succ_cons] at htake
      rw [hr, Nat.zero_add]
      exact (List.mem_cons.1 htake).resolve_left fun he => hne (he ▸ rfl)

/-- A message that is no call is taken from the mailbox. -/
theorem Served.tail {m : Msg} {rest : List Msg} (hs : Served w 0) (hM : w.mailbox = m :: rest) :
    Served { w with mailbox := rest } (if m = .write then 1 else 0) := by
  have hcount : ∀ l, List.count Msg.write (m :: l) = (if m = .write then 1 else 0) + l.count .write := by
    intro l
    rw [List.count_cons, Nat.add_comm]
    simp only [beq_iff_eq]
  constructor
  · have := hs.credit
    rw [hM, hcount, Nat.zero_add] at this
    exact this
  · intro M₁ M₂ b hrest hn p hp hm
    have hcall : w.mailbox = (m :: M₁) ++ .call b :: M₂ := by
      rw [hM, List.cons_append]
      exact congrArg (m :: ·) hrest
    have := hs.calls (m :: M₁) M₂ b hcall hn p hp hm
    rw [hcount, Nat.zero_add] at this
    exact this

/-- A message that is no call joins the others. -/
theorem Served.snoc {k : Nat} (hs : Served w k) {N : List Msg} (hN : ∀ x, Msg.call x ∉ N) :
    Served { w with mailbox := w.mailbox ++ N } k where
  credit := by
    have := hs.credit
    change w.blocks.length ≤ k + List.count .write (w.mailbox ++ N)
    rw [List.count_append]
    omega
  calls M₁ M₂ b hM hn p hp hm := by
    obtain ⟨M₂', hM⟩ := call_of_append hM hN
    exact hs.calls M₁ M₂' b hM hn p hp hm

theorem mem_take_append {q : List Cmd} {a : Cmd} {n : Nat} (c : Cmd) (h : a ∈ q.take n) :
    a ∈ (q ++ [c]).take n := by
  rw [List.take_append]
  exact List.mem_append_left _ h

/-- A command joins the queue, and the queue is written from at once. -/
theorem Served.enqueue (hs : Served w 0) (c : Cmd) : Served { w with blocks := w.blocks ++ [c] } 1 where
  credit := by
    have := hs.credit
    change (w.blocks ++ [c]).length ≤ 1 + w.mailbox.count .write
    rw [List.length_append, List.length_singleton]
    omega
  calls M₁ M₂ b hM hn p hp hm :=
    mem_take_append c (hs.succ.calls M₁ M₂ b hM hn p hp hm)

/-- A command joins the queue, and a `:write` for it the messages. -/
theorem Served.cast (hs : Served w 0) (c : Cmd) :
    Served { w with blocks := w.blocks ++ [c], mailbox := w.mailbox ++ [.write] } 0 where
  credit := by
    have := hs.credit
    change (w.blocks ++ [c]).length ≤ 0 + List.count .write (w.mailbox ++ [.write])
    rw [List.length_append, List.length_singleton, List.count_append, List.count_singleton_self]
    omega
  calls M₁ M₂ b hM hn p hp hm := by
    obtain ⟨M₂', hM⟩ := call_of_append hM (by simp)
    exact mem_take_append c (hs.calls M₁ M₂' b hM hn p hp hm)

/-! ## Steps -/

theorem pending_tail {m : Msg} {rest : List Msg} (hM : w.mailbox = m :: rest) (hm : m.block = none) :
    { w with mailbox := rest }.pending = w.pending := by
  unfold pending
  rw [hM, List.filterMap_cons, hm]

theorem pending_queue {m : Msg} {rest : List Msg} (hM : w.mailbox = m :: rest) (hm : m.block = c.block) :
    { w with blocks := w.blocks ++ [c], mailbox := rest }.pending = w.pending := by
  unfold pending
  rw [hM, List.filterMap_cons, hm, List.filterMap_append, List.append_assoc]
  congr 1
  cases hc : c.block with
  | none => simp [hc]
  | some b => simp [hc]

/-- A call is answered: one command is written, and the block's parent is not in the
table any more. -/
theorem Inv.handle_call {rest : List Msg} (h : Inv w) (hs : Served w 0) (hM : w.mailbox = .call b :: rest) :
    Inv ({ w with mailbox := rest }.handle (.call b)) ∧
      Served ({ w with mailbox := rest }.handle (.call b)) 0 := by
  have hpend := @pending_queue w (.hash b) _ rest hM rfl
  have hreq := h.requeue hpend fun c hc => List.mem_append_left _ hc
  have htail : Served { w with mailbox := rest } 0 := hs.tail hM
  have hserved := (htail.enqueue (.hash b)).write
  refine ⟨?_, hserved.credit, hserved.calls⟩
  -- the queue is not empty
  obtain ⟨c, q, hq⟩ : ∃ c q, w.blocks ++ [Cmd.hash b] = c :: q := List.exists_cons_of_ne_nil (by simp)
  have hmem : b ∈ w.pending := by
    unfold pending
    rw [hM]
    exact List.mem_append_right _ List.mem_cons_self
  have hspec := (@write_spec { w with blocks := w.blocks ++ [.hash b], mailbox := rest } c q hq).1
  refine hreq.write.answer (hreq.moved hq (.inr (hpend.symm ▸ hmem))) ?_ ?_ ?_
  · rw [hspec.2.1]
    exact h.parents b (.inr (.inr (.inl hmem)))
  · intro hbuf hn
    have hne := (mem_buffer_write hq hbuf).2
    have hin : Cmd.hash b ∈ c :: q := hq ▸ List.mem_append_right _ List.mem_cons_self
    rw [hspec.1]
    exact (List.mem_cons.1 hin).resolve_left fun he => hne (he ▸ rfl)
  · intro hn p hp hbuf
    have := hs.calls [] rest b hM hn p hp (mem_buffer_write hq hbuf).1
    rw [List.count_nil, Nat.zero_add, List.take_zero] at this
    cases this

theorem Inv.handle {m : Msg} {rest : List Msg} (h : Inv w) (hs : Served w 0) (hM : w.mailbox = m :: rest) :
    Inv ({ w with mailbox := rest }.handle m) ∧ Served ({ w with mailbox := rest }.handle m) 0 := by
  have htail := hs.tail hM
  cases m with
  | call b => exact h.handle_call hs hM
  | cast c =>
    refine ⟨h.requeue ?_ fun a ha => List.mem_append_left _ ha, Served.cast htail c⟩
    rw [← @pending_queue w c _ rest hM rfl]
    unfold pending
    simp [Msg.block]
  | write =>
    exact ⟨(h.requeue (pending_tail hM rfl) fun _ => id).write, Served.write htail⟩
  | wait_for_done =>
    exact ⟨(h.requeue (pending_tail hM rfl) fun _ => id).write, (Served.succ htail).write⟩

/-- The parent of a block of number at most 500 is one too. -/
theorem parent_early (hp : p ∈ b.parent) (hn : b.number ≤ jump_size) : p.number ≤ jump_size := by
  cases b with
  | genesis m => cases hp
  | child q m x =>
    obtain rfl : q = p := Option.some.inj hp
    exact Nat.le_of_succ_le hn

/-- The call of a block joins the messages. Its parent is known, so in the queue if it
is in the table at all. -/
theorem Served.call (h : Inv w) (hs : Served w 0) (hb : b ∈ w.submitting) :
    Served { w with submitting := w.submitting.erase b, mailbox := w.mailbox ++ [.call b] } 0 where
  credit := by
    have := hs.credit
    change w.blocks.length ≤ 0 + List.count .write (w.mailbox ++ [.call b])
    rw [List.count_append]
    omega
  calls M₁ M₂ x hM hn p hp hm := by
    rcases List.eq_nil_or_concat M₂ with rfl | ⟨T, m, rfl⟩
    · obtain ⟨rfl, hx⟩ := List.append_inj' hM rfl
      obtain rfl : b = x := by simpa using hx
      have hknown := h.parents b (.inr (.inl hb)) p hp
      have hw := h.waiting p hm (.inr hknown) (parent_early hp hn)
      have hcr := hs.credit
      rw [List.take_of_length_le hcr]
      exact hw
    · rw [List.concat_eq_append, ← List.cons_append, ← List.append_assoc] at hM
      obtain ⟨hM, -⟩ := List.append_inj' hM rfl
      exact hs.calls M₁ T x hM hn p hp hm

theorem Served.put (h : Inv w) (hs : Served w 0) (b : Block) : Served (w.put b) 0 := by
  unfold Writer.put
  cases hpar : b.parent with
  | none => exact hs
  | some q =>
    by_cases hput : q ∈ w.known ∧ b ∉ w.known
    · simp only [if_pos hput]
      refine ⟨hs.credit, fun M₁ M₂ x hM hn p hp hm => ?_⟩
      have hx : x ∈ w.pending := by
        unfold pending
        rw [show w.mailbox = M₁ ++ .call x :: M₂ from hM]
        simp [Msg.block]
      have hknown := h.parents x (.inr (.inr (.inl hx))) p hp
      have hne : p ≠ b := fun he => hput.2 (he ▸ hknown)
      refine hs.calls M₁ M₂ x hM hn p hp ?_
      change p ∈ (if b ∈ w.buffer then w.buffer else w.buffer ++ [b]) at hm
      split at hm
      · exact hm
      · exact (List.mem_append.1 hm).resolve_right fun he => hne (List.mem_singleton.1 he)
    · simp only [if_neg hput]
      exact hs

theorem Served.submit (h : Inv w) (hs : Served w 0) (b : Block) : Served (w.submit b) 0 := by
  unfold Writer.submit
  split
  · rename_i hb
    dsimp only
    split
    · exact Served.call h hs hb
    · have hsnoc := hs.snoc (N := [.cast (.task b)]) (by simp)
      exact ⟨hsnoc.credit, hsnoc.calls⟩
  · exact hs

/-- Every step keeps both. -/
theorem Inv.step (h : Inv w) (hs : Served w 0) (op : Op) : Inv (w.step op) ∧ Served (w.step op) 0 := by
  cases op with
  | put b => exact ⟨h.put b, hs.put h b⟩
  | submit b => exact ⟨h.submit b, hs.submit h b⟩
  | ets_add_alt b =>
    refine ⟨h.ets_add_alt b, ?_⟩
    change Served (w.ets_add_alt b) 0
    unfold Writer.ets_add_alt
    split
    · exact ⟨hs.credit, hs.calls⟩
    · exact hs
  | put_block_number b =>
    refine ⟨h.requeue ?_ fun _ => id, hs.snoc (N := [.cast (.num b)]) (by simp)⟩
    unfold pending
    simp [Msg.block, Cmd.block]
  | wait_for_done =>
    refine ⟨h.requeue ?_ fun _ => id, hs.snoc (N := [.wait_for_done]) (by simp)⟩
    unfold pending
    simp [Msg.block]
  | handle =>
    unfold Writer.step
    cases hM : w.mailbox with
    | nil => exact ⟨h, hs⟩
    | cons m rest => exact h.handle hs hM
  | restart =>
    refine ⟨⟨h.closed, trivial, ?_, ?_, ?_, nofun, nofun, fun _ _ _ _ _ => nofun⟩, ⟨Nat.zero_le _, ?_⟩⟩
    · rintro b (hb | hb)
      · cases hb
      · cases hb
    · rintro b (hb | hb)
      · cases hb
      · exact .inl hb
    · rintro b ((hb | hb) | hb | hb | hb | hb)
      · cases hb
      · exact h.closed b hb
      · cases hb
      · cases hb
      · cases hb
      · exact h.closed b hb
    · intro M₁ M₂ b hM
      simp [Writer.step] at hM

theorem Served.seed (m : Bytes) : Served (seed m) 0 := by
  refine ⟨Nat.zero_le _, fun M₁ M₂ b hM => ?_⟩
  simp [Writer.seed] at hM

end Writer
end Diode.L5
