import Mathlib.Logic.Basic

/-!
# Programs that ask

An `Asks` is a program that runs against an environment: it ends with a value,
stops with an error, or asks a question and goes on with the answer. What the
environment does between two questions is not said, so a statement about every
list of answers is one about every environment.

`All` is the precondition rule: what is assumed of the answers, what is promised
of the questions and of the errors, and what holds of the value. It goes through
a sequence (`all_bind`) and through a loop with an invariant (`loop_all`) that
has a measure (`loop_ends`); `All.ok` and `All.error` read it off a run.
-/
namespace Diode.Core

inductive Asks (Q : Type) (R : Q → Type) (E α : Type) where
  | ret (a : α)
  | stop (e : E)
  | ask (q : Q) (next : R q → Asks Q R E α)

namespace Asks

variable {Q : Type} {R : Q → Type} {E α β S O : Type}

def bind : Asks Q R E α → (α → Asks Q R E β) → Asks Q R E β
  | ret a, f => f a
  | stop e, _ => stop e
  | ask q next, f => ask q fun r => (next r).bind f

instance instMonadAsks : Monad (Asks Q R E) where
  pure := ret
  bind := bind

/-! ## Runs -/

/-- A run: the questions with their answers, and how it ends. -/
inductive Plays : Asks Q R E α → List (Σ q, R q) → Except E α → Prop where
  | ret (a : α) : Plays (ret a) [] (.ok a)
  | stop (e : E) : Plays (stop e) [] (.error e)
  | ask {q : Q} {next : R q → Asks Q R E α} {tr : List (Σ q, R q)} {o : Except E α} (r : R q) :
      Plays (next r) tr o → Plays (ask q next) (⟨q, r⟩ :: tr) o

/-- The run with these answers, where they are answers to what it asks. -/
def play [DecidableEq Q] : Asks Q R E α → List (Σ q, R q) → Option (Except E α)
  | ret a, [] => some (.ok a)
  | stop e, [] => some (.error e)
  | ask q next, a :: tr => if h : a.1 = q then (next (h ▸ a.2)).play tr else none
  | _, _ => none

theorem plays_of_play [DecidableEq Q] {x : Asks Q R E α} {tr : List (Σ q, R q)} {o : Except E α}
    (h : x.play tr = some o) : x.Plays tr o := by
  induction x generalizing tr with
  | ret a =>
    cases tr with
    | nil => cases h; exact .ret a
    | cons a tr => cases h
  | stop e =>
    cases tr with
    | nil => cases h; exact .stop e
    | cons a tr => cases h
  | ask q next ih =>
    cases tr with
    | nil => cases h
    | cons a tr =>
      obtain ⟨q', r⟩ := a
      rw [play] at h
      split at h
      · next hq =>
        cases hq
        exact .ask r (ih r h)
      · cases h

/-! ## The rule -/

/-- What a program may rely on and what it must keep to. -/
structure Terms (Q : Type) (R : Q → Type) (E : Type) where
  answer : (q : Q) → R q → Prop
  question : Q → Prop
  error : E → Prop

variable {t : Terms Q R E} {post : α → Prop}

def All (t : Terms Q R E) (post : α → Prop) : Asks Q R E α → Prop
  | ret a => post a
  | stop e => t.error e
  | ask q next => t.question q ∧ ∀ r, t.answer q r → All t post (next r)

@[simp] theorem all_ret (a : α) : (ret a : Asks Q R E α).All t post ↔ post a := Iff.rfl

@[simp] theorem all_stop (e : E) : (stop e : Asks Q R E α).All t post ↔ t.error e := Iff.rfl

theorem all_ask (q : Q) (next : R q → Asks Q R E α) :
    (ask q next).All t post ↔ t.question q ∧ ∀ r, t.answer q r → (next r).All t post := Iff.rfl

@[simp] theorem all_bind {post : β → Prop} (x : Asks Q R E α) (f : α → Asks Q R E β) :
    (x >>= f).All t post ↔ x.All t fun a => (f a).All t post := by
  show (x.bind f).All t post ↔ _
  induction x with
  | ret a => rfl
  | stop e => rfl
  | ask q next ih => exact and_congr_right fun _ => forall₂_congr fun r _ => ih r

theorem All.mono {post' : α → Prop} {x : Asks Q R E α} (h : x.All t post)
    (himp : ∀ a, post a → post' a) : x.All t post' := by
  induction x with
  | ret a => exact himp a h
  | stop e => exact h
  | ask q next ih => exact ⟨h.1, fun r hr => ih r (h.2 r hr)⟩

/-- Whatever the value is. -/
theorem All.any {x : Asks Q R E α} (h : x.All t fun _ => True) (hp : ∀ a, post a) : x.All t post :=
  h.mono fun a _ => hp a

/-- A check that stops the program. -/
theorem all_guard {p : Prop} [Decidable p] {e : E} {f : β → Asks Q R E α} {x : Asks Q R E α} (he : t.error e) :
    (if p then stop e >>= f else x).All t post ↔ (¬p → x.All t post) := by
  by_cases hp : p
  · rw [if_pos hp, all_bind, all_stop]
    exact iff_of_true he fun h => absurd hp h
  · rw [if_neg hp]
    exact ⟨fun h _ => h, fun h => h hp⟩

/-! ## What the rule says of a run -/

/-- Every answer of the run is one the terms allow. -/
def Answered (t : Terms Q R E) (tr : List (Σ q, R q)) : Prop := ∀ a ∈ tr, t.answer a.1 a.2

variable {x : Asks Q R E α} {tr : List (Σ q, R q)} {a : α} {e : E}

theorem All.ok (h : x.All t post) (hp : x.Plays tr (.ok a)) (ha : Answered t tr) : post a := by
  generalize ho : (Except.ok a : Except E α) = o at hp
  induction hp with
  | ret b =>
    cases ho
    exact h
  | stop e => cases ho
  | ask r _ ih => exact ih (h.2 r (ha _ List.mem_cons_self)) (fun a hm => ha a (.tail _ hm)) ho

theorem All.error (h : x.All t post) (hp : x.Plays tr (.error e)) (ha : Answered t tr) : t.error e := by
  generalize ho : (Except.error e : Except E α) = o at hp
  induction hp with
  | ret b => cases ho
  | stop e =>
    cases ho
    exact h
  | ask r _ ih => exact ih (h.2 r (ha _ List.mem_cons_self)) (fun a hm => ha a (.tail _ hm)) ho

theorem All.question {o : Except E α} (h : x.All t post) (hp : x.Plays tr o) (ha : Answered t tr) :
    ∀ a ∈ tr, t.question a.1 := by
  induction hp with
  | ret b => exact fun a hm => by cases hm
  | stop e => exact fun a hm => by cases hm
  | ask r _ ih =>
    intro a hm
    cases hm with
    | head => exact h.1
    | tail _ hm => exact ih (h.2 r (ha _ List.mem_cons_self)) (fun a hm => ha a (.tail _ hm)) a hm

-- From here on a run goes through the rules, never by evaluation.
attribute [irreducible] All

/-! ## Loops -/

/-- Steps until one ends; `none` has run out of fuel. -/
def loop (step : S → Asks Q R E (S ⊕ O)) : Nat → S → Asks Q R E (Option O)
  | 0, _ => ret none
  | n + 1, s => do
    match ← step s with
    | .inl s => loop step n s
    | .inr o => ret (some o)

variable {step : S → Asks Q R E (S ⊕ O)} {inv : S → Prop} {fin : O → Prop}

/-- An invariant of every step holds through the loop. -/
theorem loop_all (hstep : ∀ s, inv s → (step s).All t (Sum.elim inv fin)) (n : Nat) {s : S} (hs : inv s) :
    (loop step n s).All t fun o => ∀ r ∈ o, fin r := by
  induction n generalizing s with
  | zero => exact (all_ret _).2 fun r hr => by cases hr
  | succ n ih =>
    rw [loop, all_bind]
    refine (hstep s hs).mono fun o ho => ?_
    cases o with
    | inl s' => exact ih ho
    | inr r => exact (all_ret _).2 fun r' hr => by cases hr; exact ho

/-- Steps that make a measure smaller come to an end. -/
theorem loop_ends (μ : S → Nat)
    (hstep : ∀ s, inv s → (step s).All t (Sum.elim (fun s' => inv s' ∧ μ s' < μ s) fin)) (n : Nat) {s : S}
    (hs : inv s) (hn : μ s < n) : (loop step n s).All t fun o => ∃ r, o = some r ∧ fin r := by
  induction n generalizing s with
  | zero => omega
  | succ n ih =>
    rw [loop, all_bind]
    refine (hstep s hs).mono fun o ho => ?_
    cases o with
    | inl s' => exact ih ho.1 (by have := ho.2; omega)
    | inr r => exact (all_ret _).2 ⟨r, rfl, ho⟩

/-- The states a loop comes to against an environment that keeps to the terms. -/
inductive Reach (t : Terms Q R E) (step : S → Asks Q R E (S ⊕ O)) (s0 : S) : S → Prop where
  | start : Reach t step s0 s0
  | next {s s' : S} {tr : List (Σ q, R q)} : Reach t step s0 s → (step s).Plays tr (.ok (.inl s')) →
      Answered t tr → Reach t step s0 s'

theorem Reach.keeps {s0 s : S} (h : Reach t step s0 s) (h0 : inv s0)
    (hstep : ∀ s, inv s → (step s).All t (Sum.elim inv fin)) : inv s := by
  induction h with
  | start => exact h0
  | next _ hp ha ih => exact (hstep _ ih).ok hp ha

end Asks
end Diode.Core
