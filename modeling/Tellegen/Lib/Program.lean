import Tellegen.Lib.Outcome

/-!
Programs that mutate a state, may fail, and ask their host a yes/no question
at checkpoints. A failed program still hands back the state it had reached, so
that discarding a half-applied change is something the caller has to do.

A checkpoint is a suspension: nothing is assumed about the answer the host
resumes with. `wp` therefore quantifies over every answer, and `run` replays a
program under one recorded sequence of answers.
-/

namespace Program

open Outcome

inductive Checkpoint (α : Type) where
  | done (value : α)
  | ask (resume : Bool → Checkpoint α)

namespace Checkpoint

variable {α β : Type}

def bind : Checkpoint α → (α → Checkpoint β) → Checkpoint β
  | .done value, f => f value
  | .ask resume, f => .ask fun answer => (resume answer).bind f

instance : Monad Checkpoint where
  pure := .done
  bind := bind

def cancelled : Checkpoint Bool := .ask .done

/-- The n-th question is answered by `answers n`. -/
def run (answers : ℕ → Bool) : Checkpoint α → α
  | .done value => value
  | .ask resume => (resume (answers 0)).run fun n => answers (n + 1)

/-- The answers that `run` leaves. -/
def rest (answers : ℕ → Bool) : Checkpoint α → ℕ → Bool
  | .done _ => answers
  | .ask resume => (resume (answers 0)).rest fun n => answers (n + 1)

theorem run_bind (answers : ℕ → Bool) (m : Checkpoint α) (f : α → Checkpoint β) :
    (m >>= f).run answers = (f (m.run answers)).run (m.rest answers) := by
  change (m.bind f).run answers = _
  induction m generalizing answers with
  | done value => rfl
  | ask resume ih => exact ih (answers 0) _

theorem bind_assoc {γ : Type} (m : Checkpoint α) (f : α → Checkpoint β) (g : β → Checkpoint γ) :
    (m.bind f).bind g = m.bind fun value => (f value).bind g := by
  induction m with
  | done value => rfl
  | ask resume ih => exact congrArg ask (funext ih)

theorem run_bind_done (answers : ℕ → Bool) (m : Checkpoint α) (f : α → β) :
    (m.bind fun value => .done (f value)).run answers = f (m.run answers) := by
  induction m generalizing answers with
  | done value => rfl
  | ask resume ih => exact ih (answers 0) _

/-- Every way of answering the remaining questions ends in `P`. -/
def All (P : α → Prop) : Checkpoint α → Prop
  | .done value => P value
  | .ask resume => ∀ answer, (resume answer).All P

@[simp] theorem all_done (P : α → Prop) (value : α) :
    All P (.done value) ↔ P value := Iff.rfl

@[simp] theorem all_pure (P : α → Prop) (value : α) :
    All P (pure value) ↔ P value := Iff.rfl

@[simp] theorem all_ask (P : α → Prop) (resume : Bool → Checkpoint α) :
    All P (.ask resume) ↔ ∀ answer, All P (resume answer) := Iff.rfl

@[simp] theorem all_cancelled (P : Bool → Prop) : All P cancelled ↔ ∀ answer, P answer := Iff.rfl

@[simp] theorem all_bind (P : β → Prop) (m : Checkpoint α) (f : α → Checkpoint β) :
    All P (m >>= f) ↔ All (fun value => All P (f value)) m := by
  change All P (m.bind f) ↔ _
  induction m with
  | done value => rfl
  | ask resume ih =>
    simp only [bind, all_ask]
    exact forall_congr' fun answer => ih answer

theorem All.mono {P Q : α → Prop} {m : Checkpoint α}
    (h : All P m) (hPQ : ∀ value, P value → Q value) : All Q m := by
  induction m with
  | done value => exact hPQ value h
  | ask resume ih => exact fun answer => ih answer (h answer)

theorem All.and {P Q : α → Prop} {m : Checkpoint α} (hP : All P m) (hQ : All Q m) :
    All (fun value => P value ∧ Q value) m := by
  induction m with
  | done value => exact ⟨hP, hQ⟩
  | ask resume ih => exact fun answer => ih answer (hP answer) (hQ answer)

theorem All.of_forall {P : α → Prop} {m : Checkpoint α} (h : ∀ value, P value) : All P m := by
  induction m with
  | done value => exact h value
  | ask resume ih => exact fun answer => ih answer

theorem All.run {P : α → Prop} {m : Checkpoint α} (h : All P m)
    (answers : ℕ → Bool) : P (m.run answers) := by
  induction m generalizing answers with
  | done value => exact h
  | ask resume ih => exact ih (answers 0) (h (answers 0)) _

end Checkpoint

end Program

/-- A fallible program over the mutable state `σ`. -/
def Program (σ α : Type) := σ → Program.Checkpoint (Outcome.Result α × σ)

namespace Program

open Outcome

variable {σ α β : Type}

def pure (value : α) : Program σ α := fun s => .done (.ok value, s)

def bind (m : Program σ α) (f : α → Program σ β) : Program σ β := fun s =>
  (m s).bind fun
    | (.ok value, next) => f value next
    | (.error failure, next) => .done (.error failure, next)

instance : Monad (Program σ) where
  pure := pure
  bind := bind

def get : Program σ σ := fun s => .done (.ok s, s)

def modify (f : σ → σ) : Program σ Unit := fun s => .done (.ok (), f s)

def lift (result : Result α) : Program σ α := fun s => .done (result, s)

instance : MonadLift Result (Program σ) where
  monadLift := lift

def cancelled : Program σ Bool := fun s =>
  Checkpoint.cancelled.bind fun answer => .done (.ok answer, s)

/-- Await a computation with checkpoints of its own. -/
def await (m : Checkpoint α) : Program σ α := fun s => m.bind fun value => .done (.ok value, s)

section Outcomes

variable (P : Result α × σ → Prop) (s : σ)

/-- A failure ends the program in the state it has reached. -/
theorem all_bind (m : Program σ β) (f : β → Program σ α) :
    ((m >>= f) s).All P ↔ (m s).All fun outcome =>
      match outcome with
      | (.ok value, next) => (f value next).All P
      | (.error failure, next) => P (.error failure, next) := by
  change Checkpoint.All _ ((m s) >>= _) ↔ _
  rw [Checkpoint.all_bind]
  constructor
  · intro h
    refine h.mono ?_
    rintro ⟨value | value, next⟩ hnext <;> exact hnext
  · intro h
    refine h.mono ?_
    rintro ⟨value | value, next⟩ hnext <;> exact hnext

@[simp] theorem all_get (P : Result σ × σ → Prop) : (get s).All P ↔ P (.ok s, s) := Iff.rfl

@[simp] theorem all_liftM (result : Result α) :
    ((liftM result : Program σ α) s).All P ↔ P (result, s) := Iff.rfl

end Outcomes

/-- Every execution is free of crashes, and one that succeeds ends in `Q`. -/
def wp (m : Program σ α) (Q : α → σ → Prop) (s : σ) : Prop :=
  (m s).All fun (result, next) =>
    match result with
    | .ok value => Q value next
    | .error failure => failure.Returned

section Rules

variable (Q : α → σ → Prop) (s : σ)

@[simp] theorem wp_pure (value : α) : wp (Pure.pure value) Q s ↔ Q value s := Iff.rfl

@[simp] theorem wp_bind (m : Program σ β) (f : β → Program σ α) :
    wp (m >>= f) Q s ↔ wp m (fun value => wp (f value) Q) s := by
  change Checkpoint.All _ ((m s) >>= _) ↔ _
  rw [Checkpoint.all_bind]
  unfold wp
  constructor
  · intro h
    refine h.mono ?_
    rintro ⟨value | value, next⟩ hnext <;> exact hnext
  · intro h
    refine h.mono ?_
    rintro ⟨value | value, next⟩ hnext <;> exact hnext

@[simp] theorem wp_get (Q : σ → σ → Prop) : wp get Q s ↔ Q s s := Iff.rfl

@[simp] theorem wp_modify (f : σ → σ) (Q : Unit → σ → Prop) :
    wp (modify f) Q s ↔ Q () (f s) := Iff.rfl

@[simp] theorem wp_cancelled (Q : Bool → σ → Prop) :
    wp cancelled Q s ↔ ∀ answer, Q answer s := Iff.rfl

theorem wp_lift (result : Result α) :
    wp (lift result) Q s ↔ Safe result ∧ ∀ value, result = .ok value → Q value s := by
  cases result with
  | ok value => simp [wp, lift]
  | error failure => simp [wp, lift, Safe]

@[simp] theorem wp_liftM (result : Result α) :
    wp (liftM result : Program σ α) Q s ↔
      Safe result ∧ ∀ value, result = .ok value → Q value s :=
  wp_lift Q s result

@[simp] theorem wp_await (m : Checkpoint α) :
    wp (await m) Q s ↔ m.All fun value => Q value s := by
  change Checkpoint.All _ (m >>= _) ↔ _
  rw [Checkpoint.all_bind]
  exact Iff.rfl

@[simp] theorem wp_ite (c : Prop) [Decidable c] (m n : Program σ α) :
    wp (if c then m else n) Q s ↔ (c → wp m Q s) ∧ (¬ c → wp n Q s) := by
  split <;> simp_all

variable {Q s}

theorem wp.mono {m : Program σ α} {P : α → σ → Prop} (h : wp m P s)
    (hPQ : ∀ value next, P value next → Q value next) : wp m Q s := by
  refine Checkpoint.All.mono h ?_
  rintro ⟨value | value, next⟩ hnext
  · exact hnext
  · exact hPQ value next hnext

theorem wp.and {m : Program σ α} {P : α → σ → Prop} (hP : wp m P s) (hQ : wp m Q s) :
    wp m (fun value next => P value next ∧ Q value next) s := by
  refine (Checkpoint.All.and hP hQ).mono ?_
  rintro ⟨value | value, next⟩ ⟨hfirst, hsecond⟩
  · exact hfirst
  · exact ⟨hfirst, hsecond⟩

end Rules

end Program
