import Std.Data.ExtTreeMap
import Mathlib.Tactic

/-!
Outcomes of fallible code. An operation returns an error with its text, or
stops because it indexed a table at an absent key or position, because a loop
outlived the bound its author relied on, or because a subtraction of unsigned
integers fell below zero. The last three are crashes rather than results:
`Safe` says that a computation never ends in one of them.

`bind_eq_ok` and `safe_bind` peel one step off a chain of fallible steps;
every function below them is reasoned about with these two rules.
-/

namespace Outcome

inductive Failure where
  | error (message : String)
  | missed
  | unbounded
  | underflow
  deriving DecidableEq

abbrev Result (α : Type) := Except Failure α

/-- A returned error is a result; a crash is not. -/
def Failure.Returned : Failure → Prop
  | .error _ => True
  | .missed | .unbounded | .underflow => False

instance (failure : Failure) : Decidable failure.Returned := by
  cases failure <;> unfold Failure.Returned <;> infer_instance

def Safe {α : Type} : Result α → Prop
  | .ok _ => True
  | .error failure => failure.Returned

def lift {α : Type} : Except String α → Result α
  | .ok value => .ok value
  | .error message => .error (.error message)

/-- `result.map_err(|e| format!("{context}{e}"))`. -/
def describe {α : Type} (context : String) : Except String α → Except String α
  | .ok value => .ok value
  | .error message => .error (context ++ message)

/-- `if bad { return Err(message) }`. -/
def refuse (bad : Prop) [Decidable bad] (message : String) : Result Unit :=
  if bad then .error (.error message) else .ok ()

/-- `option.ok_or(message)?`. -/
def okOr {α : Type} (option : Option α) (message : String) : Result α :=
  match option with
  | some value => .ok value
  | none => .error (.error message)

/-- `a - b` of unsigned integers. -/
def subtract (a b : ℕ) : Result ℕ := if a < b then .error .underflow else .ok (a - b)

theorem subtract_eq_ok {a b : ℕ} (h : b ≤ a) : subtract a b = .ok (a - b) := if_neg (by omega)

theorem exists_ok {ε α : Type} {x : Except ε α} (h : x.isOk) : ∃ a, x = .ok a := by
  cases x with
  | error failure => cases h
  | ok a => exact ⟨a, rfl⟩

section Rules

variable {α β : Type}

@[simp] theorem bind_eq_ok {ε : Type} (x : Except ε α) (f : α → Except ε β) (b : β) :
    x >>= f = .ok b ↔ ∃ a, x = .ok a ∧ f a = .ok b := by
  cases x <;> simp [bind, Except.bind]

@[simp] theorem pure_eq_ok {ε : Type} (a b : α) : (pure a : Except ε α) = .ok b ↔ a = b := by
  simp [pure, Except.pure]

/-- `if bad { return Err(failure) }` before the rest of a computation. -/
@[simp] theorem ite_error_eq_ok {ε : Type} (bad : Prop) [Decidable bad] (failure : ε)
    (x : Except ε α) (a : α) :
    (if bad then .error failure else x) = .ok a ↔ ¬ bad ∧ x = .ok a := by
  split <;> simp_all

@[simp] theorem error_bind {ε : Type} (failure : ε) (f : α → Except ε β) :
    (.error failure >>= f : Except ε β) = .error failure := rfl

theorem ok_bind {ε : Type} (a : α) (f : α → Except ε β) : (.ok a >>= f : Except ε β) = f a := rfl

@[simp] theorem lift_eq_ok (x : Except String α) (a : α) :
    lift x = .ok a ↔ x = .ok a := by
  cases x <;> simp [lift]

@[simp] theorem describe_eq_ok (context : String) (x : Except String α) (a : α) :
    describe context x = .ok a ↔ x = .ok a := by
  cases x <;> simp [describe]

@[simp] theorem refuse_eq_ok (bad : Prop) [Decidable bad] (message : String)
    (u : Unit) : refuse bad message = .ok u ↔ ¬ bad := by
  unfold refuse
  split <;> simp_all

@[simp] theorem okOr_eq_ok (option : Option α) (message : String) (a : α) :
    okOr option message = .ok a ↔ option = some a := by
  cases option <;> simp [okOr]

@[simp] theorem safe_ok (a : α) : Safe (.ok a : Result α) := trivial

@[simp] theorem safe_pure (a : α) : Safe (pure a : Result α) := trivial

@[simp] theorem safe_error (message : String) :
    Safe (.error (.error message) : Result α) := trivial

@[simp] theorem safe_lift (x : Except String α) : Safe (lift x) := by
  cases x <;> trivial

@[simp] theorem safe_refuse (bad : Prop) [Decidable bad] (message : String) :
    Safe (refuse bad message) := by
  unfold refuse
  split <;> trivial

@[simp] theorem safe_okOr (option : Option α) (message : String) :
    Safe (okOr option message) := by
  cases option <;> trivial

theorem safe_of_eq_ok {x : Result α} {a : α} (h : x = .ok a) : Safe x := by
  rw [h]
  trivial

theorem safe_bind (x : Result α) (f : α → Result β) :
    Safe (x >>= f) ↔ Safe x ∧ ∀ a, x = .ok a → Safe (f a) := by
  cases x with
  | error failure => simp [bind, Except.bind, Safe]
  | ok a => simp [bind, Except.bind]

@[simp] theorem safe_map (f : α → β) (x : Result α) : Safe (f <$> x) ↔ Safe x := by
  cases x <;> rfl

theorem safe_ite (c : Prop) [Decidable c] (x y : Result α) :
    Safe (if c then x else y) ↔ (c → Safe x) ∧ (¬ c → Safe y) := by
  split <;> simp_all

@[simp] theorem forM_eq_ok {ε : Type} (l : List α) (f : α → Except ε Unit) (u : Unit) :
    l.forM f = .ok u ↔ ∀ a ∈ l, f a = .ok ⟨⟩ := by
  induction l with
  | nil => simp
  | cons a rest ih =>
    change (f a >>= fun _ => rest.forM f) = _ ↔ _
    rw [bind_eq_ok]
    constructor
    · rintro ⟨_, hhead, htail⟩ b member
      rcases List.mem_cons.mp member with rfl | htailMem
      · exact hhead
      · exact ih.mp htail b htailMem
    · intro h
      exact ⟨⟨⟩, h a (by simp), ih.mpr fun b hb => h b (by simp [hb])⟩

@[simp] theorem option_forM_eq_ok (o : Option α) (f : α → Result PUnit) (u : PUnit) :
    Option.forM o f = .ok u ↔ ∀ a, o = some a → f a = .ok ⟨⟩ := by
  cases o <;> simp [Option.forM]

theorem safe_option_forM (o : Option α) (f : α → Result PUnit)
    (h : ∀ a, o = some a → Safe (f a)) : Safe (Option.forM o f) := by
  cases o with
  | none => exact safe_pure _
  | some a => exact h a rfl

theorem safe_forM (l : List α) (f : α → Result PUnit)
    (h : ∀ a ∈ l, Safe (f a)) : Safe (l.forM f) := by
  induction l with
  | nil => exact safe_pure _
  | cons a rest ih =>
    change Safe (f a >>= fun _ => rest.forM f)
    rw [safe_bind]
    exact ⟨h a (by simp), fun _ _ => ih fun b hb => h b (by simp [hb])⟩

theorem forall₂_of_mapM_ok {ε : Type} {l : List α} {f : α → Except ε β} {bs : List β}
    (h : l.mapM f = .ok bs) : List.Forall₂ (fun a b => f a = .ok b) l bs := by
  induction l generalizing bs with
  | nil =>
    simp only [List.mapM_nil, pure_eq_ok] at h
    rw [← h]
    exact .nil
  | cons a l ih =>
    simp only [List.mapM_cons, bind_eq_ok, pure_eq_ok] at h
    obtain ⟨b, hb, rest, hrest, rfl⟩ := h
    exact .cons hb (ih hrest)

theorem forall₂_left {R : α → β → Prop} {l : List α} {m : List β}
    (h : List.Forall₂ R l m) {a : α} (ha : a ∈ l) : ∃ b ∈ m, R a b := by
  induction h with
  | nil => simp at ha
  | cons hhead _ ih =>
    rcases List.mem_cons.mp ha with rfl | ha
    · exact ⟨_, List.mem_cons_self .., hhead⟩
    · obtain ⟨b, hb, hab⟩ := ih ha
      exact ⟨b, List.mem_cons_of_mem _ hb, hab⟩

theorem forall₂_right {R : α → β → Prop} {l : List α} {m : List β}
    (h : List.Forall₂ R l m) {b : β} (hb : b ∈ m) : ∃ a ∈ l, R a b := by
  obtain ⟨a, ha, hab⟩ := forall₂_left h.flip hb
  exact ⟨a, ha, hab⟩

theorem exists_mapM_ok {ε : Type} (l : List α) (f : α → Except ε β)
    (h : ∀ a ∈ l, ∃ b, f a = .ok b) : ∃ bs, l.mapM f = .ok bs := by
  induction l with
  | nil => exact ⟨[], rfl⟩
  | cons a rest ih =>
    obtain ⟨b, hb⟩ := h a (by simp)
    obtain ⟨bs, hbs⟩ := ih fun c hc => h c (by simp [hc])
    exact ⟨b :: bs, by simp [List.mapM_cons, hb, hbs]⟩

theorem safe_mapM (l : List α) (f : α → Result β) (h : ∀ a ∈ l, Safe (f a)) : Safe (l.mapM f) := by
  induction l with
  | nil => exact safe_pure _
  | cons a rest ih =>
    rw [List.mapM_cons, safe_bind]
    refine ⟨h a List.mem_cons_self, fun b _ => ?_⟩
    rw [safe_bind]
    exact ⟨ih fun c hc => h c (List.mem_cons_of_mem _ hc), fun _ _ => safe_pure _⟩

/-- A pass that takes a block of items from each element takes the items of all blocks. -/
theorem foldlM_blocks {ε σ : Type} {block : α → Except ε (List β)} {visit : σ → β → σ}
    {step : σ → α → Except ε σ}
    (hstep : ∀ s a, step s a = block a >>= fun items => .ok (items.foldl visit s))
    (l : List α) (s : σ) :
    l.foldlM step s = l.mapM block >>= fun blocks => .ok (blocks.flatten.foldl visit s) := by
  induction l generalizing s with
  | nil => rfl
  | cons a rest ih =>
    rw [List.foldlM_cons, List.mapM_cons, hstep]
    cases block a with
    | error failure => rfl
    | ok items =>
      change rest.foldlM step (items.foldl visit s) = _
      rw [ih]
      cases rest.mapM block with
      | error failure => simp [bind, Except.bind]
      | ok blocks => simp [bind, Except.bind, pure, Except.pure, List.foldl_append]

theorem exists_foldlM_ok {ε σ : Type} {step : σ → α → Except ε σ} {l : List α}
    (h : ∀ s, ∀ a ∈ l, ∃ next, step s a = .ok next) (s : σ) :
    ∃ final, l.foldlM step s = .ok final := by
  induction l generalizing s with
  | nil => exact ⟨s, rfl⟩
  | cons a rest ih =>
    obtain ⟨next, hnext⟩ := h s a List.mem_cons_self
    obtain ⟨final, hfinal⟩ := ih (fun s b hb => h s b (List.mem_cons_of_mem _ hb)) next
    exact ⟨final, by rw [List.foldlM_cons, hnext]; exact hfinal⟩

/-- A run whose outcome is known to satisfy a decidable condition. -/
theorem exists_ok_of {ε : Type} {x : Except ε α} {p : α → Prop} [DecidablePred p]
    (h : x.toOption.any (decide <| p ·) = true) : ∃ a, x = .ok a ∧ p a := by
  cases x with
  | error failure => cases h
  | ok a => exact ⟨a, rfl, of_decide_eq_true h⟩

end Rules

end Outcome
