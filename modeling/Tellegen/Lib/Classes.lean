import Mathlib.Logic.Relation

/-!
The classes that a relation generates: what every related pair agrees on, the
whole class agrees on.
-/

namespace Relation.EqvGen

variable {α β : Type} {R S : α → α → Prop} {a b : α}

theorem apply_eq {f : α → β} (h : EqvGen R a b) (hstep : ∀ x y, R x y → f x = f y) :
    f a = f b := by
  induction h with
  | rel x y hxy => exact hstep x y hxy
  | refl => rfl
  | symm _ _ _ ih => exact ih.symm
  | trans _ _ _ _ _ ih ih' => exact ih.trans ih'

theorem iff_of_step {p : α → Prop} (h : EqvGen R a b) (hstep : ∀ x y, R x y → (p x ↔ p y)) :
    p a ↔ p b := by
  rw [h.apply_eq fun x y hxy => propext (hstep x y hxy)]

/-- A map that connects the images of related elements connects those of a whole class. -/
theorem image {T : β → β → Prop} {f : α → β} (h : EqvGen R a b)
    (hstep : ∀ x y, R x y → EqvGen T (f x) (f y)) : EqvGen T (f a) (f b) := by
  induction h with
  | rel x y hxy => exact hstep x y hxy
  | refl x => exact .refl (f x)
  | symm _ _ _ ih => exact .symm _ _ ih
  | trans _ _ _ _ _ ih ih' => exact .trans _ _ _ ih ih'

/-- A second relation that has the pairs of the first within `p` connects a class within `p`. -/
theorem restrict {p : α → Prop} (h : EqvGen R a b) (hstep : ∀ x y, R x y → (p x ↔ p y))
    (hkeep : ∀ x y, R x y → p x → S x y) (ha : p a) : EqvGen S a b := by
  induction h with
  | rel x y hxy => exact .rel _ _ (hkeep x y hxy ha)
  | refl => exact .refl _
  | symm _ _ hxy ih => exact .symm _ _ (ih ((iff_of_step hxy hstep).mpr ha))
  | trans _ _ _ hxy _ ih ih' =>
    exact .trans _ _ _ (ih ha) (ih' ((iff_of_step hxy hstep).mp ha))

/-- A class is what paths connect, over the relation in either direction. -/
theorem iff_path : EqvGen R a b ↔ ReflTransGen (fun x y => R x y ∨ R y x) a b := by
  constructor
  · intro h
    induction h with
    | rel x y hxy => exact .single (.inl hxy)
    | refl => exact .refl
    | symm x y _ ih =>
      rw [← reflTransGen_swap]
      exact ReflTransGen.mono (fun _ _ huv => Or.symm huv) _ _ ih
    | trans _ _ _ _ _ ih ih' => exact ih.trans ih'
  · intro h
    induction h with
    | refl => exact .refl _
    | tail _ hstep ih =>
      rcases hstep with hstep | hstep
      · exact .trans _ _ _ ih (.rel _ _ hstep)
      · exact .trans _ _ _ ih (.symm _ _ (.rel _ _ hstep))

end Relation.EqvGen
