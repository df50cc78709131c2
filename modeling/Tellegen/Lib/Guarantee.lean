import Mathlib.Data.List.Basic

/-!
What a computation that may stop with an error guarantees: a property of its
result, and one of the error it stops with. The rules follow the computation,
a loop by an invariant over the part of the list it has gone through.
-/

namespace Guarantee

variable {ε α β σ : Type}

/-- `P` holds of the result, and `Q` of an error. -/
def Guarantees (P : α → Prop) (Q : ε → Prop) : Except ε α → Prop
  | .ok a => P a
  | .error e => Q e

theorem Guarantees.mono {P P' : α → Prop} {Q Q' : ε → Prop} {x : Except ε α} (h : Guarantees P Q x)
    (hresult : ∀ a, P a → P' a) (herror : ∀ e, Q e → Q' e) : Guarantees P' Q' x := by
  cases x with
  | ok a => exact hresult a h
  | error e => exact herror e h

theorem Guarantees.bind {P : α → Prop} {P' : β → Prop} {Q : ε → Prop} {x : Except ε α}
    {f : α → Except ε β} (h : Guarantees P Q x) (hnext : ∀ a, P a → Guarantees P' Q (f a)) :
    Guarantees P' Q (x >>= f) := by
  cases x with
  | ok a => exact hnext a h
  | error e => exact h

theorem Guarantees.of_ok {P : α → Prop} {Q : ε → Prop} {x : Except ε α} {a : α}
    (h : Guarantees P Q x) (hx : x = .ok a) : P a := by
  rw [hx] at h
  exact h

theorem Guarantees.of_error {P : α → Prop} {Q : ε → Prop} {x : Except ε α} {e : ε}
    (h : Guarantees P Q x) (hx : x = .error e) : Q e := by
  rw [hx] at h
  exact h

/-- What holds whenever there is a result. -/
theorem guarantees_of_ok {P : α → Prop} {x : Except ε α} (h : ∀ a, x = .ok a → P a) :
    Guarantees P (fun _ => True) x := by
  cases x with
  | ok a => exact h a rfl
  | error e => exact trivial

/-- The invariant relates the part of the list gone through to the state it has led to. -/
theorem Guarantees.foldlM {step : σ → α → Except ε σ} {Q : ε → Prop} {l : List α}
    (I : List α → σ → Prop)
    (hstep : ∀ done a rest s, l = done ++ a :: rest → I done s → Guarantees (I (done ++ [a])) Q (step s a))
    {s : σ} (hs : I [] s) : Guarantees (I l) Q (l.foldlM step s) := by
  suffices ∀ rest done s, l = done ++ rest → I done s → Guarantees (I l) Q (rest.foldlM step s) from
    this l [] s rfl hs
  intro rest
  induction rest with
  | nil =>
    intro done s hsplit hdone
    rw [List.append_nil] at hsplit
    rw [hsplit]
    exact hdone
  | cons a rest ih =>
    intro done s hsplit hdone
    rw [List.foldlM_cons]
    apply (hstep done a rest s hsplit hdone).bind
    intro next hnext
    apply ih (done ++ [a]) next _ hnext
    rw [hsplit, List.append_assoc, List.singleton_append]

/-- A loop that leaves one property as it was. -/
theorem Guarantees.foldlM_keep {step : σ → α → Except ε σ} {I : σ → Prop} {Q : ε → Prop} {l : List α}
    (hstep : ∀ a ∈ l, ∀ s, I s → Guarantees I Q (step s a)) {s : σ} (hs : I s) :
    Guarantees I Q (l.foldlM step s) := by
  apply Guarantees.foldlM (fun _ => I)
  · intro done a rest s hsplit hdone
    apply hstep a _ s hdone
    rw [hsplit]
    exact List.mem_append_right done List.mem_cons_self
  · exact hs

/-- A loop over the numbers below `m`, by an invariant over how many it has gone through. -/
theorem Guarantees.foldlM_range {step : σ → ℕ → Except ε σ} {Q : ε → Prop} (I : ℕ → σ → Prop) {m : ℕ}
    (hstep : ∀ i < m, ∀ s, I i s → Guarantees (I (i + 1)) Q (step s i)) {s : σ} (hs : I 0 s) :
    Guarantees (I m) Q ((List.range m).foldlM step s) := by
  have hloop : Guarantees (fun s => I (List.range m).length s) Q ((List.range m).foldlM step s) := by
    apply Guarantees.foldlM fun done => I done.length
    · intro done i rest s hsplit hdone
      have hget : (List.range m)[done.length]? = some i := by
        rw [hsplit, List.getElem?_append_right (Nat.le_refl _), Nat.sub_self, List.getElem?_cons_zero]
      obtain ⟨hlt, hi⟩ := List.getElem?_eq_some_iff.mp hget
      rw [List.getElem_range] at hi
      rw [List.length_range] at hlt
      rw [List.length_append, List.length_singleton, hi]
      rw [hi] at hdone hlt
      exact hstep i hlt s hdone
    · exact hs
  rwa [List.length_range] at hloop

end Guarantee
