import Mathlib.Order.Lattice
import Mathlib.Data.List.Basic

/-!
The least of a list, and a search for it ring by ring that stops early. Where the elements beyond a ring
cannot beat what was found so far, stopping there gives what a scan over all of them gives.
-/

namespace RingSearch

variable {α K : Type} (less : α → α → Bool)

def keep (best : Option α) (a : α) : Option α :=
  if best.all fun held => less a held then some a else best

def leastOf (list : List α) : Option α := list.foldl (keep less) none

/-- `near` lists the elements on a ring. -/
def scan (near : ℕ → List α) (stop : ℕ → α → Bool) : ℕ → ℕ → Option α → Option α
  | 0, _, best => best
  | fuel + 1, ring, best =>
    let best := (near ring).foldl (keep less) best
    if best.any (stop ring) then best else scan near stop fuel (ring + 1) best

variable {less} [LinearOrder K] {key : α → K} (hless : ∀ a b, less a b = true ↔ key a < key b)

/-- The best so far is a least one of what was seen. -/
structure Least (key : α → K) (seen : α → Prop) (best : Option α) : Prop where
  found : ∀ a, best = some a → seen a
  least : ∀ a, seen a → ∃ held, best = some held ∧ key held ≤ key a

include hless

theorem Least.keep {seen : α → Prop} {best : Option α} (h : Least key seen best) (a : α) :
    Least key (fun b => seen b ∨ b = a) (keep less best a) := by
  unfold RingSearch.keep
  cases hbest : best with
  | none =>
    refine { found := ?_, least := ?_ }
    · intro b hb
      exact .inr (Option.some.inj hb).symm
    · rintro b (hb | rfl)
      · obtain ⟨held, hheld, -⟩ := h.least b hb
        rw [hbest] at hheld
        exact nomatch hheld
      · exact ⟨b, rfl, le_refl _⟩
  | some held =>
    rw [Option.all_some]
    have hheld := h.found held hbest
    split
    case isTrue hlt =>
      rw [hless] at hlt
      refine { found := ?_, least := ?_ }
      · intro b hb
        exact .inr (Option.some.inj hb).symm
      · rintro b (hb | rfl)
        · obtain ⟨least, hleast, hle⟩ := h.least b hb
          obtain rfl := Option.some.inj (hbest.symm.trans hleast)
          exact ⟨a, rfl, hlt.le.trans hle⟩
        · exact ⟨b, rfl, le_refl _⟩
    case isFalse hge =>
      rw [hless, not_lt] at hge
      refine { found := ?_, least := ?_ }
      · intro b hb
        obtain rfl := Option.some.inj hb
        exact .inl hheld
      · rintro b (hb | rfl)
        · obtain ⟨least, hleast, hle⟩ := h.least b hb
          exact ⟨least, hbest.symm.trans hleast, hle⟩
        · exact ⟨held, rfl, hge⟩

theorem Least.keepAll {seen : α → Prop} {best : Option α} (h : Least key seen best) (list : List α) :
    Least key (fun b => seen b ∨ b ∈ list) (list.foldl (RingSearch.keep less) best) := by
  induction list generalizing seen best with
  | nil => simpa using h
  | cons a rest ih =>
    have hnext := ih (h.keep hless a)
    simp only [or_assoc, ← List.mem_cons] at hnext
    exact hnext

theorem least_leastOf (list : List α) : Least key (fun b => b ∈ list) (leastOf less list) := by
  have hnone : Least key (fun _ : α => False) none :=
    { found := fun _ h => (nomatch h), least := fun _ h => h.elim }
  have hall := hnone.keepAll hless list
  simp only [false_or] at hall
  exact hall

omit hless in
/-- Two least elements are one, where keys tell elements apart. -/
theorem Least.unique (hkey : Function.Injective key) {seen : α → Prop} {best other : Option α}
    (h : Least key seen best) (h' : Least key seen other) : best = other := by
  cases hbest : best with
  | none =>
    cases hother : other with
    | none => rfl
    | some a =>
      obtain ⟨held, hheld, -⟩ := h.least a (h'.found a hother)
      rw [hbest] at hheld
      exact nomatch hheld
  | some a =>
    obtain ⟨held, hheld, hle⟩ := h'.least a (h.found a hbest)
    obtain ⟨back, hback, hge⟩ := h.least held (h'.found held hheld)
    obtain rfl := Option.some.inj (hbest.symm.trans hback)
    rw [hheld, hkey (le_antisymm hle hge)]

/-- A ring search gives what a scan of all elements gives. -/
theorem scan_eq_leastOf (hkey : Function.Injective key) {near : ℕ → List α} {stop : ℕ → α → Bool}
    {all : List α} {rings : ℕ} (hnear : ∀ ring, ∀ a ∈ near ring, a ∈ all)
    (hcover : ∀ a ∈ all, ∃ ring < rings, a ∈ near ring)
    (hstop : ∀ ring a, stop ring a = true → ∀ b ∈ all, (∀ k ≤ ring, b ∉ near k) → key a ≤ key b) :
    scan less near stop rings 0 none = leastOf less all := by
  have hscan : ∀ (fuel ring : ℕ) (best : Option α), fuel + ring = rings →
      Least key (fun b => ∃ k < ring, b ∈ near k) best →
      Least key (fun b => b ∈ all) (scan less near stop fuel ring best) := by
    intro fuel
    induction fuel with
    | zero =>
      intro ring best hrings h
      refine { found := ?_, least := ?_ }
      · intro a ha
        obtain ⟨k, -, hk⟩ := h.found a ha
        exact hnear k a hk
      · intro a ha
        obtain ⟨k, hk, hmem⟩ := hcover a ha
        exact h.least a ⟨k, by omega, hmem⟩
    | succ fuel ih =>
      intro ring best hrings h
      have hnext : Least key (fun b => ∃ k < ring + 1, b ∈ near k)
          ((near ring).foldl (keep less) best) := by
        have hkept := h.keepAll hless (near ring)
        have hseen : (fun b => (∃ k < ring, b ∈ near k) ∨ b ∈ near ring) =
            fun b => ∃ k < ring + 1, b ∈ near k := by
          funext b
          rw [eq_iff_iff]
          constructor
          · rintro (⟨k, hk, hb⟩ | hb)
            · exact ⟨k, Nat.lt_succ_of_lt hk, hb⟩
            · exact ⟨ring, Nat.lt_succ_self ring, hb⟩
          · rintro ⟨k, hk, hb⟩
            rcases Nat.lt_succ_iff_lt_or_eq.mp hk with hk | rfl
            · exact .inl ⟨k, hk, hb⟩
            · exact .inr hb
        rwa [hseen] at hkept
      simp only [scan]
      split
      case isTrue hdone =>
        obtain ⟨a, ha, hstopped⟩ := (Option.any_eq_true _ _).mp hdone
        refine { found := ?_, least := ?_ }
        · intro b hb
          obtain ⟨k, -, hk⟩ := hnext.found b hb
          exact hnear k b hk
        · intro b hb
          by_cases hinside : ∃ k < ring + 1, b ∈ near k
          · exact hnext.least b hinside
          · refine ⟨a, ha, hstop ring a hstopped b hb ?_⟩
            exact fun k hk hmem => hinside ⟨k, Nat.lt_succ_of_le hk, hmem⟩
      case isFalse => exact ih (ring + 1) _ (by omega) hnext
  have hstart : Least key (fun b => ∃ k < 0, b ∈ near k) none :=
    { found := fun _ h => (nomatch h)
      least := by
        rintro a ⟨k, hk, -⟩
        exact absurd hk (Nat.not_lt_zero k) }
  exact (hscan rings 0 none (Nat.add_zero rings) hstart).unique hkey (least_leastOf hless all)

end RingSearch
