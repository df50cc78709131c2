import Mathlib.Data.List.Perm.Basic

/-!
Stable sorting by a total preorder. Values that the order does not tell apart keep
the order in which they came, so the sorted list determines for each value the
sublist of those tied with it, and is determined by these sublists.
-/

/-- A comparison that is total and transitive, but may tie different values. -/
structure Collation (α : Type) where
  le : α → α → Bool
  trans : ∀ a b c, le a b → le b c → le a c
  total : ∀ a b, le a b || le b a

namespace Collation

variable {α β : Type} (collation : Collation α)

def tied (a b : α) : Bool := collation.le a b && collation.le b a

theorem le_refl (a : α) : collation.le a a := by
  have htotal := collation.total a a
  rwa [Bool.or_self] at htotal

theorem tied_refl (a : α) : collation.tied a a := by
  rw [tied, Bool.and_self]
  exact collation.le_refl a

variable {collation}

theorem tied_symm {a b : α} (h : collation.tied a b) : collation.tied b a := by
  rw [tied, Bool.and_comm]
  exact h

theorem tied_trans {a b c : α} (hab : collation.tied a b) (hbc : collation.tied b c) :
    collation.tied a c := by
  rw [tied, Bool.and_eq_true] at *
  exact ⟨collation.trans a b c hab.1 hbc.1, collation.trans c b a hbc.2 hab.2⟩

theorem tied_congr {a b : α} (h : collation.tied a b) (c : α) :
    collation.tied c a = collation.tied c b := by
  rw [Bool.eq_iff_iff]
  exact ⟨fun hca => tied_trans hca h, fun hcb => tied_trans hcb (tied_symm h)⟩

variable (collation)

def sort (l : List α) : List α := l.mergeSort collation.le

theorem sort_perm (l : List α) : (collation.sort l).Perm l := List.mergeSort_perm l collation.le

theorem sort_pairwise (l : List α) : (collation.sort l).Pairwise fun a b => collation.le a b :=
  List.pairwise_mergeSort collation.trans collation.total l

/-- Tied values keep their order. -/
theorem filter_tied_sort (a : α) (l : List α) :
    (collation.sort l).filter (collation.tied a) = l.filter (collation.tied a) := by
  have hpairwise : (l.filter (collation.tied a)).Pairwise fun b c => collation.le b c := by
    rw [List.pairwise_filter]
    apply List.pairwise_of_forall
    intro b c hb hc
    have hbc := tied_trans (tied_symm hb) hc
    rw [tied, Bool.and_eq_true] at hbc
    exact hbc.1
  have hsub : (l.filter (collation.tied a)).Sublist (collation.sort l) :=
    List.sublist_mergeSort collation.trans collation.total hpairwise List.filter_sublist
  have hfiltered := hsub.filter (collation.tied a)
  rw [List.filter_filter] at hfiltered
  simp only [Bool.and_self] at hfiltered
  exact (hfiltered.eq_of_length ((collation.sort_perm l).symm.filter _).length_eq).symm

variable {collation}

/-- A sorted list is determined by its sublists of tied values. -/
theorem eq_of_filter_tied {l l' : List α} (hl : l.Pairwise fun a b => collation.le a b)
    (hl' : l'.Pairwise fun a b => collation.le a b)
    (h : ∀ a, l.filter (collation.tied a) = l'.filter (collation.tied a)) : l = l' := by
  have hmem : ∀ {a : α}, a ∈ l → a ∈ l' := by
    intro a ha
    have hfilter : a ∈ l.filter (collation.tied a) := List.mem_filter.mpr ⟨ha, collation.tied_refl a⟩
    rw [h a] at hfilter
    exact (List.mem_filter.mp hfilter).1
  have hmem' : ∀ {a : α}, a ∈ l' → a ∈ l := by
    intro a ha
    have hfilter : a ∈ l'.filter (collation.tied a) := List.mem_filter.mpr ⟨ha, collation.tied_refl a⟩
    rw [← h a] at hfilter
    exact (List.mem_filter.mp hfilter).1
  induction l generalizing l' with
  | nil =>
    cases l' with
    | nil => rfl
    | cons b rest => exact absurd (hmem' List.mem_cons_self) List.not_mem_nil
  | cons a rest ih =>
    cases l' with
    | nil => exact absurd (hmem List.mem_cons_self) List.not_mem_nil
    | cons b rest' =>
      rw [List.pairwise_cons] at hl hl'
      have hab : collation.le a b := by
        rcases List.mem_cons.mp (hmem' (a := b) List.mem_cons_self) with heq | hrest
        · rw [heq]
          exact collation.le_refl a
        · exact hl.1 b hrest
      have hba : collation.le b a := by
        rcases List.mem_cons.mp (hmem (a := a) List.mem_cons_self) with heq | hrest
        · rw [heq]
          exact collation.le_refl b
        · exact hl'.1 a hrest
      -- the heads are the first of one sublist
      have htied : collation.tied a b := by
        rw [tied, Bool.and_eq_true]
        exact ⟨hab, hba⟩
      have hheads := h a
      rw [List.filter_cons_of_pos (collation.tied_refl a), List.filter_cons_of_pos htied] at hheads
      obtain ⟨rfl, hrest⟩ := List.cons.inj hheads
      have htails : ∀ c, rest.filter (collation.tied c) = rest'.filter (collation.tied c) := by
        intro c
        have hc := h c
        rw [List.filter_cons, List.filter_cons] at hc
        split at hc
        case isTrue => exact (List.cons.inj hc).2
        case isFalse => exact hc
      have hkeep : ∀ {c : α}, c ∈ rest → c ∈ rest' := by
        intro c hc
        have hfilter : c ∈ rest.filter (collation.tied c) :=
          List.mem_filter.mpr ⟨hc, collation.tied_refl c⟩
        rw [htails c] at hfilter
        exact (List.mem_filter.mp hfilter).1
      have hkeep' : ∀ {c : α}, c ∈ rest' → c ∈ rest := by
        intro c hc
        have hfilter : c ∈ rest'.filter (collation.tied c) :=
          List.mem_filter.mpr ⟨hc, collation.tied_refl c⟩
        rw [← htails c] at hfilter
        exact (List.mem_filter.mp hfilter).1
      rw [ih hl.2 hl'.2 htails hkeep hkeep']

/-- Two lists have one sorted form exactly when they order the tied values alike. -/
theorem sort_eq_iff {l l' : List α} : collation.sort l = collation.sort l' ↔
    ∀ a, l.filter (collation.tied a) = l'.filter (collation.tied a) := by
  constructor
  · intro h a
    rw [← filter_tied_sort, h, filter_tied_sort]
  · intro h
    apply eq_of_filter_tied (collation.sort_pairwise l) (collation.sort_pairwise l')
    intro a
    rw [filter_tied_sort, filter_tied_sort, h]

/-- The comparison by a key. -/
def on (collation : Collation α) (key : β → α) : Collation β where
  le a b := collation.le (key a) (key b)
  trans a b c := collation.trans (key a) (key b) (key c)
  total a b := collation.total (key a) (key b)

/-- Bringing all values of some ties to the front moves no tied values past each other. -/
theorem sort_front {l : List α} (p : α → Bool) (hp : ∀ a b, collation.tied a b → p a = p b) :
    collation.sort (l.filter p ++ l.filter fun a => !p a) = collation.sort l := by
  rw [sort_eq_iff]
  intro a
  have hsplit : ∀ b, collation.tied a b = true → p b = p a := fun b hb => (hp a b hb).symm
  rw [List.filter_append, List.filter_filter, List.filter_filter]
  cases hpa : p a with
  | true =>
    have hin : l.filter (fun b => collation.tied a b && p b) = l.filter (collation.tied a) := by
      apply List.filter_congr
      intro b _
      cases htied : collation.tied a b with
      | true => rw [hsplit b htied, hpa, Bool.and_self]
      | false => rfl
    have hout : l.filter (fun b => collation.tied a b && !p b) = [] := by
      rw [List.filter_eq_nil_iff]
      intro b _ hb
      rw [Bool.and_eq_true] at hb
      rw [hsplit b hb.1, hpa] at hb
      exact Bool.noConfusion hb.2
    rw [hin, hout, List.append_nil]
  | false =>
    have hin : l.filter (fun b => collation.tied a b && p b) = [] := by
      rw [List.filter_eq_nil_iff]
      intro b _ hb
      rw [Bool.and_eq_true] at hb
      rw [hsplit b hb.1, hpa] at hb
      exact Bool.noConfusion hb.2
    have hout : l.filter (fun b => collation.tied a b && !p b) = l.filter (collation.tied a) := by
      apply List.filter_congr
      intro b _
      cases htied : collation.tied a b with
      | true => rw [hsplit b htied, hpa, Bool.not_false, Bool.and_self]
      | false => rfl
    rw [hin, hout, List.nil_append]

end Collation
