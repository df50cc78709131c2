import Tellegen.RankSpan

/-!
A run of the rank audit in exact arithmetic. The queue and the index by length hold each row that is not a pivot
once, with its norm and its length as they are, so no step reads a row that has changed since it was listed.
The rows are then the residuals of an orthogonalization, from which the audit is sound.
-/

set_option linter.unusedSectionVars false

open Binary64 hiding max min
open Guarantee Orthogonalization

namespace Tellegen.McOpf

section

variable [DecimalText ℝ]

/-! ### The queue -/

namespace RankQueue

theorem mem_remove {queue : RankQueue ℝ} {norm : ℝ} {i : ℕ} {entry : ℝ × ℕ} :
    entry ∈ queue.remove norm i ↔ entry ∈ queue ∧ ¬ (entry.1 = norm ∧ entry.2 = i) := by
  have hiff : (!(eq entry.1 norm && entry.2 == i)) = true ↔ ¬ (entry.1 = norm ∧ entry.2 = i) := by
    rw [Bool.not_eq_true', ← Bool.not_eq_true, Bool.and_eq_true, beq_iff_eq]
    exact not_congr (and_congr_left' decide_eq_true_iff)
  rw [remove, List.mem_filter, hiff]

theorem mem_insert {queue : RankQueue ℝ} {norm : ℝ} {i : ℕ} {entry : ℝ × ℕ} :
    entry ∈ queue.insert norm i ↔ entry = (norm, i) ∨ entry ∈ queue := by
  rw [insert, List.mem_cons, mem_remove]
  constructor
  · exact Or.imp_right And.left
  · rintro (hentry | hentry)
    · exact Or.inl hentry
    · by_cases hsame : entry.1 = norm ∧ entry.2 = i
      · exact Or.inl (Prod.ext hsame.1 hsame.2)
      · exact Or.inr ⟨hentry, hsame⟩

theorem later_cases (a b : ℝ × ℕ) : later a b = a ∧ b.1 ≤ a.1 ∨ later a b = b ∧ a.1 ≤ b.1 := by
  rw [later]
  split
  case isTrue hlater =>
    refine Or.inr ⟨rfl, ?_⟩
    obtain hlt | hequal := Bool.or_eq_true_iff.mp hlater
    · exact le_of_lt (of_decide_eq_true hlt)
    · exact le_of_eq (of_decide_eq_true (Bool.and_eq_true_iff.mp hequal).1)
  case isFalse hlater =>
    refine Or.inl ⟨rfl, ?_⟩
    by_contra hlt
    exact hlater (Bool.or_eq_true_iff.mpr (Or.inl (decide_eq_true (not_le.mp hlt))))

theorem foldl_later (queue : RankQueue ℝ) (first : ℝ × ℕ) :
    queue.foldl later first ∈ first :: queue ∧ ∀ entry ∈ first :: queue, entry.1 ≤ (queue.foldl later first).1 := by
  induction queue generalizing first with
  | nil =>
    refine ⟨List.mem_cons_self, ?_⟩
    intro entry hentry
    rw [List.mem_singleton.mp hentry]
    exact le_refl _
  | cons second queue ih =>
    rw [List.foldl_cons]
    obtain ⟨hmem, hgreatest⟩ := ih (later first second)
    have hlater := hgreatest _ List.mem_cons_self
    obtain ⟨hpick, hle⟩ | ⟨hpick, hle⟩ := later_cases first second
    · rw [hpick] at hmem hlater hgreatest ⊢
      constructor
      · obtain hmem | hmem := List.mem_cons.mp hmem
        · exact List.mem_cons.mpr (Or.inl hmem)
        · exact List.mem_cons_of_mem _ (List.mem_cons_of_mem _ hmem)
      · intro entry hentry
        obtain rfl | hentry := List.mem_cons.mp hentry
        · exact hlater
        · obtain rfl | hentry := List.mem_cons.mp hentry
          · exact le_trans hle hlater
          · exact hgreatest entry (List.mem_cons_of_mem _ hentry)
    · rw [hpick] at hmem hlater hgreatest ⊢
      constructor
      · exact List.mem_cons_of_mem _ hmem
      · intro entry hentry
        obtain rfl | hentry := List.mem_cons.mp hentry
        · exact le_trans hle hlater
        · exact hgreatest entry hentry

theorem last_mem {queue : RankQueue ℝ} {largest : ℝ × ℕ} (h : queue.last = some largest) :
    largest ∈ queue ∧ ∀ entry ∈ queue, entry.1 ≤ largest.1 := by
  cases queue with
  | nil => exact nomatch h
  | cons first queue =>
    obtain rfl := Option.some.inj h
    exact foldl_later queue first

theorem last_none {queue : RankQueue ℝ} (h : queue.last = none) : queue = [] := by
  cases queue with
  | nil => rfl
  | cons first queue => exact nomatch h

end RankQueue

namespace RankState

variable {n m i : ℕ} {preferSparse : Bool} {s s' : RankState ℝ} {basis : SparseRow ℝ}

/-! ### The indexes -/

def places (s : RankState ℝ) : List ℕ := s.pivots.map Prod.fst

/-- A row that is not a pivot yet. -/
def Waiting (m : ℕ) (s : RankState ℝ) (i : ℕ) : Prop := i < m ∧ i ∉ s.places

/-- The rows that are not pivots yet stand in the queues, as they are, and nothing else does. -/
structure Indexed (m n : ℕ) (preferSparse : Bool) (s : RankState ℝ) : Prop where
  below : ∀ i, SparseRow.Below n (s.rows i)
  queue : ∀ entry, entry ∈ s.queue ↔ Waiting m s entry.2 ∧ entry.1 = s.norms entry.2
  sparsity : preferSparse = true → ∀ length i, toLex (length, i) ∈ s.sparsity ↔
    Waiting m s i ∧ length = (s.rows i).len
  norms : ∀ i, Waiting m s i → s.norms i = ‖(s.rows i).vec n‖
  out : ∀ i ∈ s.places, (s.rows i).columns = ∅
  nodup : s.places.Nodup
  within : ∀ i ∈ s.places, i < m

theorem mem_sparsity_erase {sparsity : Finset (ℕ ×ₗ ℕ)} {p : ℕ → Prop} {rows : ℕ → SparseRow ℝ}
    (h : ∀ length j, toLex (length, j) ∈ sparsity ↔ p j ∧ length = (rows j).len) (i length j : ℕ) :
    toLex (length, j) ∈ sparsity.erase (toLex ((rows i).len, i)) ↔
      (p j ∧ j ≠ i) ∧ length = (rows j).len := by
  rw [Finset.mem_erase, h, ne_eq, toLex_inj, Prod.mk.injEq]
  constructor
  · rintro ⟨hne, hp, rfl⟩
    refine ⟨⟨hp, ?_⟩, rfl⟩
    rintro rfl
    exact hne ⟨rfl, rfl⟩
  · rintro ⟨⟨hp, hne⟩, hlength⟩
    exact ⟨fun hsame => hne hsame.2, hp, hlength⟩

theorem mem_queue_remove {queue : RankQueue ℝ} {p : ℕ → Prop} {norms : ℕ → ℝ}
    (h : ∀ entry, entry ∈ queue ↔ p entry.2 ∧ entry.1 = norms entry.2) (i : ℕ) (entry : ℝ × ℕ) :
    entry ∈ queue.remove (norms i) i ↔ (p entry.2 ∧ entry.2 ≠ i) ∧ entry.1 = norms entry.2 := by
  rw [RankQueue.mem_remove, h]
  constructor
  · rintro ⟨⟨hp, hnorm⟩, hne⟩
    refine ⟨⟨hp, ?_⟩, hnorm⟩
    rintro hi
    rw [hi] at hnorm
    exact hne ⟨hnorm, hi⟩
  · rintro ⟨⟨hp, hne⟩, hnorm⟩
    exact ⟨⟨hp, hnorm⟩, fun hsame => hne hsame.2⟩

theorem Indexed.applied (h : Indexed m n preferSparse s) (hi : Waiting m s i)
    (happlied : Applied n preferSparse basis i s s') : Indexed m n preferSparse s' := by
  have hplaces : s'.places = s.places := congrArg (List.map Prod.fst) happlied.pivots
  have hwaiting : ∀ j, Waiting m s' j ↔ Waiting m s j := by
    intro j
    rw [Waiting, Waiting, hplaces]
  constructor
  case below =>
    intro j
    by_cases hj : j = i
    · rw [hj]
      exact happlied.below
    · rw [happlied.rows j hj]
      exact h.below j
  case queue =>
    intro entry
    rw [happlied.queue, RankQueue.mem_insert, mem_queue_remove h.queue, hwaiting, happlied.norms]
    by_cases hentry : entry.2 = i
    · rw [hentry, Function.update_self, Prod.ext_iff]
      simp [hi, hentry]
    · rw [Function.update_of_ne hentry, Prod.ext_iff]
      simp [hentry]
  case sparsity =>
    intro hprefer length j
    rw [happlied.sparsity, if_pos hprefer, Finset.mem_insert,
      mem_sparsity_erase (h.sparsity hprefer), hwaiting, toLex_inj, Prod.mk.injEq]
    by_cases hj : j = i
    · subst hj
      simp [hi]
    · rw [happlied.rows j hj]
      simp [hj]
  case norms =>
    intro j hj
    rw [happlied.norms]
    by_cases hji : j = i
    · rw [hji, Function.update_self, SparseRow.norm_eq happlied.below]
    · rw [Function.update_of_ne hji, happlied.rows j hji, h.norms j ((hwaiting j).mp hj)]
  case out =>
    intro j hj
    rw [hplaces] at hj
    have hne : j ≠ i := fun heq => hi.2 (heq ▸ hj)
    rw [happlied.rows j hne]
    exact h.out j hj
  case nodup =>
    rw [hplaces]
    exact h.nodup
  case within =>
    rw [hplaces]
    exact h.within

theorem Taken.places {t : Terms} {pivot : ℕ} {affected : Finset ℕ}
    (h : Taken t preferSparse s pivot basis affected s') : s'.places = s.places ++ [pivot] := by
  rw [RankState.places, h.pivots, List.map_append]
  rfl

theorem Indexed.taken {t : Terms} {pivot : ℕ} {affected : Finset ℕ} (h : Indexed m n preferSparse s)
    (hpivot : Waiting m s pivot)
    (htaken : Taken t preferSparse s pivot basis affected s') : Indexed m n preferSparse s' := by
  have hplaces := htaken.places
  have hwaiting : ∀ j, Waiting m s' j ↔ Waiting m s j ∧ j ≠ pivot := by
    intro j
    rw [Waiting, Waiting, hplaces, List.mem_append, List.mem_singleton, not_or, and_assoc]
  have hrow : ∀ j, j ≠ pivot → s'.rows j = s.rows j := by
    intro j hj
    rw [htaken.rows, Function.update_of_ne hj]
  have hempty : s'.rows pivot = .empty := by
    rw [htaken.rows, Function.update_self]
  constructor
  case below =>
    intro j
    by_cases hj : j = pivot
    · rw [hj, hempty]
      exact fun c hc => absurd hc (Finset.notMem_empty c)
    · rw [hrow j hj]
      exact h.below j
  case queue =>
    intro entry
    rw [htaken.queue, mem_queue_remove h.queue, htaken.norms, hwaiting]
  case sparsity =>
    intro hprefer length j
    rw [htaken.sparsity, if_pos hprefer, mem_sparsity_erase (h.sparsity hprefer), hwaiting]
    apply and_congr_right
    intro hj
    rw [hrow j hj.2]
  case norms =>
    intro j hj
    obtain ⟨hj, hne⟩ := (hwaiting j).mp hj
    rw [htaken.norms, hrow j hne, h.norms j hj]
  case out =>
    intro j hj
    rw [hplaces, List.mem_append, List.mem_singleton] at hj
    by_cases heq : j = pivot
    · rw [heq, hempty]
      rfl
    · rw [hrow j heq]
      exact h.out j (hj.resolve_right heq)
  case nodup =>
    rw [hplaces, List.nodup_append]
    refine ⟨h.nodup, List.nodup_singleton _, ?_⟩
    intro a ha b hb
    rw [List.mem_singleton.mp hb]
    rintro rfl
    exact hpivot.2 ha
  case within =>
    intro j hj
    rw [hplaces, List.mem_append, List.mem_singleton] at hj
    obtain hj | rfl := hj
    · exact h.within j hj
    · exact hpivot.1

theorem Indexed.picked (h : Indexed m n preferSparse s) {pivot : ℕ} (hpicked : Picked preferSparse s pivot) :
    Waiting m s pivot ∧ s.d.tolerance < ‖(s.rows pivot).vec n‖ := by
  obtain ⟨largest, hlast, hlarge, hchoice⟩ := hpicked
  have hlarge : s.d.tolerance < largest.1 := not_le.mp (of_decide_eq_false hlarge)
  obtain rfl | ⟨hprefer, ⟨length, hmem⟩, hlt⟩ := hchoice
  · obtain ⟨hopen, hnorm⟩ := (h.queue largest).mp (RankQueue.last_mem hlast).1
    rw [hnorm, h.norms _ hopen] at hlarge
    exact ⟨hopen, hlarge⟩
  · obtain ⟨hopen, -⟩ := (h.sparsity hprefer length pivot).mp hmem
    have hlt : s.d.tolerance < s.norms pivot := of_decide_eq_true hlt
    rw [h.norms _ hopen] at hlt
    exact ⟨hopen, hlt⟩

theorem Indexed.rest (h : Indexed m n preferSparse s) (htolerance : 0 ≤ s.d.tolerance)
    (hend : ∀ largest, s.queue.last = some largest → le largest.1 s.d.tolerance = true) (hi : i < m) :
    ‖(s.rows i).vec n‖ ≤ s.d.tolerance := by
  by_cases hplace : i ∈ s.places
  · have hzero : (s.rows i).vec n = 0 := by
      ext c
      rw [SparseRow.vec_apply, SparseRow.get_of_notMem]
      · rfl
      · rw [h.out i hplace]
        exact Finset.notMem_empty _
    rw [hzero, norm_zero]
    exact htolerance
  · have hmem := (h.queue (s.norms i, i)).mpr ⟨⟨hi, hplace⟩, rfl⟩
    rw [← h.norms i ⟨hi, hplace⟩]
    cases hlast : s.queue.last with
    | none =>
      rw [RankQueue.last_none hlast] at hmem
      exact absurd hmem List.not_mem_nil
    | some largest =>
      have hle : largest.1 ≤ s.d.tolerance := of_decide_eq_true (hend largest hlast)
      exact le_trans ((RankQueue.last_mem hlast).2 _ hmem) hle

/-! ### The residuals -/

noncomputable def inputs (n : ℕ) (rows : List (SparseRow ℝ)) (i : Fin rows.length) : EuclideanSpace ℝ (Fin n) :=
  (rows.get i).vec n

/-- The rows scaled to length one, those that are zero left as they are. -/
noncomputable def normalized (n : ℕ) (rows : List (SparseRow ℝ)) (i : Fin rows.length) :
    EuclideanSpace ℝ (Fin n) :=
  ‖inputs n rows i‖⁻¹ • inputs n rows i

theorem rankOf_normalized (n : ℕ) (rows : List (SparseRow ℝ)) :
    rankOf (normalized n rows) = rankOf (inputs n rows) := by
  apply rankOf_smul (c := fun i => ‖inputs n rows i‖⁻¹)
  · exact fun i => rfl
  · intro i
    refine ⟨‖inputs n rows i‖, ?_⟩
    rw [normalized, smul_smul]
    by_cases hzero : inputs n rows i = 0
    · rw [hzero, smul_zero]
    · rw [mul_inv_cancel₀ (norm_ne_zero_iff.mpr hzero), one_smul]

noncomputable def pivotVectors (n : ℕ) (s : RankState ℝ) : List (EuclideanSpace ℝ (Fin n)) :=
  s.pivots.map fun pivot => pivot.2.vec n

/-- Between pivots the rows are what the pivots leave of the normalized rows. -/
structure Sound (rows : List (SparseRow ℝ)) (n : ℕ) (preferSparse : Bool) (tolerance : ℝ) (s : RankState ℝ) :
    Prop where
  indexed : Indexed rows.length n preferSparse s
  residuals : Residuals (normalized n rows) (pivotVectors n s) fun i => (s.rows i).vec n
  unlisted : ∀ i, ¬ isListed rows i → (s.rows i).vec n = 0
  accepted : s.d.acceptedPivots = s.pivots.length
  tolerance : s.d.tolerance = tolerance

variable {rows : List (SparseRow ℝ)} {nonzeroLimit workLimit pivot : ℕ} {tolerance : ℝ} {affected : Finset ℕ}
  {taken : RankState ℝ}

theorem Sound.pivot_vec (h : Sound rows n preferSparse tolerance s) (hpivot : Waiting rows.length s pivot)
    {t : Terms} (htaken : Taken t preferSparse s pivot basis affected taken) :
    basis.vec n = ‖(s.rows pivot).vec n‖⁻¹ • (s.rows pivot).vec n := by
  rw [htaken.unit, SparseRow.vec_divide, h.indexed.norms pivot hpivot]

theorem Sound.pivoted (h : Sound rows n preferSparse tolerance s) (htolerance : 0 ≤ tolerance)
    (hpicked : Picked preferSparse s pivot) {t : Terms}
    (htaken : Taken t preferSparse s pivot basis affected taken) :
    Residuals (normalized n rows) (pivotVectors n taken)
      fun i : Fin rows.length => without (basis.vec n) ((s.rows i).vec n) := by
  obtain ⟨hpivot, hlarge⟩ := h.indexed.picked hpicked
  rw [h.tolerance] at hlarge
  have hpositive : (s.rows pivot).vec n ≠ 0 := norm_pos_iff.mp (lt_of_le_of_lt htolerance hlarge)
  have hvectors : pivotVectors n taken = pivotVectors n s ++ [basis.vec n] := by
    rw [pivotVectors, htaken.pivots, List.map_append]
    rfl
  rw [hvectors]
  exact h.residuals.pivot (p := ⟨pivot, hpivot.1⟩) hpositive (h.pivot_vec hpivot htaken)

theorem Sound.unit (h : Sound rows n preferSparse tolerance s) (htolerance : 0 ≤ tolerance)
    (hpicked : Picked preferSparse s pivot) {t : Terms}
    (htaken : Taken t preferSparse s pivot basis affected taken) : ‖basis.vec n‖ = 1 := by
  apply (h.pivoted htolerance hpicked htaken).units.unit
  rw [pivotVectors, htaken.pivots, List.map_append]
  exact List.mem_append_right _ List.mem_cons_self

/-- The state when a pivot has been applied to the rows `done`. -/
structure Applying (rows : List (SparseRow ℝ)) (n : ℕ) (preferSparse : Bool) (basis : SparseRow ℝ)
    (taken : RankState ℝ) (done : List ℕ) (s : RankState ℝ) : Prop where
  indexed : Indexed rows.length n preferSparse s
  left : ∀ i ∉ done, s.rows i = taken.rows i
  applied : ∀ i ∈ done, (s.rows i).vec n = without (basis.vec n) ((taken.rows i).vec n)
  pivots : s.pivots = taken.pivots
  accepted : s.d.acceptedPivots = taken.d.acceptedPivots
  tolerance : s.d.tolerance = taken.d.tolerance

theorem Applying.step {done : List ℕ} (h : Applying rows n preferSparse basis taken done s) (hi : i ∉ done)
    (hwaiting : Waiting rows.length taken i) (hbasis : SparseRow.Below n basis) (hunit : ‖basis.vec n‖ = 1) :
    Guarantees (Applying rows n preferSparse basis taken (done ++ [i])) (fun _ => True)
      (applyRow preferSparse basis s i) := by
  have hplaces : s.places = taken.places := congrArg (List.map Prod.fst) h.pivots
  have hwaiting : Waiting rows.length s i := by
    rw [Waiting, hplaces]
    exact hwaiting
  apply (applyRow_applied preferSparse hbasis hunit (h.indexed.below i)).mono
  · intro s' happlied
    constructor
    case indexed => exact h.indexed.applied hwaiting happlied
    case left =>
      intro j hj
      rw [List.mem_append, List.mem_singleton, not_or] at hj
      rw [happlied.rows j hj.2, h.left j hj.1]
    case applied =>
      intro j hj
      by_cases hji : j = i
      · rw [hji, happlied.vec, h.left i hi]
      · rw [List.mem_append, List.mem_singleton, or_iff_left hji] at hj
        rw [happlied.rows j hji, h.applied j hj]
    case pivots => rw [happlied.pivots, h.pivots]
    case accepted => rw [happlied.accepted, h.accepted]
    case tolerance => rw [happlied.tolerance, h.tolerance]
  · exact fun _ hstop => hstop

theorem Taken.waiting {t : Terms} (h : Taken t preferSparse s pivot basis affected taken)
    (hindexed : Indexed t.m n preferSparse taken) (hi : i ∈ affected) : Waiting t.m taken i := by
  obtain ⟨-, c, -, hc⟩ := (h.affected i).mp hi
  refine ⟨(h.mem_affected hi).1, ?_⟩
  intro hplace
  rw [hindexed.out i hplace] at hc
  exact absurd hc (Finset.notMem_empty c)

theorem Sound.apply (h : Sound rows n preferSparse tolerance s) (htolerance : 0 ≤ tolerance)
    (hpicked : Picked preferSparse s pivot)
    (htaken : Taken (terms rows nonzeroLimit workLimit) preferSparse s pivot basis affected taken)
    {done : List ℕ} (hdone : ∀ i ∈ done, i ∈ affected) (hnodup : done.Nodup) :
    Guarantees (Applying rows n preferSparse basis taken done) (fun _ => True)
      (done.foldlM (applyRow preferSparse basis) taken) := by
  obtain ⟨hpivot, -⟩ := h.indexed.picked hpicked
  have hindexed := h.indexed.taken hpivot htaken
  have hbasis : SparseRow.Below n basis := by
    rw [htaken.unit]
    exact h.indexed.below pivot
  apply Guarantees.foldlM (Applying rows n preferSparse basis taken)
  · intro before i rest state hsplit hstate
    rw [hsplit] at hnodup
    apply hstate.step
    · exact fun hi => (List.nodup_append.mp hnodup).2.2 i hi i List.mem_cons_self rfl
    · apply htaken.waiting hindexed
      apply hdone
      rw [hsplit]
      exact List.mem_append_right _ List.mem_cons_self
    · exact hbasis
    · exact h.unit htolerance hpicked htaken
  · exact ⟨hindexed, fun _ _ => rfl, fun _ hi => absurd hi List.not_mem_nil, rfl, rfl, rfl⟩

theorem Sound.unaffected (h : Sound rows n preferSparse tolerance s)
    (htaken : Taken (terms rows nonzeroLimit workLimit) preferSparse s pivot basis affected taken)
    (hi : i ∉ affected) (hne : i ≠ pivot) : inner ℝ ((s.rows i).vec n) (basis.vec n) = (0 : ℝ) := by
  by_cases hlisted : isListed rows i
  · apply SparseRow.inner_eq_zero
    intro c hc hmem
    apply hi
    refine (htaken.affected i).mpr ⟨hlisted, c, hc, ?_⟩
    rw [htaken.rows, Function.update_of_ne hne]
    exact hmem
  · rw [h.unlisted i hlisted, inner_zero_left]

/-- A pivot that has been applied to the rows it affects has been applied to all of them. -/
theorem Sound.left (h : Sound rows n preferSparse tolerance s) (htolerance : 0 ≤ tolerance)
    (hpicked : Picked preferSparse s pivot)
    (htaken : Taken (terms rows nonzeroLimit workLimit) preferSparse s pivot basis affected taken)
    (happlied : Applying rows n preferSparse basis taken affected.sort s') (i : ℕ) :
    (s'.rows i).vec n = without (basis.vec n) ((s.rows i).vec n) := by
  obtain ⟨hpivot, hlarge⟩ := h.indexed.picked hpicked
  by_cases hne : i = pivot
  · subst hne
    rw [h.tolerance] at hlarge
    have hpositive : (s.rows i).vec n ≠ 0 := norm_pos_iff.mp (lt_of_le_of_lt htolerance hlarge)
    have hempty : taken.rows i = .empty := by
      rw [htaken.rows, Function.update_self]
    have hout : i ∉ affected.sort fun a b => a ≤ b := by
      rw [Finset.mem_sort, htaken.affected, hempty]
      rintro ⟨-, c, -, hc⟩
      exact absurd hc (Finset.notMem_empty c)
    rw [happlied.left i hout, hempty, SparseRow.vec_empty, h.pivot_vec hpivot htaken, without_self hpositive]
  · have hrow : taken.rows i = s.rows i := by
      rw [htaken.rows, Function.update_of_ne hne]
    by_cases hi : i ∈ affected
    · rw [happlied.applied i ((Finset.mem_sort _).mpr hi), hrow]
    · have hout : i ∉ affected.sort fun a b => a ≤ b := fun hmem => hi ((Finset.mem_sort _).mp hmem)
      rw [happlied.left i hout, hrow, without_of_inner (h.unaffected htaken hi hne)]

theorem Sound.next (h : Sound rows n preferSparse tolerance s) (htolerance : 0 ≤ tolerance)
    (hpicked : Picked preferSparse s pivot)
    (htaken : Taken (terms rows nonzeroLimit workLimit) preferSparse s pivot basis affected taken)
    (happlied : Applying rows n preferSparse basis taken affected.sort s') :
    Sound rows n preferSparse tolerance s' := by
  have hleft := h.left htolerance hpicked htaken happlied
  constructor
  case indexed => exact happlied.indexed
  case residuals =>
    rw [pivotVectors, happlied.pivots]
    simp only [hleft]
    exact h.pivoted htolerance hpicked htaken
  case unlisted =>
    intro i hi
    rw [hleft i, h.unlisted i hi, without_of_inner (inner_zero_left _)]
  case accepted =>
    rw [happlied.accepted, htaken.accepted, happlied.pivots, htaken.pivots, h.accepted, List.length_append]
    rfl
  case tolerance => rw [happlied.tolerance, htaken.tolerance, h.tolerance]

/-! ### Reading the rows -/

/-- The state when the first rows have been read. -/
structure Entering (rows : List (SparseRow ℝ)) (n : ℕ) (preferSparse : Bool) (tolerance : ℝ) (count : ℕ)
    (s : RankState ℝ) : Prop where
  indexed : Indexed count n preferSparse s
  scaled : ∀ i < count, (s.rows i).vec n =
    ‖(rows.getD i .empty).vec n‖⁻¹ • (rows.getD i .empty).vec n
  rest : ∀ i, count ≤ i → s.rows i = rows.getD i .empty ∧ s.norms i = 0
  pivots : s.pivots = []
  accepted : s.d.acceptedPivots = 0
  tolerance : s.d.tolerance = tolerance

theorem below_getD (hrows : ∀ row ∈ rows, SparseRow.Below n row) (i : ℕ) :
    SparseRow.Below n (rows.getD i .empty) := by
  rw [List.getD_eq_getElem?_getD]
  cases hrow : rows[i]? with
  | none => exact fun c hc => absurd hc (Finset.notMem_empty c)
  | some row => exact hrows row (List.mem_of_getElem? hrow)

theorem entering_initial (hrows : ∀ row ∈ rows, SparseRow.Below n row) :
    Entering rows n preferSparse tolerance 0 (initial rows nonzeroLimit workLimit tolerance) := by
  constructor
  case indexed =>
    constructor
    case below => exact below_getD hrows
    case queue =>
      intro entry
      change entry ∈ [] ↔ (entry.2 < 0 ∧ _) ∧ _
      simp
    case sparsity =>
      intro _ length i
      change toLex (length, i) ∈ (∅ : Finset (ℕ ×ₗ ℕ)) ↔ (i < 0 ∧ _) ∧ _
      simp
    case norms => exact fun i hi => absurd hi.1 (Nat.not_lt_zero i)
    case out => exact fun i hi => absurd hi List.not_mem_nil
    case nodup => exact List.nodup_nil
    case within => exact fun i hi => absurd hi List.not_mem_nil
  case scaled => exact fun i hi => absurd hi (Nat.not_lt_zero i)
  case rest => exact fun i _ => ⟨rfl, rfl⟩
  case pivots => rfl
  case accepted => rfl
  case tolerance => rfl

theorem Entering.enqueue (h : Entering rows n preferSparse tolerance i s) (row : SparseRow ℝ)
    (hbelow : SparseRow.Below n row)
    (hrow : row.vec n = ‖(rows.getD i .empty).vec n‖⁻¹ • (rows.getD i .empty).vec n)
    (hrows : s'.rows = Function.update s.rows i row) (hnorms : s'.norms = Function.update s.norms i row.norm)
    (hqueue : s'.queue = s.queue) (hsparsity : s'.sparsity = s.sparsity) (hpivots : s'.pivots = s.pivots)
    (haccepted : s'.d.acceptedPivots = s.d.acceptedPivots) (htolerance : s'.d.tolerance = s.d.tolerance) :
    Entering rows n preferSparse tolerance (i + 1) (s'.enqueue preferSparse i) := by
  have hnone : s'.pivots = [] := by
    rw [hpivots, h.pivots]
  have hplaces : ∀ {s : RankState ℝ}, s.pivots = [] → s.places = [] := by
    intro s hs
    rw [places, hs]
    rfl
  have hwaiting : ∀ {s : RankState ℝ} {m j : ℕ}, s.pivots = [] → (Waiting m s j ↔ j < m) := by
    intro s m j hs
    rw [Waiting, hplaces hs]
    simp
  have hself : s'.rows i = row := by
    rw [hrows, Function.update_self]
  have hother : ∀ j, j ≠ i → s'.rows j = s.rows j := by
    intro j hj
    rw [hrows, Function.update_of_ne hj]
  have hnorm : s'.norms i = row.norm := by
    rw [hnorms, Function.update_self]
  have hothers : ∀ j, j ≠ i → s'.norms j = s.norms j := by
    intro j hj
    rw [hnorms, Function.update_of_ne hj]
  constructor
  case indexed =>
    constructor
    case below =>
      intro j
      change SparseRow.Below n (s'.rows j)
      by_cases hj : j = i
      · rw [hj, hself]
        exact hbelow
      · rw [hother j hj]
        exact h.indexed.below j
    case queue =>
      intro entry
      change entry ∈ RankQueue.insert s'.queue (s'.norms i) i ↔ Waiting (i + 1) s' entry.2 ∧ _ = s'.norms entry.2
      rw [RankQueue.mem_insert, hqueue, h.indexed.queue, hwaiting hnone, hwaiting h.pivots, Prod.ext_iff]
      by_cases hj : entry.2 = i
      · simp [hj]
      · have hlt : entry.2 < i + 1 ↔ entry.2 < i := by omega
        rw [hothers _ hj, hlt]
        simp [hj]
    case sparsity =>
      intro hprefer length j
      change toLex (length, j) ∈ (if preferSparse then insert (toLex ((s'.rows i).len, i)) s'.sparsity
        else s'.sparsity) ↔ Waiting (i + 1) s' j ∧ length = (s'.rows j).len
      rw [if_pos hprefer, Finset.mem_insert, hsparsity, h.indexed.sparsity hprefer, hwaiting hnone,
        hwaiting h.pivots, toLex_inj, Prod.mk.injEq]
      by_cases hj : j = i
      · subst hj
        simp
      · have hlt : j < i + 1 ↔ j < i := by omega
        rw [hother j hj, hlt]
        simp [hj]
    case norms =>
      intro j hj
      change s'.norms j = ‖(s'.rows j).vec n‖
      have hj := (hwaiting (s := s'.enqueue preferSparse i) hnone).mp hj
      by_cases hji : j = i
      · rw [hji, hnorm, hself, SparseRow.norm_eq hbelow]
      · rw [hothers j hji, hother j hji]
        exact h.indexed.norms j ((hwaiting h.pivots).mpr (by omega))
    case out =>
      intro j hj
      rw [hplaces (s := s'.enqueue preferSparse i) hnone] at hj
      exact absurd hj List.not_mem_nil
    case nodup =>
      rw [hplaces (s := s'.enqueue preferSparse i) hnone]
      exact List.nodup_nil
    case within =>
      intro j hj
      rw [hplaces (s := s'.enqueue preferSparse i) hnone] at hj
      exact absurd hj List.not_mem_nil
  case scaled =>
    intro j hj
    change (s'.rows j).vec n = _
    by_cases hji : j = i
    · rw [hji, hself, hrow]
    · rw [hother j hji, h.scaled j (by omega)]
  case rest =>
    intro j hj
    change s'.rows j = _ ∧ s'.norms j = 0
    rw [hother j (by omega), hothers j (by omega)]
    exact h.rest j (by omega)
  case pivots => exact hnone
  case accepted =>
    change s'.d.acceptedPivots = 0
    rw [haccepted, h.accepted]
  case tolerance =>
    change s'.d.tolerance = tolerance
    rw [htolerance, h.tolerance]

theorem Entering.enterRow (h : Entering rows n preferSparse tolerance i s)
    (hrows : ∀ row ∈ rows, SparseRow.Below n row) :
    Guarantees (Entering rows n preferSparse tolerance (i + 1)) (fun _ => True)
      (RankState.enterRow n preferSparse s i) := by
  obtain ⟨hrow, hzero⟩ := h.rest i (le_refl i)
  have hbelow := below_getD hrows i
  have hnorm : (s.rows i).norm = ‖(rows.getD i .empty).vec n‖ := by
    rw [hrow, SparseRow.norm_eq hbelow]
  apply (charge_any s _).bind
  rintro _ ⟨work, rfl⟩
  dsimp only
  split
  · exact trivial
  · split
    case isTrue hpositive =>
      apply h.enqueue ((s.rows i).divide (s.rows i).norm)
      · rw [hrow]
        exact hbelow
      · rw [SparseRow.vec_divide, hnorm, hrow]
      all_goals rfl
    case isFalse hnonpositive =>
      have hle : (s.rows i).norm ≤ 0 := by
        by_contra hlt
        exact hnonpositive (decide_eq_true (not_le.mp hlt))
      have hnone : (rows.getD i .empty).vec n = 0 := by
        rw [hnorm] at hle
        exact norm_le_zero_iff.mp hle
      apply h.enqueue (s.rows i)
      · rw [hrow]
        exact hbelow
      · rw [hrow, hnone, smul_zero]
      · rw [Function.update_eq_self]
      · rw [hnorm, hnone, norm_zero, ← hzero, Function.update_eq_self]
      all_goals rfl

theorem setup_sound (hrows : ∀ row ∈ rows, SparseRow.Below n row) :
    Guarantees (Sound rows n preferSparse tolerance) (fun _ => True)
      (setup rows n nonzeroLimit workLimit preferSparse tolerance) := by
  rw [setup]
  split
  · exact trivial
  · have hloop : Guarantees (Entering rows n preferSparse tolerance rows.length) (fun _ => True)
        ((List.range rows.length).foldlM (enterRow n preferSparse)
          (initial rows nonzeroLimit workLimit tolerance)) :=
      Guarantees.foldlM_range (Entering rows n preferSparse tolerance) (fun i _ _ hs => hs.enterRow hrows)
        (entering_initial hrows)
    apply hloop.mono
    · intro s h
      have hinput : ∀ i : Fin rows.length, rows.getD i .empty = rows.get i := fun i => by simp
      have hresidual : (fun i : Fin rows.length => (s.rows i).vec n) = normalized n rows := by
        funext i
        rw [h.scaled i i.isLt, hinput i]
        rfl
      constructor
      case indexed => exact h.indexed
      case residuals =>
        rw [pivotVectors, h.pivots, hresidual]
        exact residuals_start _
      case unlisted =>
        intro i hi
        have hnone : (rows.getD i .empty).vec n = 0 := by
          rw [isListed, SparseRow.norm_eq (below_getD hrows i)] at hi
          apply norm_le_zero_iff.mp
          by_contra hlt
          exact hi (decide_eq_true (not_le.mp hlt))
        by_cases hlt : i < rows.length
        · rw [h.scaled i hlt, hnone, smul_zero]
        · rw [(h.rest i (not_lt.mp hlt)).1, hnone]
      case accepted =>
        rw [h.accepted, h.pivots]
        rfl
      case tolerance => exact h.tolerance
    · exact fun _ hstop => hstop

/-! ### Runs -/

theorem Indexed.length_le (h : Indexed m n preferSparse s) : s.pivots.length ≤ m := by
  have hsubset : s.places.toFinset ⊆ Finset.range m := by
    intro i hi
    exact Finset.mem_range.mpr (h.within i (List.mem_toFinset.mp hi))
  have hcard := Finset.card_le_card hsubset
  rwa [List.toFinset_card_of_nodup h.nodup, Finset.card_range, places, List.length_map] at hcard

theorem Sound.pivotStep (h : Sound rows n preferSparse tolerance s) (htolerance : 0 ≤ tolerance)
    (haccounts : Accounts (terms rows nonzeroLimit workLimit) 0 s) :
    Guarantees (fun result => match result with
        | none => ∀ largest, s.queue.last = some largest → le largest.1 s.d.tolerance = true
        | some s' => Sound rows n preferSparse tolerance s' ∧ s'.pivots.length = s.pivots.length + 1)
      (fun _ => True) (RankState.pivotStep preferSparse s) := by
  apply Guarantees.bind ((haccounts.takePivot preferSparse).mono (fun _ h => h) fun _ _ => trivial)
  intro result hresult
  cases result with
  | none => exact hresult
  | some result =>
    obtain ⟨basis, affected, taken⟩ := result
    obtain ⟨pivot, hpicked, htaken⟩ := hresult
    have hrows := h.apply htolerance hpicked htaken (fun i hi => (Finset.mem_sort _).mp hi)
      (Finset.sort_nodup affected fun a b => a ≤ b)
    apply hrows.bind
    intro applied happlied
    apply (release_any applied basis.len).bind
    rintro _ rfl
    have hnext := h.next htolerance hpicked htaken happlied
    refine ⟨⟨⟨hnext.indexed.below, hnext.indexed.queue, hnext.indexed.sparsity, hnext.indexed.norms,
      hnext.indexed.out, hnext.indexed.nodup, hnext.indexed.within⟩, hnext.residuals, hnext.unlisted,
      hnext.accepted, hnext.tolerance⟩, ?_⟩
    change applied.pivots.length = _
    rw [happlied.pivots, htaken.pivots, List.length_append]
    rfl

theorem Reached.sound (hrows : ∀ row ∈ rows, SparseRow.Below n row) (htolerance : 0 ≤ tolerance)
    {held : Option (SparseRow ℝ)}
    (h : Reached rows n nonzeroLimit workLimit preferSparse tolerance held s) (hheld : held = none) :
    Sound rows n preferSparse tolerance s := by
  induction h with
  | start h => exact (setup_sound hrows).of_ok h
  | next h hstep ih => exact ((ih rfl).pivotStep htolerance h.accounts |>.of_ok hstep).1
  | row => exact nomatch hheld
  | first => exact nomatch hheld
  | second => exact nomatch hheld

theorem Reached.pivotLoop (hrows : ∀ row ∈ rows, SparseRow.Below n row) (htolerance : 0 ≤ tolerance)
    {fuel : ℕ} (h : Reached rows n nonzeroLimit workLimit preferSparse tolerance none s)
    (hfuel : rows.length < s.pivots.length + fuel) :
    ∃ result, RankState.pivotLoop preferSparse fuel s = some result ∧
      Guarantees (fun last => Reached rows n nonzeroLimit workLimit preferSparse tolerance none last ∧
          ∀ largest, last.queue.last = some largest → le largest.1 last.d.tolerance = true)
        (fun _ => True) result := by
  have hsound := h.sound hrows htolerance rfl
  induction fuel generalizing s with
  | zero =>
    have hlength := hsound.indexed.length_le
    omega
  | succ fuel ih =>
    have hstep := hsound.pivotStep htolerance h.accounts
    rw [RankState.pivotLoop]
    cases hresult : RankState.pivotStep preferSparse s with
    | error stop => exact ⟨_, rfl, trivial⟩
    | ok result =>
      have hgood := hstep.of_ok hresult
      cases result with
      | none => exact ⟨_, rfl, h, hgood⟩
      | some next =>
        obtain ⟨hnext, hlength⟩ := hgood
        exact ih (h.next hresult) (by omega) hnext

theorem subtractAt_aside (basis : SparseRow ℝ) (i : ℕ) (dot : ℝ) (s : RankState ℝ) (c : ℕ) :
    Guarantees (Aside i s) (fun _ => True) (s.subtractAt basis i dot c) :=
  ((subtracted_nil basis i dot s).subtractAt List.not_mem_nil).mono (fun _ h => h.aside) fun _ h => h

theorem columns_aside (basis : SparseRow ℝ) (i : ℕ) (dot : ℝ) (s : RankState ℝ) (columns : List ℕ) :
    Guarantees (Aside i s) (fun _ => True) (columns.foldlM (subtractAt basis i dot) s) := by
  apply Guarantees.foldlM_keep
  · intro c _ state hstate
    exact (subtractAt_aside basis i dot state c).mono (fun _ h => hstate.trans h) fun _ h => h
  · exact Aside.refl i s

theorem pass_aside (basis : SparseRow ℝ) (i : ℕ) (s : RankState ℝ) :
    Guarantees (Aside i s) (fun _ => True) (pass basis i s) := by
  apply (beginPass_any basis i s).bind
  rintro ⟨dot, begun⟩ ⟨hcharged, -⟩
  have haside := hcharged.aside i
  cases dot with
  | none => exact haside
  | some dot => exact (columns_aside basis i dot begun _).mono (fun _ h => haside.trans h) fun _ h => h

/-- In every state the pivots accepted so far have length one and are orthogonal to one another. -/
theorem Reached.units (hrows : ∀ row ∈ rows, SparseRow.Below n row) (htolerance : 0 ≤ tolerance)
    {held : Option (SparseRow ℝ)}
    (h : Reached rows n nonzeroLimit workLimit preferSparse tolerance held s) : UnitList (pivotVectors n s) := by
  have happlied : ∀ {s taken s' : RankState ℝ} {basis : SparseRow ℝ} {affected : Finset ℕ} {done : List ℕ},
      Reached rows n nonzeroLimit workLimit preferSparse tolerance none s →
      takePivot preferSparse s = .ok (some (basis, affected, taken)) → done <+: affected.sort →
      done.foldlM (applyRow preferSparse basis) taken = .ok s' → UnitList (pivotVectors n s') := by
    intro s taken s' basis affected done h htake hdone hfold
    have hsound := h.sound hrows htolerance rfl
    obtain ⟨pivot, hpicked, htaken⟩ := (h.accounts.takePivot preferSparse).of_ok htake
    have hnodup : done.Nodup := hdone.sublist.nodup (Finset.sort_nodup affected fun a b => a ≤ b)
    have happlying := (hsound.apply htolerance hpicked htaken
      (fun i hi => (Finset.mem_sort _).mp (hdone.subset hi)) hnodup).of_ok hfold
    rw [pivotVectors, happlying.pivots]
    exact (hsound.pivoted htolerance hpicked htaken).units
  have hsame : ∀ {s s' : RankState ℝ} {i : ℕ}, UnitList (pivotVectors n s) → Aside i (s.dequeue preferSparse i) s' →
      UnitList (pivotVectors n s') := by
    intro s s' i hs haside
    rw [pivotVectors, haside.pivots]
    exact hs
  cases h with
  | start h => exact ((setup_sound hrows).of_ok h).residuals.units
  | next h hstep => exact ((h.next hstep).sound hrows htolerance rfl).residuals.units
  | row h htaken hdone hfold => exact happlied h htaken hdone hfold
  | first h htaken hdone hfold hbegun hcolumns hvisited =>
    have hbefore := happlied h htaken ((List.prefix_append _ _).trans hdone) hfold
    have hcharged := ((beginPass_any _ _ _).of_ok hbegun).1
    exact hsame hbefore ((hcharged.aside _).trans ((columns_aside ..).of_ok hvisited))
  | second h htaken hdone hfold hpassed hbegun hcolumns hvisited =>
    have hbefore := happlied h htaken ((List.prefix_append _ _).trans hdone) hfold
    have hpassed := (pass_aside _ _ _).of_ok hpassed
    have hcharged := ((beginPass_any _ _ _).of_ok hbegun).1
    exact hsame hbefore (hpassed.trans ((hcharged.aside _).trans ((columns_aside ..).of_ok hvisited)))

/-- At the end of an audit what is left of every row is within the tolerance, so the pivots come that near to
the normalized rows and their number is a rank, or bounds one from below. -/
theorem Sound.complete (h : Sound rows n preferSparse tolerance s) (htolerance : 0 ≤ tolerance)
    (hend : ∀ largest, s.queue.last = some largest → le largest.1 s.d.tolerance = true) :
    (∀ i, ∃ w ∈ spanOf (pivotVectors n s), ‖normalized n rows i - w‖ ≤ tolerance) ∧
      s.d.acceptedPivots ≤ rankOf (inputs n rows) ∧
      (tolerance = 0 → s.d.acceptedPivots = rankOf (inputs n rows)) := by
  have hpositive : 0 ≤ s.d.tolerance := by
    rw [h.tolerance]
    exact htolerance
  have hrest : ∀ i : Fin rows.length, ‖(s.rows i).vec n‖ ≤ tolerance := by
    intro i
    rw [← h.tolerance]
    exact h.indexed.rest hpositive hend i.isLt
  have hcount : s.d.acceptedPivots = (pivotVectors n s).length := by
    rw [h.accepted, pivotVectors, List.length_map]
  rw [hcount, ← rankOf_normalized]
  refine ⟨?_, h.residuals.length_le_rank, ?_⟩
  · intro i
    refine ⟨_, h.residuals.span i, ?_⟩
    rw [sub_sub_cancel]
    exact hrest i
  · rintro rfl
    exact h.residuals.length_eq_rank fun i => norm_le_zero_iff.mp (hrest i)

/-- The audit is sound. In every state the live coefficients are those of the rows and of the pivot in use, the
rows that are not zero are listed under exactly their columns, the limits are kept and the pivots are
orthonormal. The audit ends, and where it completes every normalized row is within the tolerance of the span of
the pivots, whose number is at most the rank, and the rank itself for a tolerance of zero. -/
theorem auditWithLimits_sound (rows : List (SparseRow ℝ)) (n nonzeroLimit workLimit : ℕ)
    (preferSparse : Bool) (tolerance : ℝ) (hrows : ∀ row ∈ rows, SparseRow.Below n row)
    (htolerance : 0 ≤ tolerance) :
    (∀ held s, Reached rows n nonzeroLimit workLimit preferSparse tolerance held s →
      s.live = stored rows.length s.rows + heldBy held ∧ s.live ≤ s.d.peakNonzeros ∧
      s.d.peakNonzeros ≤ nonzeroLimit ∧ s.d.work ≤ workLimit ∧
      (∀ c i, i ∈ s.incidence c ↔ c ∈ (s.rows i).columns ∧ isListed rows i) ∧
      Orthonormal ℝ (pivotVectors n s).get) ∧
    ∃ rank d, auditWithLimits (rows.length + 1) rows n nonzeroLimit workLimit preferSparse tolerance =
        some (.ended rank d) ∧
      d.work ≤ workLimit ∧ d.peakNonzeros ≤ Nat.max nonzeroLimit (rows.map SparseRow.len).sum ∧
      ∀ r, rank = some r → ∃ s,
        Reached rows n nonzeroLimit workLimit preferSparse tolerance none s ∧ (pivotVectors n s).length = r ∧
        (∀ i, ∃ w ∈ spanOf (pivotVectors n s), ‖normalized n rows i - w‖ ≤ tolerance) ∧
        r ≤ rankOf (inputs n rows) ∧ (tolerance = 0 → r = rankOf (inputs n rows)) := by
  constructor
  · intro held s hs
    have haccounts := hs.accounts
    exact ⟨haccounts.live, haccounts.livePeak, haccounts.peak, haccounts.work, haccounts.incidence,
      (hs.units hrows htolerance).orthonormal⟩
  · have hends : ∃ result,
        auditWithLimits (rows.length + 1) rows n nonzeroLimit workLimit preferSparse tolerance = some result ∧
        ∀ r d, result = .ended (some r) d → ∃ s,
          Reached rows n nonzeroLimit workLimit preferSparse tolerance none s ∧ (pivotVectors n s).length = r ∧
          (∀ i, ∃ w ∈ spanOf (pivotVectors n s), ‖normalized n rows i - w‖ ≤ tolerance) ∧
          r ≤ rankOf (inputs n rows) ∧ (tolerance = 0 → r = rankOf (inputs n rows)) := by
      rw [auditWithLimits]
      cases hsetup : setup rows n nonzeroLimit workLimit preferSparse tolerance with
      | error stop =>
        refine ⟨_, rfl, ?_⟩
        cases stop with
        | refused outcome d =>
          intro _ _ h
          cases h
        | underflow =>
          intro _ _ h
          cases h
      | ok s =>
        have hstart : Reached rows n nonzeroLimit workLimit preferSparse tolerance none s := .start hsetup
        have hfuel : rows.length < s.pivots.length + (rows.length + 1) := by omega
        obtain ⟨result, hresult, hgood⟩ := hstart.pivotLoop hrows htolerance hfuel
        refine ⟨endOf result, ?_, ?_⟩
        · dsimp only
          rw [hresult, Option.map_some]
        · intro r d hend
          cases result with
          | ok last =>
            obtain ⟨hlast, hdone⟩ := hgood
            obtain ⟨hrank, -⟩ := AuditEnd.ended.inj hend
            obtain rfl := Option.some.inj hrank
            have hsound := hlast.sound hrows htolerance rfl
            refine ⟨last, hlast, ?_, hsound.complete htolerance hdone⟩
            rw [hsound.accepted, pivotVectors, List.length_map]
          | error stop => cases stop <;> cases hend
    obtain ⟨result, hresult, hcomplete⟩ := hends
    obtain ⟨rank, d, rfl, hwork, hpeak⟩ := auditWithLimits_within hresult
    refine ⟨rank, d, hresult, hwork, hpeak, ?_⟩
    rintro r rfl
    exact hcomplete r d rfl

end RankState

end

/-! ### Two rows, and a single coefficient -/

@[reducible] local instance singleText : DecimalText ℝ := ⟨fun _ => ""⟩

noncomputable def singleRow (v : ℝ) : SparseRow ℝ := ⟨{0}, fun _ => v⟩

theorem below_singleRow (v : ℝ) : ∀ row ∈ [singleRow v], SparseRow.Below 1 row := by
  intro row hrow c hc
  rw [List.mem_singleton.mp hrow] at hc
  rw [Finset.mem_singleton.mp hc]
  exact Nat.one_pos

/-- Two rows with a column in common. -/
noncomputable def sharedRows : List (SparseRow ℝ) := [⟨{0}, fun _ => 2⟩, ⟨{0, 1}, fun _ => 1⟩]

theorem below_sharedRows : ∀ row ∈ sharedRows, SparseRow.Below 2 row := by
  intro row hrow c hc
  simp only [sharedRows, List.mem_cons, List.not_mem_nil, or_false] at hrow
  rcases hrow with rfl | rfl
  all_goals
    simp only [Finset.mem_insert, Finset.mem_singleton] at hc
    omega

theorem auditWithLimits_sound_shared : ∃ rank d,
    auditWithLimits 3 sharedRows 2 8 100 true (rankTolerance : ℝ) = some (.ended rank d) ∧
      d.work ≤ 100 ∧ d.peakNonzeros ≤ 8 ∧
      ∀ r, rank = some r → r ≤ rankOf (RankState.inputs 2 sharedRows) ∧
        ∃ s, (RankState.pivotVectors 2 s).length = r ∧
          ∀ i, ∃ w ∈ spanOf (RankState.pivotVectors 2 s),
            ‖RankState.normalized 2 sharedRows i - w‖ ≤ rankTolerance := by
  have hpositive : (0 : ℝ) ≤ rankTolerance := by
    change (0 : ℝ) ≤ ((1 / 10 ^ 9 : ℚ) : ℝ)
    positivity
  obtain ⟨-, rank, d, haudit, hwork, hpeak, hrank⟩ :=
    RankState.auditWithLimits_sound sharedRows 2 8 100 true rankTolerance below_sharedRows hpositive
  refine ⟨rank, d, haudit, hwork, hpeak.trans (by decide), ?_⟩
  intro r hr
  obtain ⟨s, -, hcount, hspan, hle, -⟩ := hrank r hr
  exact ⟨hle, s, hcount, hspan⟩

/-- The audit counts the coefficients it is given before it compares them with the limit, and lists a row of
stored zeros under no column. -/
theorem auditWithLimits_exceeds_single :
    (∃ d, auditWithLimits 2 [singleRow 1] 1 0 100 true (0 : ℝ) = some (.ended none d) ∧
      d.nonzeroLimit < d.peakNonzeros) ∧
    ∃ s, RankState.Reached [singleRow 0] 1 1 1 true 0 none s ∧ 0 ∈ (s.rows 0).columns ∧ 0 ∉ s.incidence 0 := by
  have hnorm : (singleRow 0).norm = 0 := by
    rw [SparseRow.norm_eq (below_singleRow 0 _ List.mem_cons_self), norm_eq_zero]
    ext c
    rw [SparseRow.vec_apply, SparseRow.get_eq]
    change (if _ then (0 : ℝ) else 0) = 0
    rw [ite_self]
  constructor
  · refine ⟨_, rfl, ?_⟩
    exact Nat.one_pos
  · set first := RankState.initial [singleRow 0] 1 1 (0 : ℝ) with hfirst
    have hbelow : ¬ (¬ isFinite (singleRow 0).norm ∨ ∃ c ∈ (singleRow 0).columns, 1 ≤ c) := by
      rintro (hinfinite | ⟨c, hc, hle⟩)
      · exact hinfinite rfl
      · rw [Finset.mem_singleton.mp hc] at hle
        exact absurd hle (by decide)
    have hzero : ¬ lt 0 (singleRow 0).norm = true := by
      rw [hnorm]
      exact fun hlt => absurd (of_decide_eq_true hlt) (lt_irrefl _)
    have hentered : RankState.enterRow 1 true first 0 =
        .ok (RankState.enqueue true 0 { first with d := { first.d with work := 1 } }) := by
      have hcharge : first.charge (first.rows 0).len = .ok { first with d := { first.d with work := 1 } } := rfl
      rw [RankState.enterRow]
      dsimp only
      rw [hcharge]
      split
      case isTrue hbad => exact absurd hbad hbelow
      case isFalse =>
        split
        case isTrue hlt => exact absurd hlt hzero
        case isFalse => rfl
    have hsetup : RankState.setup [singleRow 0] 1 1 1 true 0 =
        .ok (RankState.enqueue true 0 { first with d := { first.d with work := 1 } }) := by
      change (RankState.enterRow 1 true first 0 >>= fun s => .ok s) = _
      rw [hentered]
      rfl
    have hreached := RankState.Reached.start hsetup
    refine ⟨_, hreached, Finset.mem_singleton_self 0, ?_⟩
    rw [hreached.accounts.incidence]
    rintro ⟨-, hlisted⟩
    exact hzero hlisted

end Tellegen.McOpf
