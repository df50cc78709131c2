import Mathlib.Data.List.Chain
import Tellegen.Lib.Counting

/-!
Chains of pieces with two ends each. A link map says which end of which piece is met across an end; a
walk follows the links from one piece to the next while the pieces are new. An entry of a chain is a piece
with the end through which it is entered; the walk leaves through the other one.
-/

set_option linter.unusedSectionVars false

namespace Chaining

variable {ι : Type} [DecidableEq ι] (next : ι × Bool → Option (ι × Bool))

/-- The entries after the given one, and the pieces used then. -/
def walk : ℕ → (ι → Bool) → ι × Bool → List (ι × Bool) × (ι → Bool)
  | 0, used, _ => ([], used)
  | fuel + 1, used, entry =>
    match next (entry.1, !entry.2) with
    | none => ([], used)
    | some step =>
      if used step.1 then ([], used)
      else
        let (rest, used) := walk fuel (Function.update used step.1 true) step
        (step :: rest, used)

/-- A chain enters its first piece by the first end where that end is linked, and leaves it there where
only the second one is. -/
def chainsFrom (entryOf : ι → ι × Bool) (fuel : ℕ) : List ι → (ι → Bool) → List (List (ι × Bool))
  | [], _ => []
  | start :: rest, used =>
    if used start then chainsFrom entryOf fuel rest used
    else
      let (steps, used) := walk next fuel (Function.update used start true) (entryOf start)
      (entryOf start :: steps) :: chainsFrom entryOf fuel rest used

/-- One entry leads to the other. -/
def Follows (a b : ι × Bool) : Prop := next (a.1, !a.2) = some b

variable {next}

/-- What a walk visits: linked pieces, each of them new and only once. -/
structure Visits (next : ι × Bool → Option (ι × Bool)) (used : ι → Bool) (entry : ι × Bool)
    (out : List (ι × Bool) × (ι → Bool)) : Prop where
  chain : (entry :: out.1).IsChain (Follows next)
  nodup : (out.1.map Prod.fst).Nodup
  new : ∀ i ∈ out.1.map Prod.fst, used i = false
  used_iff : ∀ i, out.2 i = true ↔ used i = true ∨ i ∈ out.1.map Prod.fst

theorem visits_nil (used : ι → Bool) (entry : ι × Bool) : Visits next used entry ([], used) where
  chain := List.IsChain.singleton entry
  nodup := List.nodup_nil
  new := fun _ h => absurd h List.not_mem_nil
  used_iff := fun _ => (or_iff_left List.not_mem_nil).symm

theorem walk_visits (fuel : ℕ) (used : ι → Bool) (entry : ι × Bool) :
    Visits next used entry (walk next fuel used entry) := by
  induction fuel generalizing used entry with
  | zero => exact visits_nil used entry
  | succ fuel ih =>
    rw [walk]
    split
    case h_1 => exact visits_nil used entry
    case h_2 step hstep =>
      split
      case isTrue => exact visits_nil used entry
      case isFalse hnew =>
        rw [Bool.not_eq_true] at hnew
        obtain ⟨hchain, hnodup, hrest, hused⟩ := ih (Function.update used step.1 true) step
        have hfresh : ∀ i ∈ (walk next fuel (Function.update used step.1 true) step).1.map Prod.fst,
            i ≠ step.1 ∧ used i = false := by
          intro i hi
          have hout := hrest i hi
          have hne : i ≠ step.1 := fun heq => by
            rw [heq, Function.update_self] at hout
            cases hout
          rw [Function.update_of_ne hne] at hout
          exact ⟨hne, hout⟩
        refine ⟨List.IsChain.cons_cons hstep hchain, ?_, ?_, ?_⟩
        · rw [List.map_cons, List.nodup_cons]
          exact ⟨fun hmem => (hfresh _ hmem).1 rfl, hnodup⟩
        · intro i hi
          rcases List.mem_cons.mp hi with rfl | hi
          · exact hnew
          · exact (hfresh i hi).2
        · intro i
          dsimp only
          rw [hused, List.map_cons, List.mem_cons]
          by_cases heq : i = step.1
          · rw [heq, Function.update_self]
            exact iff_of_true (.inl rfl) (.inr (.inl rfl))
          · rw [Function.update_of_ne heq]
            simp only [heq, false_or]

/-- More rounds than there are new pieces change nothing: the loop has ended by its own conditions. -/
theorem walk_exit {members : List ι} (hmembers : ∀ e step, next e = some step → step.1 ∈ members)
    (fuel : ℕ) (used : ι → Bool) (entry : ι × Bool)
    (hfuel : (members.countP fun i => !used i) ≤ fuel) (more : ℕ) (hmore : fuel ≤ more) :
    walk next more used entry = walk next fuel used entry := by
  induction fuel generalizing used entry more with
  | zero =>
    cases more with
    | zero => rfl
    | succ more =>
      rw [walk, walk]
      split
      case h_1 => rfl
      case h_2 step hstep =>
        have hnone := List.countP_eq_zero.mp (Nat.le_zero.mp hfuel) step.1 (hmembers _ _ hstep)
        rw [Bool.not_eq_true, Bool.not_eq_false'] at hnone
        rw [if_pos hnone]
  | succ fuel ih =>
    cases more with
    | zero => omega
    | succ more =>
      rw [walk, walk]
      split
      case h_1 => rfl
      case h_2 step hstep =>
        split
        case isTrue => rfl
        case isFalse hnew =>
          rw [Bool.not_eq_true] at hnew
          have hless := Counting.countP_not_update (hmembers _ _ hstep) hnew
          rw [ih (Function.update used step.1 true) step (by omega) more (by omega)]

variable (next) in
/-- All chains: linked pieces, each piece new and in one chain only, and no start left out. -/
theorem chainsFrom_spec {entryOf : ι → ι × Bool} (hentry : ∀ i, (entryOf i).1 = i) (fuel : ℕ)
    (starts : List ι) (used : ι → Bool) :
    (∀ chain ∈ chainsFrom next entryOf fuel starts used,
      chain ≠ [] ∧ chain.IsChain (Follows next)) ∧
    ((chainsFrom next entryOf fuel starts used).flatten.map Prod.fst).Nodup ∧
    (∀ i ∈ (chainsFrom next entryOf fuel starts used).flatten.map Prod.fst, used i = false) ∧
    ∀ i ∈ starts, used i = true ∨
      i ∈ (chainsFrom next entryOf fuel starts used).flatten.map Prod.fst := by
  induction starts generalizing used with
  | nil =>
    exact ⟨fun _ h => absurd h List.not_mem_nil, List.nodup_nil, fun _ h => absurd h List.not_mem_nil,
      fun _ h => absurd h List.not_mem_nil⟩
  | cons start rest ih =>
    rw [chainsFrom]
    split
    case isTrue hused =>
      obtain ⟨hchains, hnodup, hnew, hall⟩ := ih used
      refine ⟨hchains, hnodup, hnew, ?_⟩
      intro i hi
      rcases List.mem_cons.mp hi with rfl | hi
      · exact .inl hused
      · exact hall i hi
    case isFalse hstart =>
      rw [Bool.not_eq_true] at hstart
      obtain ⟨hchain, hsteps, hnewSteps, husedSteps⟩ :=
        walk_visits fuel (Function.update used start true) (entryOf start)
      dsimp only
      generalize walk next fuel (Function.update used start true) (entryOf start) = out at *
      obtain ⟨hchains, hnodup, hnew, hall⟩ := ih out.2
      have hused : ∀ i, out.2 i = true ↔ used i = true ∨ i = start ∨ i ∈ out.1.map Prod.fst := by
        intro i
        rw [husedSteps]
        by_cases heq : i = start
        · rw [heq, Function.update_self]
          exact iff_of_true (.inl rfl) (.inr (.inl rfl))
        · rw [Function.update_of_ne heq]
          simp only [heq, false_or]
      have hfresh : ∀ i ∈ out.1.map Prod.fst, i ≠ start ∧ used i = false := by
        intro i hi
        have hout := hnewSteps i hi
        have hne : i ≠ start := fun heq => by
          rw [heq, Function.update_self] at hout
          cases hout
        rw [Function.update_of_ne hne] at hout
        exact ⟨hne, hout⟩
      have hflatten : ((((entryOf start :: out.1) :: chainsFrom next entryOf fuel rest out.2).flatten).map
          Prod.fst) = start :: (out.1.map Prod.fst ++
            (chainsFrom next entryOf fuel rest out.2).flatten.map Prod.fst) := by
        rw [List.flatten_cons, List.map_append, List.map_cons, hentry, List.cons_append]
      rw [hflatten]
      have hlater : ∀ i ∈ (chainsFrom next entryOf fuel rest out.2).flatten.map Prod.fst,
          used i = false ∧ i ≠ start ∧ i ∉ out.1.map Prod.fst := by
        intro i hi
        have hout := hnew i hi
        rw [← Bool.not_eq_true, hused, not_or, not_or, Bool.not_eq_true] at hout
        exact hout
      refine ⟨?_, ?_, ?_, ?_⟩
      · intro chain hmem
        rcases List.mem_cons.mp hmem with rfl | hmem
        · exact ⟨List.cons_ne_nil _ _, hchain⟩
        · exact hchains chain hmem
      · rw [List.nodup_cons, List.nodup_append]
        refine ⟨?_, hsteps, hnodup, ?_⟩
        · intro hmem
          rcases List.mem_append.mp hmem with hmem | hmem
          · exact (hfresh start hmem).1 rfl
          · exact (hlater start hmem).2.1 rfl
        · intro i hi j hj heq
          rw [heq] at hi
          exact (hlater j hj).2.2 hi
      · intro i hi
        rcases List.mem_cons.mp hi with rfl | hi
        · exact hstart
        · rcases List.mem_append.mp hi with hi | hi
          · exact (hfresh i hi).2
          · exact (hlater i hi).1
      · intro i hi
        rcases List.mem_cons.mp hi with rfl | hi
        · exact .inr List.mem_cons_self
        · rcases hall i hi with hout | hmem
          · rcases (hused i).mp hout with h | rfl | h
            · exact .inl h
            · exact .inr List.mem_cons_self
            · exact .inr (List.mem_cons_of_mem _ (List.mem_append_left _ h))
          · exact .inr (List.mem_cons_of_mem _ (List.mem_append_right _ hmem))

theorem walk_mem {P : ι → Prop} (hnext : ∀ e step, next e = some step → P step.1) (fuel : ℕ)
    (used : ι → Bool) (entry : ι × Bool) : ∀ i ∈ (walk next fuel used entry).1.map Prod.fst, P i := by
  induction fuel generalizing used entry with
  | zero => exact fun _ h => absurd h List.not_mem_nil
  | succ fuel ih =>
    rw [walk]
    split
    case h_1 => exact fun _ h => absurd h List.not_mem_nil
    case h_2 step hstep =>
      split
      case isTrue => exact fun _ h => absurd h List.not_mem_nil
      case isFalse =>
        intro i hi
        rcases List.mem_cons.mp hi with rfl | hi
        · exact hnext _ _ hstep
        · exact ih _ _ i hi

/-- What the starts and the linked pieces have in common, the pieces of all chains have. -/
theorem chainsFrom_mem {P : ι → Prop} (hnext : ∀ e step, next e = some step → P step.1)
    {entryOf : ι → ι × Bool} (hentry : ∀ i, (entryOf i).1 = i) (fuel : ℕ) (starts : List ι)
    (hstarts : ∀ i ∈ starts, P i) (used : ι → Bool) :
    ∀ i ∈ (chainsFrom next entryOf fuel starts used).flatten.map Prod.fst, P i := by
  induction starts generalizing used with
  | nil => exact fun _ h => absurd h List.not_mem_nil
  | cons start rest ih =>
    have hrest := ih fun i hi => hstarts i (List.mem_cons_of_mem _ hi)
    rw [chainsFrom]
    split
    case isTrue => exact hrest used
    case isFalse =>
      intro i hi
      dsimp only at hi
      rw [List.flatten_cons, List.map_append, List.map_cons, hentry, List.cons_append] at hi
      rcases List.mem_cons.mp hi with rfl | hi
      · exact hstarts i List.mem_cons_self
      · rcases List.mem_append.mp hi with hi | hi
        · exact walk_mem hnext fuel _ _ i hi
        · exact hrest _ i hi

end Chaining
