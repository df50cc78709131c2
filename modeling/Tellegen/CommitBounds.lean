import Tellegen.Lib.Machine
import Tellegen.Sample
import Tellegen.Study

/-!
The commit bounds of a session cut its edit log into the batches of its commits.
They do so as long as no commit adds nothing to an empty log.
-/

open Binary64 Outcome
open Machine (run)

namespace Tellegen

variable {F : Type} [Binary64 F] {engine : Engine F}

/-- Prefix lengths of a log of `length` edits, in order, up to its end. -/
structure Bounds (bounds : List ℕ) (length : ℕ) : Prop where
  ordered : bounds.Pairwise (· ≤ ·)
  last : ∀ bound ∈ bounds.getLast?, bound = length
  empty : bounds = [] ↔ length = 0

theorem bounds_nil : Bounds [] 0 where
  ordered := .nil
  last := by
    intro bound h
    cases h
  empty := by simp

theorem Bounds.le {bounds : List ℕ} {length bound : ℕ} (h : Bounds bounds length)
    (hmem : bound ∈ bounds) : bound ≤ length := by
  obtain ⟨init, last, rfl⟩ : ∃ init last, bounds = init ++ [last] := by
    rcases List.eq_nil_or_concat bounds with rfl | ⟨init, last, hconcat⟩
    · cases hmem
    · exact ⟨init, last, by rw [hconcat, List.concat_eq_append]⟩
  have hlast : last = length := h.last last (by simp)
  have hordered := List.pairwise_append.mp h.ordered
  rcases List.mem_append.mp hmem with hinit | hend
  · have hle := hordered.2.2 bound hinit last (List.mem_singleton_self last)
    omega
  · have heq := List.mem_singleton.mp hend
    omega

theorem Bounds.commit {bounds : List ℕ} {length added : ℕ} (h : Bounds bounds length)
    (hadded : 0 < length + added) : Bounds (bounds ++ [length + added]) (length + added) where
  ordered := by
    apply List.pairwise_append.mpr
    refine ⟨h.ordered, List.pairwise_singleton _ _, ?_⟩
    intro bound hbound last hlast
    have hle := h.le hbound
    have heq := List.mem_singleton.mp hlast
    omega
  last := by
    intro bound hbound
    rw [List.getLast?_concat] at hbound
    exact (Option.mem_some.mp hbound).symm
  empty := by
    constructor
    · intro hnil
      simp at hnil
    · intro hzero
      omega

theorem bounds_replaced (length : ℕ) : Bounds (if length = 0 then [] else [length]) length := by
  by_cases hzero : length = 0
  · rw [if_pos hzero, hzero]
    exact bounds_nil
  · rw [if_neg hzero]
    have hcommit : Bounds ([] ++ [0 + length]) (0 + length) := bounds_nil.commit (by omega)
    rwa [Nat.zero_add] at hcommit

namespace Study

def Partitioned (study : Study engine) : Prop := Bounds study.commitBounds study.log.length

inductive Command (F : Type) where
  | commit (edits : List (NetworkEdit F)) (sensitivities : List SensRequest)
  | replaceEdits (edits : List (NetworkEdit F)) (sensitivities : List SensRequest)
  | setConstraints (constraints : List (LinearConstraint F))
  | fork

def perform (study : Study engine) : Command F → Study engine
  | .commit edits sensitivities => (commitWith edits sensitivities study).2
  | .replaceEdits edits sensitivities => (replaceEditsWith edits sensitivities study).2
  | .setConstraints constraints => (setConstraints constraints study).2
  | .fork => study.fork

theorem commitLog_cases (log : List (NetworkEdit F)) (bounds : List ℕ)
    (sensitivities : List SensRequest) (study : Study engine) :
    (commitLog log bounds sensitivities study).2 = study ∨
      (validateNetworkEdits study.base log = .ok () ∧
        ∃ answer, study.solveLog log sensitivities = .ok answer ∧
          (commitLog log bounds sensitivities study).2 =
            { study with log, commitBounds := bounds, solved := answer.1, last := answer.2 }) := by
  rw [commitLog]
  cases hvalid : validateNetworkEdits study.base log with
  | error message => exact .inl rfl
  | ok _ =>
    cases hsolve : study.solveLog log sensitivities with
    | error message => exact .inl rfl
    | ok answer => exact .inr ⟨rfl, answer, rfl, rfl⟩

/-- A batch without edits, on a log without edits, that the base case is solved for. -/
def CommitsNothing (study : Study engine) : Command F → Prop
  | .commit edits sensitivities =>
    edits = [] ∧ study.log = [] ∧ validateNetworkEdits study.base ([] : List (NetworkEdit F)) = .ok () ∧
      ∃ answer, study.solveLog [] sensitivities = .ok answer
  | _ => False

theorem perform_partitioned {study : Study engine} {command : Command F} (h : study.Partitioned)
    (hadds : ¬ study.CommitsNothing command) : (study.perform command).Partitioned := by
  cases command with
  | commit edits sensitivities =>
    rw [perform, commitWith]
    rcases commitLog_cases (study.log ++ edits)
      (study.commitBounds ++ [(study.log ++ edits).length]) sensitivities study with
      hsame | ⟨hvalid, answer, hanswer, hnext⟩
    · rw [hsame]
      exact h
    · rw [hnext]
      have hlength : 0 < study.log.length + edits.length := by
        by_contra hzero
        have hlog : study.log = [] := List.length_eq_zero_iff.mp (by omega)
        have hedits : edits = [] := List.length_eq_zero_iff.mp (by omega)
        rw [hlog, hedits, List.append_nil] at hvalid hanswer
        exact hadds ⟨hedits, hlog, hvalid, answer, hanswer⟩
      simp only [Partitioned, List.length_append]
      exact Bounds.commit h hlength
  | replaceEdits edits sensitivities =>
    rw [perform, replaceEditsWith]
    rcases commitLog_cases edits (if edits = [] then [] else [edits.length]) sensitivities study with
      hsame | ⟨-, answer, -, hnext⟩
    · rw [hsame]
      exact h
    · rw [hnext]
      have hbounds := bounds_replaced edits.length
      simpa only [Partitioned, List.length_eq_zero_iff] using hbounds
  | setConstraints constraints =>
    rw [perform, setConstraints]
    split <;> exact h
  | fork => exact h

theorem perform_not_partitioned {study : Study engine} {command : Command F}
    (hnothing : study.CommitsNothing command) : ¬ (study.perform command).Partitioned := by
  cases command with
  | commit edits sensitivities =>
    obtain ⟨rfl, hlog, hvalid, answer, hanswer⟩ := hnothing
    have hnext : (study.perform (.commit [] sensitivities)).commitBounds ≠ [] ∧
        (study.perform (.commit [] sensitivities)).log = [] := by
      rw [perform, commitWith, hlog, List.append_nil, commitLog, hvalid, hanswer]
      constructor
      · simp
      · rfl
    intro hpartitioned
    have hempty := hpartitioned.empty
    rw [hnext.2] at hempty
    exact hnext.1 (hempty.mpr rfl)
  | replaceEdits | setConstraints | fork => exact hnothing.elim

theorem new_partitioned {moduleJson : String} {formulation : Problem} {study : Study engine}
    (h : Study.new engine moduleJson formulation = .ok study) : study.Partitioned := by
  have hopened : ∀ (base : engine.Network) (input : StudyInput engine.Instance) (json : String),
      fromNetworkAndModule engine base input formulation json = .ok study → study.Partitioned := by
    intro base input json hok
    simp only [fromNetworkAndModule, bind_eq_ok, pure_eq_ok] at hok
    obtain ⟨_, -, _, -, _, -, rfl⟩ := hok
    exact bounds_nil
  simp only [Study.new, bind_eq_ok] at h
  obtain ⟨pioModule, -, h⟩ := h
  simp only [fromDynamicModule, bind_eq_ok] at h
  obtain ⟨json, -, h⟩ := h
  split at h
  case h_5 => cases h
  all_goals exact hopened _ _ _ h

/-- The bounds of every session reached partition its log exactly when no command on the way
commits nothing to an empty log. -/
theorem commit_bounds_partition_iff {moduleJson : String} {formulation : Problem}
    {study : Study engine} (h : Study.new engine moduleJson formulation = .ok study)
    (commands : List (Command F)) :
    (∀ done rest, commands = done ++ rest → (run perform study done).Partitioned) ↔
      ∀ done next rest, commands = done ++ next :: rest →
        ¬ (run perform study done).CommitsNothing next := by
  have hstart := new_partitioned h
  constructor
  · intro hall done next rest hsplit hnothing
    have hafter := hall (done ++ [next]) rest (by simp [hsplit])
    rw [Machine.run_append] at hafter
    exact perform_not_partitioned hnothing hafter
  · intro hadds done
    induction done using List.reverseRecOn with
    | nil => exact fun _ _ => hstart
    | append_singleton done next ih =>
      intro rest hsplit
      rw [Machine.run_append]
      apply perform_partitioned
      · exact ih (next :: rest) (by simp [hsplit])
      · exact hadds done next rest (by simp [hsplit])

/-! ### A commit of nothing -/

/-- A new session is given an empty batch: its log stays empty, and it counts a commit. -/
theorem commit_bounds_nonempty_without_edits :
    ∃ study : Study Sample.engine,
      Study.new Sample.engine (Sample.caseText (Sample.oneBus 1 10)) .dcOpf = .ok study ∧
        (run perform study [.commit [] []]).log = [] ∧
        (run perform study [.commit [] []]).commitBounds = [0] ∧
        ¬ (run perform study [.commit [] []]).Partitioned := by
  obtain ⟨study, hnew, hlog, hbounds⟩ : ∃ study : Study Sample.engine,
      Study.new Sample.engine (Sample.caseText (Sample.oneBus 1 10)) .dcOpf = .ok study ∧
        (run perform study [.commit [] []]).log = [] ∧
        (run perform study [.commit [] []]).commitBounds = [0] :=
    exists_ok_of (by decide +kernel)
  refine ⟨study, hnew, hlog, hbounds, ?_⟩
  intro hpartitioned
  have hempty := hpartitioned.empty
  rw [hlog, hbounds] at hempty
  exact List.cons_ne_nil 0 [] (hempty.mpr rfl)

theorem commit_bounds_partition_iff_oneBus :
    ∃ study : Study Sample.engine,
      Study.new Sample.engine (Sample.caseText (Sample.oneBus 1 10)) .dcOpf = .ok study ∧
        (run perform study [.commit [.addLoad (.id 1) 5] [], .fork]).Partitioned ∧
        (run perform study [.commit [.addLoad (.id 1) 5] [], .fork]).commitBounds = [1] := by
  obtain ⟨study, hnew, hbounds⟩ : ∃ study : Study Sample.engine,
      Study.new Sample.engine (Sample.caseText (Sample.oneBus 1 10)) .dcOpf = .ok study ∧
        (run perform study [.commit [.addLoad (.id 1) 5] [], .fork]).commitBounds = [1] :=
    exists_ok_of (by decide +kernel)
  have hall := (commit_bounds_partition_iff hnew [.commit [.addLoad (.id 1) 5] [], .fork]).mpr (by
    intro done next rest hsplit hnothing
    have hmem : next ∈ [Command.commit [.addLoad (.id 1) 5] [], .fork] := by
      rw [hsplit]
      simp
    rcases List.mem_pair.mp hmem with rfl | rfl
    · exact List.cons_ne_nil _ _ hnothing.1
    · exact hnothing)
  exact ⟨study, hnew, hall _ [] (List.append_nil _).symm, hbounds⟩

end Study

end Tellegen
