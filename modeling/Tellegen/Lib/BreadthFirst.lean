import Mathlib.Data.List.Nodup
import Mathlib.Data.List.Perm.Subperm

/-!
Breadth-first search with a queue. What is recorded of a node when it is found is up
to a recorder, which also tells whether the node has been found before. A node joins
the queue once, so a search takes as many steps as there are nodes.
-/

namespace BreadthFirst

/-- `record state u v label` finds `v` from `u` along an edge with the label. -/
structure Recorder (α ε S : Type) [DecidableEq α] where
  seen : S → α → Bool
  record : S → α → α → ε → S
  seen_record : ∀ state u v label x,
    seen (record state u v label) x = (decide (x = v) || seen state x)

/-- `done` are the nodes taken from the queue, in order. -/
structure Search (α S : Type) where
  state : S
  done : List α
  queue : List α

variable {α ε S : Type} [DecidableEq α]

def visit (recorder : Recorder α ε S) (u : α) (search : Search α S) (next : α × ε) : Search α S :=
  if recorder.seen search.state next.1 then search
  else
    { search with
      state := recorder.record search.state u next.1 next.2
      queue := search.queue ++ [next.1] }

def run (recorder : Recorder α ε S) (adjacent : α → List (α × ε)) : ℕ → Search α S → Search α S
  | 0, search => search
  | fuel + 1, search =>
    match search.queue with
    | [] => search
    | u :: rest =>
      run recorder adjacent fuel
        ((adjacent u).foldl (visit recorder u)
          { search with done := search.done ++ [u], queue := rest })

def Neighbour (adjacent : α → List (α × ε)) (a b : α) : Prop := ∃ label, (b, label) ∈ adjacent a

def Reaches (adjacent : α → List (α × ε)) : α → α → Prop :=
  Relation.ReflTransGen (Neighbour adjacent)

/-! ### One search -/

section Searching

variable {recorder : Recorder α ε S} {adjacent : α → List (α × ε)} {holds : S → Prop} {begun : List α}
  {start : S}

/-- The search has found what it took or has in its queue, and what was found before. The neighbours
of `expanded` are found too; `holds` is kept by every record. -/
structure Searching (recorder : Recorder α ε S) (adjacent : α → List (α × ε)) (holds : S → Prop)
    (begun : List α) (start : S) (expanded : List α) (search : Search α S) : Prop where
  seen : ∀ x, recorder.seen search.state x ↔
    recorder.seen start x ∨ x ∈ search.done ++ search.queue
  fresh : ∀ x ∈ search.done ++ search.queue, x ∈ begun ∨ ¬ recorder.seen start x
  nodup : (search.done ++ search.queue).Nodup
  reached : ∀ x ∈ search.done ++ search.queue, ∃ a ∈ begun, Reaches adjacent a x
  begun : ∀ a ∈ begun, a ∈ search.done ++ search.queue
  neighbours : ∀ x ∈ expanded, ∀ next ∈ adjacent x, recorder.seen search.state next.1
  holds : holds search.state

theorem searching_start (hseen : ∀ a ∈ begun, recorder.seen start a) (hnodup : begun.Nodup)
    (hholds : holds start) :
    Searching recorder adjacent holds begun start []
      { state := start, done := [], queue := begun } := by
  constructor
  case seen =>
    intro x
    rw [List.nil_append]
    exact ⟨.inl, fun h => h.elim id (hseen x)⟩
  case fresh => exact fun x hx => .inl hx
  case nodup => exact hnodup
  case reached => exact fun x hx => ⟨x, hx, .refl⟩
  case begun => exact fun a ha => ha
  case neighbours => exact fun x hx => absurd hx List.not_mem_nil
  case holds => exact hholds

theorem done_visit (u : α) (search : Search α S) (next : α × ε) :
    (visit recorder u search next).done = search.done := by
  rw [visit]
  split <;> rfl

theorem seen_visit (u : α) (search : Search α S) (next : α × ε) (x : α) :
    recorder.seen (visit recorder u search next).state x ↔
      x = next.1 ∨ recorder.seen search.state x := by
  rw [visit]
  split
  case isTrue hseen =>
    constructor
    · exact .inr
    · rintro (rfl | hx)
      · exact hseen
      · exact hx
  case isFalse =>
    rw [recorder.seen_record, Bool.or_eq_true, decide_eq_true_eq]

theorem Searching.visit (hkeep : ∀ state u next, holds state → recorder.seen state u →
      next ∈ adjacent u → ¬ recorder.seen state next.1 →
      holds (recorder.record state u next.1 next.2))
    {expanded : List α} {search : Search α S} {u : α}
    (h : Searching recorder adjacent holds begun start expanded search)
    (hu : u ∈ search.done ++ search.queue) {next : α × ε} (hnext : next ∈ adjacent u) :
    Searching recorder adjacent holds begun start expanded (visit recorder u search next) := by
  have hsee : ∀ x, recorder.seen (BreadthFirst.visit recorder u search next).state x ↔
      x = next.1 ∨ recorder.seen search.state x := seen_visit u search next
  by_cases hseen : recorder.seen search.state next.1
  · rw [BreadthFirst.visit, if_pos hseen]
    exact h
  · have hout : next.1 ∉ search.done ++ search.queue := fun hmem => hseen ((h.seen _).mpr (.inr hmem))
    rw [BreadthFirst.visit, if_neg hseen] at hsee ⊢
    have hmem : ∀ x, x ∈ search.done ++ (search.queue ++ [next.1]) ↔
        x = next.1 ∨ x ∈ search.done ++ search.queue := by
      intro x
      rw [← List.append_assoc, List.mem_append, List.mem_singleton]
      exact or_comm
    constructor
    case seen =>
      intro x
      rw [hsee, h.seen, hmem]
      tauto
    case fresh =>
      intro x hx
      rcases (hmem x).mp hx with rfl | hold
      · exact .inr fun hold => hseen ((h.seen _).mpr (.inl hold))
      · exact h.fresh x hold
    case nodup =>
      rw [← List.append_assoc]
      exact List.nodup_append.mpr ⟨h.nodup, List.nodup_singleton _, fun a ha b hb heq =>
        hout (by rw [← List.mem_singleton.mp hb, ← heq]; exact ha)⟩
    case reached =>
      intro x hx
      rcases (hmem x).mp hx with rfl | hold
      · obtain ⟨a, ha, hreach⟩ := h.reached u hu
        exact ⟨a, ha, hreach.tail ⟨next.2, hnext⟩⟩
      · exact h.reached x hold
    case begun => exact fun a ha => (hmem a).mpr (.inr (h.begun a ha))
    case neighbours => exact fun x hx other hother => (hsee _).mpr (.inr (h.neighbours x hx other hother))
    case holds =>
      exact hkeep _ u next h.holds ((h.seen u).mpr (.inr hu)) hnext hseen

theorem Searching.visits (hkeep : ∀ state u next, holds state → recorder.seen state u →
      next ∈ adjacent u → ¬ recorder.seen state next.1 →
      holds (recorder.record state u next.1 next.2))
    {expanded : List α} {u : α} (neighbours : List (α × ε))
    (hneighbours : ∀ next ∈ neighbours, next ∈ adjacent u) {search : Search α S}
    (h : Searching recorder adjacent holds begun start expanded search) (hu : u ∈ search.done) :
    Searching recorder adjacent holds begun start expanded
        (neighbours.foldl (BreadthFirst.visit recorder u) search) ∧
      (neighbours.foldl (BreadthFirst.visit recorder u) search).done = search.done ∧
      ∀ x, (recorder.seen search.state x ∨ ∃ next ∈ neighbours, next.1 = x) →
        recorder.seen (neighbours.foldl (BreadthFirst.visit recorder u) search).state x := by
  induction neighbours generalizing search with
  | nil =>
    refine ⟨h, rfl, ?_⟩
    intro x hx
    rcases hx with hx | ⟨next, hnext, _⟩
    · exact hx
    · exact absurd hnext List.not_mem_nil
  | cons first rest ih =>
    have hfirst := h.visit hkeep (List.mem_append_left _ hu) (hneighbours first List.mem_cons_self)
    have hdone : (BreadthFirst.visit recorder u search first).done = search.done :=
      done_visit u search first
    obtain ⟨hrest, hdones, hsome⟩ := ih (fun next hnext => hneighbours next (List.mem_cons_of_mem _ hnext))
      hfirst (by rw [hdone]; exact hu)
    refine ⟨hrest, hdones.trans hdone, ?_⟩
    intro x hx
    apply hsome x
    rw [seen_visit]
    rcases hx with hx | ⟨next, hnext, rfl⟩
    · exact .inl (.inr hx)
    · rcases List.mem_cons.mp hnext with rfl | hmem
      · exact .inl (.inl rfl)
      · exact .inr ⟨next, hmem, rfl⟩

/-- Taking a node from the queue and finding its neighbours. -/
theorem Searching.step (hkeep : ∀ state u next, holds state → recorder.seen state u →
      next ∈ adjacent u → ¬ recorder.seen state next.1 →
      holds (recorder.record state u next.1 next.2))
    {search : Search α S} {u : α} {rest : List α}
    (h : Searching recorder adjacent holds begun start search.done search)
    (hqueue : search.queue = u :: rest) :
    let next := (adjacent u).foldl (BreadthFirst.visit recorder u)
      { search with done := search.done ++ [u], queue := rest }
    Searching recorder adjacent holds begun start next.done next ∧
      next.done.length = search.done.length + 1 := by
  have hsame : search.done ++ [u] ++ rest = search.done ++ search.queue := by
    rw [hqueue, List.append_assoc, List.singleton_append]
  have hpop : Searching recorder adjacent holds begun start search.done
      { search with done := search.done ++ [u], queue := rest } := by
    constructor
    case seen =>
      rw [hsame]
      exact h.seen
    case fresh =>
      rw [hsame]
      exact h.fresh
    case nodup =>
      rw [hsame]
      exact h.nodup
    case reached =>
      rw [hsame]
      exact h.reached
    case begun =>
      rw [hsame]
      exact h.begun
    case neighbours => exact h.neighbours
    case holds => exact h.holds
  obtain ⟨hnext, hdone, hsome⟩ := hpop.visits hkeep (adjacent u) (fun _ hmem => hmem)
    (List.mem_append_right _ List.mem_cons_self)
  intro next
  refine ⟨⟨hnext.seen, hnext.fresh, hnext.nodup, hnext.reached, hnext.begun, ?_, hnext.holds⟩, ?_⟩
  · intro x hx other hother
    rw [hdone] at hx
    rcases List.mem_append.mp hx with hx | hx
    · exact hnext.neighbours x hx other hother
    · rw [List.mem_singleton.mp hx] at hother
      exact hsome other.1 (.inr ⟨other, hother, rfl⟩)
  · rw [hdone, List.length_append, List.length_singleton]

/-- With a step for every node that can be reached, the search ends with an empty queue. -/
theorem Searching.run (hkeep : ∀ state u next, holds state → recorder.seen state u →
      next ∈ adjacent u → ¬ recorder.seen state next.1 →
      holds (recorder.record state u next.1 next.2))
    {everything : List α} (hall : ∀ a ∈ begun, ∀ x, Reaches adjacent a x → x ∈ everything) (fuel : ℕ)
    {search : Search α S} (h : Searching recorder adjacent holds begun start search.done search)
    (hfuel : everything.length ≤ search.done.length + fuel) :
    let final := BreadthFirst.run recorder adjacent fuel search
    Searching recorder adjacent holds begun start final.done final ∧ final.queue = [] := by
  induction fuel generalizing search with
  | zero =>
    have hsubset : search.done ++ search.queue ⊆ everything := by
      intro x hx
      obtain ⟨a, ha, hreach⟩ := h.reached x hx
      exact hall a ha x hreach
    have hlength := (List.subperm_of_subset h.nodup hsubset).length_le
    rw [List.length_append] at hlength
    have hqueue : search.queue.length = 0 := by omega
    exact ⟨h, List.length_eq_zero_iff.mp hqueue⟩
  | succ fuel ih =>
    rw [BreadthFirst.run]
    split
    case h_1 hempty => exact ⟨h, hempty⟩
    case h_2 u rest hqueue =>
      obtain ⟨hnext, hlength⟩ := h.step hkeep hqueue
      exact ih hnext (by omega)

end Searching

/-- What a search from found nodes leaves: it found exactly what it took, each node once, and nothing
that it reaches is left out. -/
structure Found (recorder : Recorder α ε S) (adjacent : α → List (α × ε)) (begun : List α)
    (start final : S) (done : List α) : Prop where
  seen : ∀ x, recorder.seen final x ↔ recorder.seen start x ∨ x ∈ done
  fresh : ∀ x ∈ done, x ∈ begun ∨ ¬ recorder.seen start x
  nodup : done.Nodup
  reached : ∀ x ∈ done, ∃ a ∈ begun, Reaches adjacent a x
  begun : ∀ a ∈ begun, a ∈ done
  closed : ∀ x ∈ done, ∀ next ∈ adjacent x, recorder.seen final next.1

theorem run_spec {recorder : Recorder α ε S} {adjacent : α → List (α × ε)} {holds : S → Prop}
    {begun everything : List α} {start : S}
    (hkeep : ∀ state u next, holds state → recorder.seen state u → next ∈ adjacent u →
      ¬ recorder.seen state next.1 → holds (recorder.record state u next.1 next.2))
    (hseen : ∀ a ∈ begun, recorder.seen start a) (hnodup : begun.Nodup) (hholds : holds start)
    (hall : ∀ a ∈ begun, ∀ x, Reaches adjacent a x → x ∈ everything) :
    let final := run recorder adjacent everything.length { state := start, done := [], queue := begun }
    Found recorder adjacent begun start final.state final.done ∧ final.queue = [] ∧
      holds final.state := by
  let opening : Search α S := { state := start, done := [], queue := begun }
  have hstart : Searching recorder adjacent holds begun start opening.done opening :=
    searching_start hseen hnodup hholds
  obtain ⟨hfinal, hqueue⟩ := hstart.run hkeep hall everything.length (Nat.le_add_left _ _)
  intro final
  change Searching recorder adjacent holds begun start final.done final at hfinal
  obtain ⟨hfseen, hfresh, hfnodup, hreached, hbegun, hneighbours, hfholds⟩ := hfinal
  change final.queue = [] at hqueue
  simp only [hqueue, List.append_nil] at hfseen hfresh hfnodup hreached hbegun
  exact ⟨⟨hfseen, hfresh, hfnodup, hreached, hbegun, hneighbours⟩, hqueue, hfholds⟩

/-! ### Two recorders -/

/-- A recorder that sees as much of another's state runs as that one does. -/
theorem run_map {S' : Type} (recorder : Recorder α ε S) (recorder' : Recorder α ε S') (view : S → S')
    (hseen : ∀ state x, recorder'.seen (view state) x = recorder.seen state x)
    (hrecord : ∀ state u v label, view (recorder.record state u v label) =
      recorder'.record (view state) u v label)
    (adjacent : α → List (α × ε)) (fuel : ℕ) (search : Search α S) :
    run recorder' adjacent fuel ⟨view search.state, search.done, search.queue⟩ =
      ⟨view (run recorder adjacent fuel search).state, (run recorder adjacent fuel search).done,
        (run recorder adjacent fuel search).queue⟩ := by
  have hvisit : ∀ u (search : Search α S) next,
      visit recorder' u ⟨view search.state, search.done, search.queue⟩ next =
        ⟨view (visit recorder u search next).state, (visit recorder u search next).done,
          (visit recorder u search next).queue⟩ := by
    intro u search next
    simp only [visit, hseen]
    split
    · rfl
    · rw [hrecord]
  have hvisits : ∀ u (neighbours : List (α × ε)) (search : Search α S),
      neighbours.foldl (visit recorder' u) ⟨view search.state, search.done, search.queue⟩ =
        ⟨view (neighbours.foldl (visit recorder u) search).state,
          (neighbours.foldl (visit recorder u) search).done,
          (neighbours.foldl (visit recorder u) search).queue⟩ := by
    intro u neighbours
    induction neighbours with
    | nil => exact fun search => rfl
    | cons first rest ih =>
      intro search
      rw [List.foldl_cons, List.foldl_cons, hvisit, ih]
  induction fuel generalizing search with
  | zero => rfl
  | succ fuel ih =>
    obtain ⟨state, done, queue⟩ := search
    cases queue with
    | nil => rfl
    | cons u rest =>
      simp only [run]
      rw [hvisits u (adjacent u) ⟨state, done ++ [u], rest⟩, ih]

end BreadthFirst
