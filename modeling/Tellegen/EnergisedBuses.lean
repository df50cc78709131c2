import Tellegen.SpanningForest

/-!
The reach of the sources against the drawn forest. A tree whose root has no source
holds no source at all, so a bus is live exactly when the root of its tree is.
-/

open BreadthFirst

namespace Tellegen

section

variable {I K : Type} [DecidableEq K] {lower : I → K} {graph : DistGraph I}

theorem mem_energisedAdjacency {u v : ℕ} :
    (v, ()) ∈ energisedAdjacency lower graph u ↔ ∃ k, ClosedBranch lower graph k u v := by
  rw [energisedAdjacency, List.mem_flatMap]
  constructor
  · rintro ⟨edge, hedge, hmem⟩
    obtain ⟨k, hk, hat⟩ := List.getElem_of_mem hedge
    have hlook : graph.edges[k]? = some edge := by rw [List.getElem?_eq_getElem hk, hat]
    split at hmem
    case h_2 => exact absurd hmem List.not_mem_nil
    case h_1 a b hends =>
      obtain ⟨hclosed, hmem⟩ := List.mem_ite_nil_right.mp hmem
      obtain ⟨-, ⟨rfl, rfl⟩ | ⟨rfl, rfl⟩⟩ := mem_across.mp hmem
      · exact ⟨k, edge, hlook, hclosed, .inl hends⟩
      · exact ⟨k, edge, hlook, hclosed, .inr hends⟩
  · rintro ⟨k, edge, hat, hclosed, hends⟩
    refine ⟨edge, List.mem_of_getElem? hat, ?_⟩
    rcases hends with hends | hends
    · simp only [hends, hclosed, if_true]
      exact List.mem_append_left _ List.mem_cons_self
    · simp only [hends, hclosed, if_true]
      exact List.mem_append_right _ List.mem_cons_self

theorem reaches_energisedAdjacency_iff {u v : ℕ} :
    Reaches (energisedAdjacency lower graph) u v ↔ Connected lower graph u v := by
  have hnext : Neighbour (energisedAdjacency lower graph) =
      fun u v => ∃ k, ClosedBranch lower graph k u v := by
    funext a b
    rw [← mem_energisedAdjacency, eq_iff_iff]
    exact ⟨fun ⟨_, h⟩ => h, fun h => ⟨(), h⟩⟩
  rw [Reaches, hnext, Connected]

theorem Connected.lt {u v : ℕ} (h : Connected lower graph u v) (hu : u < graph.buses.length) :
    v < graph.buses.length := by
  cases h with
  | refl => exact hu
  | tail _ hnext =>
    obtain ⟨k, hk⟩ := hnext
    exact hk.lt

variable (lower graph)

/-- The search finds what a source is connected to, and has as many buses in its queue. -/
theorem energisation_spec :
    (∀ v, (energisation lower graph).buses v ↔ ∃ s, hasSource graph s ∧ Connected lower graph s v) ∧
      (energisation lower graph).deadBuses =
        (List.range graph.buses.length).countP fun v => !(energisation lower graph).buses v := by
  let n := graph.buses.length
  let sources := (List.range n).filter (hasSource graph)
  let start : ℕ → Bool := fun i => i < n ∧ hasSource graph i
  have hsources : ∀ {s}, s ∈ sources ↔ hasSource graph s := by
    intro s
    rw [List.mem_filter, List.mem_range]
    exact ⟨fun h => h.2, fun h => ⟨lt_of_hasSource h, h⟩⟩
  have hseen : ∀ a ∈ sources, liveRecorder.seen start a := by
    intro a ha
    have hsource := hsources.mp ha
    change decide (a < n ∧ hasSource graph a) = true
    exact decide_eq_true ⟨lt_of_hasSource hsource, hsource⟩
  have hall : ∀ a ∈ sources, ∀ x, Reaches (energisedAdjacency lower graph) a x → x ∈ List.range n := by
    intro a ha x hx
    rw [reaches_energisedAdjacency_iff] at hx
    exact List.mem_range.mpr (hx.lt (lt_of_hasSource (hsources.mp ha)))
  have hnodup : sources.Nodup := List.nodup_range.filter _
  have hkeep : ∀ (state : ℕ → Bool) (u : ℕ) (next : ℕ × Unit), True → liveRecorder.seen state u →
      next ∈ energisedAdjacency lower graph u → ¬ liveRecorder.seen state next.1 → True :=
    fun _ _ _ _ _ _ _ => trivial
  have hrun := run_spec hkeep hseen hnodup trivial hall
  rw [List.length_range] at hrun
  let search : Search ℕ (ℕ → Bool) := run liveRecorder (energisedAdjacency lower graph) n
    { state := start, done := [], queue := sources }
  obtain ⟨hfound, hqueue, _⟩ := hrun
  change Found liveRecorder (energisedAdjacency lower graph) sources start search.state search.done
    at hfound
  change search.queue = [] at hqueue
  have hdone : ∀ v, search.state v ↔ v ∈ search.done := by
    intro v
    have hv : search.state v ↔ start v ∨ v ∈ search.done := hfound.seen v
    rw [hv]
    constructor
    · rintro (hstart | hmem)
      · exact hfound.begun v (hsources.mpr (of_decide_eq_true hstart).2)
      · exact hmem
    · exact .inr
  constructor
  · intro v
    change search.state v ↔ _
    rw [hdone]
    constructor
    · intro hv
      obtain ⟨s, hs, hreach⟩ := hfound.reached v hv
      exact ⟨s, hsources.mp hs, reaches_energisedAdjacency_iff.mp hreach⟩
    · rintro ⟨s, hs, hreach⟩
      induction hreach with
      | refl => exact hfound.begun s (hsources.mpr hs)
      | @tail x y _ hnext ih =>
        exact (hdone y).mp (hfound.closed x ih (y, ()) (mem_energisedAdjacency.mpr hnext))
  · change n - (search.done ++ search.queue).length =
      (List.range n).countP fun v => !search.state v
    have hlive : search.done.Perm ((List.range n).filter search.state) := by
      rw [List.perm_ext_iff_of_nodup hfound.nodup (List.nodup_range.filter _)]
      intro v
      rw [List.mem_filter, hdone]
      constructor
      · intro hv
        obtain ⟨s, hs, hreach⟩ := hfound.reached v hv
        exact ⟨hall s hs v hreach, hv⟩
      · exact fun h => h.2
    have hcount := List.length_eq_countP_add_countP search.state (l := List.range n)
    rw [List.length_range] at hcount
    rw [hqueue, List.append_nil, hlive.length_eq, ← List.countP_eq_length_filter]
    have hnot : (List.range n).countP (fun v => decide ¬ search.state v = true) =
        (List.range n).countP fun v => !search.state v := by
      congr 1
      funext v
      cases search.state v <;> rfl
    omega

theorem energised_iff_root {v r : ℕ} (hv : v < graph.buses.length)
    (hr : r ∈ (spanningTree lower graph).roots) (hup : (spanningTree lower graph).Ascends v r) :
    (energisation lower graph).buses v ↔ hasSource graph r := by
  obtain ⟨hgrown, hseen⟩ := grown_spanningTree lower graph
  have hreach := hgrown.trees.reaches_of_ascends (hseen v hv) hr hup
  rw [(energisation_spec lower graph).1]
  constructor
  · rintro ⟨s, hs, hconnected⟩
    rcases hgrown.sourced r hr with hsource | hnone
    · exact hsource
    · have hback := undirected_adjacency.reaches_symm (reaches_adjacency_iff.mpr hconnected)
      exact absurd hs (hnone s (hreach.trans hback))
  · intro hsource
    exact ⟨r, hsource, reaches_adjacency_iff.mp hreach⟩

end

end Tellegen
