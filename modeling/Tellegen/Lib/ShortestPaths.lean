import Mathlib.Algebra.GroupWithZero.Nat
import Mathlib.Algebra.Order.Monoid.Defs
import Mathlib.Data.List.Perm.Basic
import Mathlib.Data.List.Nodup

/-!
Shortest paths from several sources with a heap and lazy deletion: an entry is passed over when its vertex
has been reached more cheaply since. On an empty heap the distances are exact, whatever order entries were
taken in; taking a least one first, every vertex is expanded once, which bounds the steps.
-/

namespace ShortestPaths

/-- A walk along arcs, and its length. -/
inductive Walk {V K : Type} [Zero K] [Add K] (arcs : V → List (V × K)) : V → V → K → Prop
  | start (s : V) : Walk arcs s s 0
  | snoc {s u w : V} {d k : K} (h : Walk arcs s u d) (harc : (w, k) ∈ arcs u) : Walk arcs s w (d + k)

/-- A vertex reached at a distance from a source. -/
structure Visit (V K : Type) where
  distance : K
  vertex : V
  source : V

structure Search (V K : Type) where
  dist : V → Option K
  nearest : V → Option V
  heap : List (Visit V K)

section Loop

variable {V K : Type} [DecidableEq V] [Zero K] [Add K]

/-- Takes out an entry that no other one is before. -/
def popLeast {E : Type} (before : E → E → Bool) : List E → Option (E × List E)
  | [] => none
  | e :: rest =>
    match popLeast before rest with
    | none => some (e, [])
    | some (least, others) =>
      if before least e then some (least, e :: others) else some (e, rest)

variable (less : K → K → Bool) (before : Visit V K → Visit V K → Bool) (arcs : V → List (V × K))

def reach (search : Search V K) (d : K) (v source : V) : Search V K :=
  { dist := Function.update search.dist v (some d)
    nearest := Function.update search.nearest v (some source)
    heap := search.heap ++ [{ distance := d, vertex := v, source := source }] }

def relax (visit : Visit V K) (search : Search V K) (arc : V × K) : Search V K :=
  if (search.dist arc.1).all fun held => less (visit.distance + arc.2) held then
    reach search (visit.distance + arc.2) arc.1 visit.source
  else search

def stale (search : Search V K) (visit : Visit V K) : Bool :=
  (search.dist visit.vertex).any fun held => less held visit.distance

def step (search : Search V K) : Search V K :=
  match popLeast before search.heap with
  | none => search
  | some (visit, rest) =>
    let popped := { search with heap := rest }
    if stale less search visit then popped
    else (arcs visit.vertex).foldl (relax less visit) popped

def run : ℕ → Search V K → Search V K
  | 0, search => search
  | fuel + 1, search => run fuel (step less before arcs search)

def openSource (search : Search V K) (s : V) : Search V K :=
  if (search.dist s).all fun held => less 0 held then reach search 0 s s else search

def init (sources : List V) : Search V K :=
  sources.foldl (openSource less) { dist := fun _ => none, nearest := fun _ => none, heap := [] }

end Loop

section Reach

variable {V K : Type} [DecidableEq V] (search : Search V K) (d : K) (v s w : V)

@[simp] theorem dist_reach :
    (reach search d v s).dist w = if w = v then some d else search.dist w :=
  Function.update_apply ..

@[simp] theorem nearest_reach :
    (reach search d v s).nearest w = if w = v then some s else search.nearest w :=
  Function.update_apply ..

@[simp] theorem heap_reach :
    (reach search d v s).heap =
      search.heap ++ [{ distance := d, vertex := v, source := s }] := rfl

end Reach

theorem run_empty {V K : Type} [DecidableEq V] [Zero K] [Add K] {less : K → K → Bool}
    {before : Visit V K → Visit V K → Bool} {arcs : V → List (V × K)} {search : Search V K}
    (h : search.heap = []) (fuel : ℕ) : run less before arcs fuel search = search := by
  induction fuel with
  | zero => rfl
  | succ fuel ih =>
    have hstill : step less before arcs search = search := by
      rw [step, h]
      rfl
    rw [run, hstill, ih]

/-! ### Popping -/

section Pop

variable {E : Type} {before : E → E → Bool}

theorem popLeast_eq_none {heap : List E} : popLeast before heap = none ↔ heap = [] := by
  cases heap with
  | nil => exact Iff.intro (fun _ => rfl) fun _ => rfl
  | cons e rest =>
    constructor
    · intro h
      rw [popLeast] at h
      split at h
      · exact nomatch h
      · split at h <;> exact nomatch h
    · exact fun h => nomatch h

theorem popLeast_perm {heap others : List E} {least : E}
    (h : popLeast before heap = some (least, others)) : heap.Perm (least :: others) := by
  induction heap generalizing least others with
  | nil => exact nomatch h
  | cons e rest ih =>
    rw [popLeast] at h
    split at h
    case h_1 hnone =>
      obtain ⟨rfl, rfl⟩ := Prod.mk.injEq .. |>.mp (Option.some.inj h)
      rw [popLeast_eq_none.mp hnone]
    case h_2 found remaining hfound =>
      split at h
      · obtain ⟨rfl, rfl⟩ := Prod.mk.injEq .. |>.mp (Option.some.inj h)
        exact ((ih hfound).cons e).trans (.swap ..)
      · obtain ⟨rfl, rfl⟩ := Prod.mk.injEq .. |>.mp (Option.some.inj h)
        exact .refl _

/-- The entry taken is a least one, by any measure that the order goes by. -/
theorem popLeast_le {K : Type} [LinearOrder K] (key : E → K)
    (hbefore : ∀ x y, before x y = true → key x ≤ key y)
    (hafter : ∀ x y, before x y = false → key y ≤ key x) {heap others : List E} {least : E}
    (h : popLeast before heap = some (least, others)) : ∀ x ∈ others, key least ≤ key x := by
  induction heap generalizing least others with
  | nil => exact nomatch h
  | cons e rest ih =>
    rw [popLeast] at h
    split at h
    case h_1 =>
      obtain ⟨rfl, rfl⟩ := Prod.mk.injEq .. |>.mp (Option.some.inj h)
      exact fun x hx => nomatch hx
    case h_2 found remaining hfound =>
      have hleast := ih hfound
      split at h
      case isTrue hlt =>
        obtain ⟨rfl, rfl⟩ := Prod.mk.injEq .. |>.mp (Option.some.inj h)
        intro x hx
        rcases List.mem_cons.mp hx with rfl | hx
        · exact hbefore _ _ hlt
        · exact hleast x hx
      case isFalse hge =>
        obtain ⟨rfl, rfl⟩ := Prod.mk.injEq .. |>.mp (Option.some.inj h)
        have hfirst := hafter _ _ (Bool.eq_false_iff.mpr hge)
        intro x hx
        rcases List.mem_cons.mp ((popLeast_perm hfound).subset hx) with rfl | hx
        · exact hfirst
        · exact hfirst.trans (hleast x hx)

end Pop

/-! ### What a search holds -/

section Invariant

variable {V K : Type} [DecidableEq V] [AddMonoid K] [LinearOrder K] {less : K → K → Bool} {before : Visit V K → Visit V K → Bool}
  {arcs : V → List (V × K)} {sources : List V}

def Within (dist : V → Option K) (v : V) (bound : K) : Prop := ∃ held, dist v = some held ∧ held ≤ bound

/-- An entry is a walk from a source, at least as long as the best one known. -/
structure Honest (arcs : V → List (V × K)) (sources : List V) (dist : V → Option K)
    (visit : Visit V K) : Prop where
  source : visit.source ∈ sources
  walk : Walk arcs visit.source visit.vertex visit.distance
  known : Within dist visit.vertex visit.distance

/-- Distances are those of walks from the nearest source. -/
structure Valid (arcs : V → List (V × K)) (sources : List V) (search : Search V K) : Prop where
  reached : ∀ v d, search.dist v = some d →
    ∃ s ∈ sources, search.nearest v = some s ∧ Walk arcs s v d
  unreached : ∀ v, search.dist v = none → search.nearest v = none
  entries : ∀ visit ∈ search.heap, Honest arcs sources search.dist visit
  distinct : search.heap.Pairwise fun x y => ¬ (x.vertex = y.vertex ∧ x.distance = y.distance)

def Cheaper (search : Search V K) (v : V) (d : K) : Prop := ∀ held, search.dist v = some held → d < held

omit [AddMonoid K] in
/-- Reaching a vertex more cheaply leaves everything known as well as it was. -/
theorem Within.reach {search : Search V K} {d bound : K} {v s w : V} (hcheaper : Cheaper search v d)
    (h : Within search.dist w bound) : Within (reach search d v s).dist w bound := by
  obtain ⟨held, hheld, hle⟩ := h
  by_cases hw : w = v
  · refine ⟨d, ?_, (hcheaper held (hw ▸ hheld)).le.trans hle⟩
    rw [dist_reach, if_pos hw]
  · refine ⟨held, ?_, hle⟩
    rw [dist_reach, if_neg hw, hheld]

theorem Valid.reach {search : Search V K} (h : Valid arcs sources search) {d : K} {v s : V}
    (hs : s ∈ sources) (hwalk : Walk arcs s v d) (hcheaper : Cheaper search v d) :
    Valid arcs sources (reach search d v s) where
  reached w d' hd := by
    rw [dist_reach] at hd
    rw [nearest_reach]
    split at hd
    case isTrue hw =>
      obtain rfl := Option.some.inj hd
      exact ⟨s, hs, if_pos hw, hw ▸ hwalk⟩
    case isFalse hw =>
      rw [if_neg hw]
      exact h.reached w d' hd
  unreached w hw := by
    rw [dist_reach] at hw
    rw [nearest_reach]
    split at hw
    · exact nomatch hw
    case isFalse hne =>
      rw [if_neg hne]
      exact h.unreached w hw
  entries visit hvisit := by
    rcases List.mem_append.mp hvisit with hold | hnew
    · have hhonest := h.entries visit hold
      exact { hhonest with known := hhonest.known.reach hcheaper }
    · obtain rfl := List.mem_singleton.mp hnew
      exact { source := hs, walk := hwalk, known := ⟨d, by rw [dist_reach, if_pos rfl], le_refl d⟩ }
  distinct := by
    rw [heap_reach, List.pairwise_append]
    refine ⟨h.distinct, List.pairwise_singleton .., ?_⟩
    intro x hx y hy
    obtain rfl := List.mem_singleton.mp hy
    rintro ⟨hvertex, hdistance⟩
    obtain ⟨held, hheld, hle⟩ := (h.entries x hx).known
    rw [hvertex] at hheld
    rw [hdistance] at hle
    exact absurd hle (not_le_of_gt (hcheaper held hheld))

/-- The arcs offer nothing better at `d`. -/
def Relaxed (arcs : List (V × K)) (dist : V → Option K) (d : K) : Prop :=
  ∀ arc ∈ arcs, Within dist arc.1 (d + arc.2)

def Waiting (search : Search V K) (v : V) (d : K) : Prop :=
  ∃ visit ∈ search.heap, visit.vertex = v ∧ visit.distance = d

def Overtaken (search : Search V K) (visit : Visit V K) : Prop :=
  ∃ held, search.dist visit.vertex = some held ∧ held < visit.distance

/-- Between steps: `done` are the expanded vertices, and no entry is below `floor`. The arcs of a
`current` vertex are still being relaxed. -/
structure Expanding (arcs : V → List (V × K)) (sources : List V) (current : V → Prop) (done : List V)
    (floor : K) (search : Search V K) : Prop where
  valid : Valid arcs sources search
  waiting : ∀ v d, search.dist v = some d → v ∉ done → Waiting search v d
  relaxed : ∀ v d, search.dist v = some d → v ∈ done → ¬ current v → Relaxed (arcs v) search.dist d
  above : ∀ visit ∈ search.heap, floor ≤ visit.distance
  settled : ∀ v ∈ done, Within search.dist v floor
  overtaken : ∀ visit ∈ search.heap, visit.vertex ∈ done → Overtaken search visit
  nodup : done.Nodup

variable {current : V → Prop} {done : List V} {floor : K} {search : Search V K}

omit [DecidableEq V] in
/-- An improvement is of a vertex that was not expanded. -/
theorem Expanding.notMem_of_cheaper (h : Expanding arcs sources current done floor search) {v : V} {d : K}
    (hd : floor ≤ d) (hcheaper : Cheaper search v d) : v ∉ done := by
  intro hv
  obtain ⟨held, hheld, hle⟩ := h.settled v hv
  exact absurd (hle.trans hd) (not_le_of_gt (hcheaper held hheld))

theorem Expanding.reach (h : Expanding arcs sources current done floor search) {v s : V} {d : K}
    (hs : s ∈ sources) (hwalk : Walk arcs s v d) (hd : floor ≤ d) (hcheaper : Cheaper search v d) :
    Expanding arcs sources current done floor (reach search d v s) := by
  have hv := h.notMem_of_cheaper hd hcheaper
  have hkept : ∀ w ∈ done, (ShortestPaths.reach search d v s).dist w = search.dist w := by
    intro w hw
    have hne : w ≠ v := fun heq => hv (heq ▸ hw)
    rw [dist_reach, if_neg hne]
  refine { valid := h.valid.reach hs hwalk hcheaper, waiting := ?_, relaxed := ?_,
           above := ?_, settled := ?_, overtaken := ?_, nodup := h.nodup }
  · intro w d' hd' hw
    rw [dist_reach] at hd'
    split at hd'
    case isTrue heq =>
      obtain rfl := Option.some.inj hd'
      exact ⟨_, List.mem_append_right _ (List.mem_singleton_self _), heq.symm, rfl⟩
    case isFalse =>
      obtain ⟨visit, hvisit, hsame⟩ := h.waiting w d' hd' hw
      exact ⟨visit, List.mem_append_left _ hvisit, hsame⟩
  · intro w d' hd' hw hcurrent arc harc
    rw [hkept w hw] at hd'
    exact (h.relaxed w d' hd' hw hcurrent arc harc).reach hcheaper
  · intro visit hvisit
    rcases List.mem_append.mp hvisit with hold | hnew
    · exact h.above visit hold
    · obtain rfl := List.mem_singleton.mp hnew
      exact hd
  · exact fun w hw => (h.settled w hw).reach hcheaper
  · intro visit hvisit hdone
    rcases List.mem_append.mp hvisit with hold | hnew
    · obtain ⟨held, hheld, hlt⟩ := h.overtaken visit hold hdone
      exact ⟨held, (hkept _ hdone).trans hheld, hlt⟩
    · obtain rfl := List.mem_singleton.mp hnew
      exact absurd hdone hv

/-! ### Relaxing -/

omit [DecidableEq V] in
theorem Valid.popped {visit : Visit V K} {rest : List (Visit V K)} (h : Valid arcs sources search)
    (hperm : search.heap.Perm (visit :: rest)) : Valid arcs sources { search with heap := rest } where
  reached := h.reached
  unreached := h.unreached
  entries other hother := h.entries other (hperm.symm.subset (List.mem_cons_of_mem _ hother))
  distinct := by
    have hsymm : ∀ {x y : Visit V K}, ¬ (x.vertex = y.vertex ∧ x.distance = y.distance) →
        ¬ (y.vertex = x.vertex ∧ y.distance = x.distance) :=
      fun {_ _} hne heq => hne ⟨heq.1.symm, heq.2.symm⟩
    exact (List.pairwise_cons.mp (hperm.pairwise h.distinct hsymm)).2

section Relax

variable (hless : ∀ a b, less a b = true ↔ a < b)

include hless

omit [DecidableEq V] [AddMonoid K] in
theorem cheaper_of_all {v : V} {d : K} (h : ((search.dist v).all fun held => less d held) = true) :
    Cheaper search v d := by
  intro held hheld
  rw [hheld, Option.all_some] at h
  exact (hless _ _).mp h

omit [DecidableEq V] [AddMonoid K] in
theorem within_of_not_all {v : V} {d : K}
    (h : ¬ ((search.dist v).all fun held => less d held) = true) : Within search.dist v d := by
  cases hheld : search.dist v with
  | none =>
    rw [hheld] at h
    exact absurd rfl h
  | some held =>
    rw [hheld, Option.all_some, hless] at h
    exact ⟨held, hheld, not_lt.mp h⟩

omit [DecidableEq V] in
theorem stale_iff {visit : Visit V K} : stale less search visit = true ↔ Overtaken search visit := by
  rw [stale, Overtaken]
  cases search.dist visit.vertex with
  | none => simp
  | some held => simp [hless]

variable [AddLeftMono K]

/-- Relaxing arcs of an expanded vertex. -/
theorem Expanding.relaxAll {visit : Visit V K} (todo : List (V × K))
    (h : Expanding arcs sources current done visit.distance search) (hsource : visit.source ∈ sources)
    (hwalk : Walk arcs visit.source visit.vertex visit.distance)
    (htodo : ∀ arc ∈ todo, arc ∈ arcs visit.vertex ∧ 0 ≤ arc.2) :
    Expanding arcs sources current done visit.distance (todo.foldl (relax less visit) search) ∧
      Relaxed todo (todo.foldl (relax less visit) search).dist visit.distance ∧
      (∀ v bound, Within search.dist v bound →
        Within (todo.foldl (relax less visit) search).dist v bound) ∧
      (∀ v ∈ done, (todo.foldl (relax less visit) search).dist v = search.dist v) ∧
      (todo.foldl (relax less visit) search).heap.length ≤ search.heap.length + todo.length := by
  induction todo generalizing search with
  | nil =>
    refine ⟨h, ?_, fun _ _ hin => hin, fun _ _ => rfl, Nat.le_refl _⟩
    exact fun _ harc => absurd harc List.not_mem_nil
  | cons arc rest ih =>
    obtain ⟨harc, hnonneg⟩ := htodo arc List.mem_cons_self
    have hrest : ∀ arc ∈ rest, arc ∈ arcs visit.vertex ∧ 0 ≤ arc.2 :=
      fun other hother => htodo other (List.mem_cons_of_mem _ hother)
    have hstep : ∃ next, relax less visit search arc = next ∧
        Expanding arcs sources current done visit.distance next ∧
        Within next.dist arc.1 (visit.distance + arc.2) ∧
        (∀ v bound, Within search.dist v bound → Within next.dist v bound) ∧
        (∀ v ∈ done, next.dist v = search.dist v) ∧
        next.heap.length ≤ search.heap.length + 1 := by
      refine ⟨_, rfl, ?_⟩
      unfold relax
      split
      case isTrue hall =>
        have hcheaper := cheaper_of_all hless hall
        have hfloor : visit.distance ≤ visit.distance + arc.2 := le_add_of_nonneg_right hnonneg
        have hnew := h.notMem_of_cheaper hfloor hcheaper
        refine ⟨h.reach hsource (hwalk.snoc harc) hfloor hcheaper, ?_, ?_, ?_, ?_⟩
        · exact ⟨_, by rw [dist_reach, if_pos rfl], le_refl _⟩
        · exact fun v bound hin => hin.reach hcheaper
        · intro v hv
          have hne : v ≠ arc.1 := fun heq => hnew (heq ▸ hv)
          rw [dist_reach, if_neg hne]
        · rw [heap_reach, List.length_append, List.length_singleton]
      case isFalse hall =>
        exact ⟨h, within_of_not_all hless hall, fun _ _ hin => hin, fun _ _ => rfl, Nat.le_succ _⟩
    obtain ⟨next, hnext, hexpanding, hwithin, hkeep, hdone, hlength⟩ := hstep
    obtain ⟨hlast, hrelaxed, hkeep', hdone', hlength'⟩ := ih hexpanding hrest
    rw [List.foldl_cons, hnext]
    refine ⟨hlast, ?_, ?_, ?_, ?_⟩
    · intro other hother
      rcases List.mem_cons.mp hother with rfl | hother
      · exact hkeep' _ _ hwithin
      · exact hrelaxed other hother
    · exact fun v bound hin => hkeep' v bound (hkeep v bound hin)
    · exact fun v hv => (hdone' v hv).trans (hdone v hv)
    · rw [List.length_cons]
      omega

/-! ### Steps -/

variable (hbefore : ∀ x y : Visit V K, before x y = true → x.distance ≤ y.distance)
  (hafter : ∀ x y : Visit V K, before x y = false → y.distance ≤ x.distance)

include hbefore hafter

omit [DecidableEq V] [AddLeftMono K] hless in
/-- An entry that was overtaken goes, and nothing else changes. -/
theorem Expanding.popStale {visit : Visit V K} {rest : List (Visit V K)}
    (h : Expanding arcs sources (fun _ => False) done floor search)
    (hpop : popLeast before search.heap = some (visit, rest)) (hstale : Overtaken search visit) :
    Expanding arcs sources (fun _ => False) done visit.distance { search with heap := rest } := by
  have hperm := popLeast_perm hpop
  have hleast := popLeast_le Visit.distance hbefore hafter hpop
  have hrest : ∀ {other}, other ∈ rest → other ∈ search.heap :=
    fun hother => hperm.symm.subset (List.mem_cons_of_mem _ hother)
  have hfloor := h.above visit (hperm.symm.subset List.mem_cons_self)
  refine { valid := h.valid.popped hperm, waiting := ?_, relaxed := h.relaxed,
           above := hleast, settled := ?_, overtaken := fun other hother => h.overtaken other (hrest hother),
           nodup := h.nodup }
  · intro v d hd hv
    obtain ⟨other, hother, hvertex, hdistance⟩ := h.waiting v d hd hv
    rcases List.mem_cons.mp (hperm.subset hother) with rfl | hother
    · obtain ⟨held, hheld, hlt⟩ := hstale
      rw [hvertex, hd] at hheld
      obtain rfl := Option.some.inj hheld
      exact absurd hdistance hlt.ne'
    · exact ⟨other, hother, hvertex, hdistance⟩
  · intro v hv
    obtain ⟨held, hheld, hle⟩ := h.settled v hv
    exact ⟨held, hheld, hle.trans hfloor⟩

omit [DecidableEq V] [AddLeftMono K] hless in
/-- A vertex is expanded at the least distance left. -/
theorem Expanding.popFresh {visit : Visit V K} {rest : List (Visit V K)}
    (h : Expanding arcs sources (fun _ => False) done floor search)
    (hpop : popLeast before search.heap = some (visit, rest)) (hfresh : ¬ Overtaken search visit) :
    search.dist visit.vertex = some visit.distance ∧
      Expanding arcs sources (fun v => v = visit.vertex) (visit.vertex :: done) visit.distance
        { search with heap := rest } := by
  have hperm := popLeast_perm hpop
  have hleast := popLeast_le Visit.distance hbefore hafter hpop
  have hvisit : visit ∈ search.heap := hperm.symm.subset List.mem_cons_self
  have hrest : ∀ {other}, other ∈ rest → other ∈ search.heap :=
    fun hother => hperm.symm.subset (List.mem_cons_of_mem _ hother)
  have hfloor := h.above visit hvisit
  have hdist : search.dist visit.vertex = some visit.distance := by
    obtain ⟨held, hheld, hle⟩ := (h.valid.entries visit hvisit).known
    rcases hle.lt_or_eq with hlt | rfl
    · exact absurd ⟨held, hheld, hlt⟩ hfresh
    · exact hheld
  have hnew : visit.vertex ∉ done := fun hdone => hfresh (h.overtaken visit hvisit hdone)
  have hdistinct : ∀ other ∈ rest, ¬ (visit.vertex = other.vertex ∧ visit.distance = other.distance) := by
    have hsymm : ∀ {x y : Visit V K}, ¬ (x.vertex = y.vertex ∧ x.distance = y.distance) →
        ¬ (y.vertex = x.vertex ∧ y.distance = x.distance) :=
      fun {_ _} hne heq => hne ⟨heq.1.symm, heq.2.symm⟩
    exact (List.pairwise_cons.mp (hperm.pairwise h.valid.distinct hsymm)).1
  refine ⟨hdist, ?_⟩
  refine { valid := h.valid.popped hperm, waiting := ?_, relaxed := ?_,
           above := hleast, settled := ?_, overtaken := ?_, nodup := h.nodup.cons hnew }
  · intro v d hd hv
    rw [List.mem_cons, not_or] at hv
    obtain ⟨other, hother, hvertex, hdistance⟩ := h.waiting v d hd hv.2
    rcases List.mem_cons.mp (hperm.subset hother) with rfl | hother
    · exact absurd hvertex.symm hv.1
    · exact ⟨other, hother, hvertex, hdistance⟩
  · intro v d hd hv hcurrent
    exact h.relaxed v d hd ((List.mem_cons.mp hv).resolve_left hcurrent) not_false
  · intro v hv
    rcases List.mem_cons.mp hv with rfl | hv
    · exact ⟨_, hdist, le_refl _⟩
    · obtain ⟨held, hheld, hle⟩ := h.settled v hv
      exact ⟨held, hheld, hle.trans hfloor⟩
  · intro other hother hdone
    rcases List.mem_cons.mp hdone with heq | hdone
    · refine ⟨visit.distance, heq ▸ hdist, lt_of_le_of_ne (hleast other hother) ?_⟩
      exact fun hsame => hdistinct other hother ⟨heq.symm, hsame⟩
    · exact h.overtaken other (hrest hother) hdone

variable (hnonneg : ∀ v, ∀ arc ∈ arcs v, 0 ≤ arc.2)

def spent (arcs : V → List (V × K)) (done : List V) : ℕ := (done.map fun v => (arcs v).length).sum

include hnonneg

/-- One step takes an entry out, and puts in at most one for each arc of the vertex it expands. -/
theorem Expanding.step (h : Expanding arcs sources (fun _ => False) done floor search)
    (hheap : search.heap ≠ []) :
    (∃ done' floor', Expanding arcs sources (fun _ => False) done' floor' (step less before arcs search) ∧
      (step less before arcs search).heap.length + 1 + spent arcs done ≤
        search.heap.length + spent arcs done') ∧
      ∀ v bound, Within search.dist v bound → Within (step less before arcs search).dist v bound := by
  unfold ShortestPaths.step
  split
  case h_1 hnone => exact absurd (popLeast_eq_none.mp hnone) hheap
  case h_2 visit rest hpop =>
    have hlength := (popLeast_perm hpop).length_eq
    rw [List.length_cons] at hlength
    simp only
    split
    case isTrue hstale =>
      refine ⟨⟨done, visit.distance,
        h.popStale hbefore hafter hpop ((stale_iff hless).mp hstale), ?_⟩, fun _ _ hin => hin⟩
      dsimp only
      omega
    case isFalse hfresh =>
      obtain ⟨hdist, hpopped⟩ := h.popFresh hbefore hafter hpop (fun hover =>
        hfresh ((stale_iff hless).mpr hover))
      have hhonest := h.valid.entries visit ((popLeast_perm hpop).symm.subset List.mem_cons_self)
      obtain ⟨hlast, hrelaxed, hkeep, hdone, hgrown⟩ := hpopped.relaxAll hless (arcs visit.vertex)
        hhonest.source hhonest.walk fun arc harc => ⟨harc, hnonneg _ arc harc⟩
      refine ⟨⟨visit.vertex :: done, visit.distance, { hlast with relaxed := ?_ }, ?_⟩, hkeep⟩
      · intro v d hd hv _
        by_cases heq : v = visit.vertex
        · rw [heq, hdone _ List.mem_cons_self] at hd
          obtain rfl := Option.some.inj (hdist.symm.trans hd)
          rw [heq]
          exact hrelaxed
        · exact hlast.relaxed v d hd hv heq
      · simp only [spent, List.map_cons, List.sum_cons] at hgrown ⊢
        omega

/-- With enough steps the heap runs empty. -/
theorem Expanding.run {total : ℕ} (htotal : ∀ done : List V, done.Nodup → spent arcs done ≤ total)
    (fuel : ℕ) (h : Expanding arcs sources (fun _ => False) done floor search)
    (hfuel : search.heap.length + total ≤ fuel + spent arcs done) :
    (∃ done' floor',
      Expanding arcs sources (fun _ => False) done' floor' (run less before arcs fuel search)) ∧
      (run less before arcs fuel search).heap = [] ∧
      ∀ v bound, Within search.dist v bound →
        Within (run less before arcs fuel search).dist v bound := by
  induction fuel generalizing search done floor with
  | zero =>
    have hspent := htotal done h.nodup
    refine ⟨⟨done, floor, h⟩, ?_, fun _ _ hin => hin⟩
    apply List.eq_nil_of_length_eq_zero
    change search.heap.length = 0
    omega
  | succ fuel ih =>
    rw [ShortestPaths.run]
    by_cases hheap : search.heap = []
    · have hstill : ShortestPaths.step less before arcs search = search := by
        rw [ShortestPaths.step, hheap]
        rfl
      rw [hstill, run_empty hheap]
      exact ⟨⟨done, floor, h⟩, hheap, fun _ _ hin => hin⟩
    · obtain ⟨⟨done', floor', hnext, hgrown⟩, hkeep⟩ := h.step hless hbefore hafter hnonneg hheap
      obtain ⟨hlast, hempty, hkeep'⟩ := ih hnext (by omega)
      exact ⟨hlast, hempty, fun v bound hin => hkeep' v bound (hkeep v bound hin)⟩

omit hbefore hafter hnonneg [AddLeftMono K] in
/-- The sources are at distance zero from themselves. -/
theorem Expanding.openAll (todo : List V) (h : Expanding arcs sources (fun _ => False) [] 0 search)
    (htodo : ∀ s ∈ todo, s ∈ sources) :
    Expanding arcs sources (fun _ => False) [] 0 (todo.foldl (openSource less) search) ∧
      (∀ s ∈ todo, Within (todo.foldl (openSource less) search).dist s 0) ∧
      (∀ v bound, Within search.dist v bound →
        Within (todo.foldl (openSource less) search).dist v bound) ∧
      (todo.foldl (openSource less) search).heap.length ≤ search.heap.length + todo.length := by
  induction todo generalizing search with
  | nil => exact ⟨h, fun _ hs => absurd hs List.not_mem_nil, fun _ _ hin => hin, Nat.le_refl _⟩
  | cons s rest ih =>
    have hs := htodo s List.mem_cons_self
    have hstep : ∃ next, openSource less search s = next ∧
        Expanding arcs sources (fun _ => False) [] 0 next ∧ Within next.dist s 0 ∧
        (∀ v bound, Within search.dist v bound → Within next.dist v bound) ∧
        next.heap.length ≤ search.heap.length + 1 := by
      refine ⟨_, rfl, ?_⟩
      unfold openSource
      split
      case isTrue hall =>
        have hcheaper := cheaper_of_all hless hall
        refine ⟨h.reach hs (.start s) (le_refl 0) hcheaper, ?_, ?_, ?_⟩
        · exact ⟨0, by rw [dist_reach, if_pos rfl], le_refl 0⟩
        · exact fun v bound hin => hin.reach hcheaper
        · rw [heap_reach, List.length_append, List.length_singleton]
      case isFalse hall =>
        exact ⟨h, within_of_not_all hless hall, fun _ _ hin => hin, Nat.le_succ _⟩
    obtain ⟨next, hnext, hopened, hwithin, hkeep, hlength⟩ := hstep
    obtain ⟨hlast, hall, hkeep', hlength'⟩ :=
      ih hopened fun other hother => htodo other (List.mem_cons_of_mem _ hother)
    rw [List.foldl_cons, hnext]
    refine ⟨hlast, ?_, fun v bound hin => hkeep' v bound (hkeep v bound hin), ?_⟩
    · intro other hother
      rcases List.mem_cons.mp hother with rfl | hother
      · exact hkeep' _ _ hwithin
      · exact hall other hother
    · rw [List.length_cons]
      omega

variable [AddRightMono K]

omit hless hbefore hafter hnonneg [AddLeftMono K] in
/-- Walks are no shorter than the distances of an exhausted search. -/
theorem Expanding.le_of_walk (h : Expanding arcs sources (fun _ => False) done floor search)
    (hheap : search.heap = []) {s v : V} {d : K} (hs : Within search.dist s 0)
    (hwalk : Walk arcs s v d) : Within search.dist v d := by
  induction hwalk with
  | start => exact hs
  | @snoc u w d k _ harc ih =>
    obtain ⟨held, hheld, hle⟩ := ih
    have hdone : u ∈ done := by
      by_contra hnot
      obtain ⟨visit, hvisit, -⟩ := h.waiting u held hheld hnot
      rw [hheap] at hvisit
      exact absurd hvisit List.not_mem_nil
    obtain ⟨reached, hreached, hshort⟩ := h.relaxed u held hheld hdone not_false (w, k) harc
    exact ⟨reached, hreached, hshort.trans (add_le_add_left hle k)⟩

/-- The distances are those of the shortest walks from the sources, and the nearest source has one. -/
structure Exact (arcs : V → List (V × K)) (sources : List V) (dist : V → Option K)
    (nearest : V → Option V) : Prop where
  attained : ∀ v d, dist v = some d → ∃ s ∈ sources, nearest v = some s ∧ Walk arcs s v d
  least : ∀ s ∈ sources, ∀ v d, Walk arcs s v d → Within dist v d
  unreached : ∀ v, dist v = none → nearest v = none

/-- With as many steps as sources and arcs the search is over, and exact. -/
theorem run_exact {total : ℕ} (htotal : ∀ done : List V, done.Nodup → spent arcs done ≤ total)
    (fuel : ℕ) (hfuel : sources.length + total ≤ fuel) :
    (run less before arcs fuel (init less sources)).heap = [] ∧
      Exact arcs sources (run less before arcs fuel (init less sources)).dist
        (run less before arcs fuel (init less sources)).nearest := by
  have hempty : Expanding arcs sources (fun _ => False) [] 0
      ({ dist := fun _ => none, nearest := fun _ => none, heap := [] } : Search V K) :=
    { valid :=
        { reached := fun _ _ h => (nomatch h)
          unreached := fun _ _ => rfl
          entries := fun _ h => absurd h List.not_mem_nil
          distinct := .nil }
      waiting := fun _ _ h => nomatch h
      relaxed := fun _ _ h => nomatch h
      above := fun _ h => absurd h List.not_mem_nil
      settled := fun _ h => absurd h List.not_mem_nil
      overtaken := fun _ h => absurd h List.not_mem_nil
      nodup := .nil }
  obtain ⟨hinit, hseeded, -, hlength⟩ := hempty.openAll hless sources fun _ hs => hs
  change (init less sources).heap.length ≤ 0 + sources.length at hlength
  have hsteps : (init less sources).heap.length + total ≤ fuel + spent arcs [] := by omega
  obtain ⟨⟨done, floor, hlast⟩, hheap, hkeep⟩ :=
    hinit.run hless hbefore hafter hnonneg htotal fuel hsteps
  refine ⟨hheap, hlast.valid.reached, ?_, hlast.valid.unreached⟩
  intro s hs v d hwalk
  exact hlast.le_of_walk hheap (hkeep s 0 (hseeded s hs)) hwalk

end Relax

end Invariant

end ShortestPaths
