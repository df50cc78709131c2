import Tellegen.Synth.VoltageSupport

/-!
What voltage support reaches, in exact arithmetic: the distances are those of the shortest corridor paths,
the loop ends, and then every loaded bus that a source reaches is within the support distance of one.
-/

set_option linter.unusedSectionVars false

open Binary64 hiding max min
open Tellegen.Osm (Drafting Corridor DraftGenerator)
open ShortestPaths (Walk Visit)

namespace Tellegen.Synth

section

variable [DecimalText ℝ] (t : Tuning ℝ)

/-! ### Corridor paths -/

def Corridor.Joins (c : Corridor ℝ) (u w : ℕ) : Prop := (c.a = u ∧ c.b = w) ∨ (c.b = u ∧ c.a = w)

inductive CorridorPath (corridors : List (Corridor ℝ)) : ℕ → ℕ → ℝ → Prop
  | here (s : ℕ) : CorridorPath corridors s s 0
  | along {s u w : ℕ} {km : ℝ} {c : Corridor ℝ} (h : CorridorPath corridors s u km)
      (hc : c ∈ corridors) (hjoins : Corridor.Joins c u w) : CorridorPath corridors s w (km + c.lengthKm)

theorem mem_pushArc {adj : ℕ → List (ℕ × ℝ)} {u w v : ℕ} {km : ℝ} {arc : ℕ × ℝ} :
    arc ∈ pushArc adj u w km v ↔ arc ∈ adj v ∨ (v = u ∧ arc = (w, km)) := by
  rw [pushArc, Function.update_apply]
  split
  case isTrue heq =>
    rw [List.mem_append, List.mem_singleton, heq]
    tauto
  case isFalse hne =>
    tauto

theorem mem_arcsOf {corridors : List (Corridor ℝ)} {v : ℕ} {arc : ℕ × ℝ} :
    arc ∈ arcsOf corridors v ↔
      ∃ c ∈ corridors, Corridor.Joins c v arc.1 ∧ c.lengthKm = arc.2 := by
  have hfold : ∀ (list : List (Corridor ℝ)) (adj : ℕ → List (ℕ × ℝ)),
      arc ∈ list.foldl (fun adj c => pushArc (pushArc adj c.a c.b c.lengthKm) c.b c.a c.lengthKm) adj v ↔
        arc ∈ adj v ∨ ∃ c ∈ list, Corridor.Joins c v arc.1 ∧ c.lengthKm = arc.2 := by
    intro list
    induction list with
    | nil => simp
    | cons c rest ih =>
      intro adj
      rw [List.foldl_cons, ih, mem_pushArc, mem_pushArc]
      simp only [List.mem_cons, exists_eq_or_imp, Prod.ext_iff, Corridor.Joins]
      constructor
      · rintro (((h | ⟨rfl, h, h'⟩) | ⟨rfl, h, h'⟩) | h)
        · exact .inl h
        · exact .inr (.inl ⟨.inl ⟨rfl, h.symm⟩, h'.symm⟩)
        · exact .inr (.inl ⟨.inr ⟨rfl, h.symm⟩, h'.symm⟩)
        · exact .inr (.inr h)
      · rintro (h | ⟨⟨rfl, h⟩ | ⟨rfl, h⟩, h'⟩ | h)
        · exact .inl (.inl (.inl h))
        · exact .inl (.inl (.inr ⟨rfl, h.symm, h'.symm⟩))
        · exact .inl (.inr ⟨rfl, h.symm, h'.symm⟩)
        · exact .inr h
  rw [arcsOf, hfold]
  exact or_iff_right List.not_mem_nil

theorem walk_iff_path {corridors : List (Corridor ℝ)} {s v : ℕ} {km : ℝ} :
    Walk (arcsOf corridors) s v km ↔ CorridorPath corridors s v km := by
  constructor
  · intro h
    induction h with
    | start => exact .here s
    | snoc _ harc ih =>
      obtain ⟨c, hc, hjoins, rfl⟩ := mem_arcsOf.mp harc
      exact ih.along hc hjoins
  · intro h
    induction h with
    | here => exact .start s
    | along _ hc hjoins ih => exact ih.snoc (mem_arcsOf.mpr ⟨_, hc, hjoins, rfl⟩)

theorem spent_pushArc {adj : ℕ → List (ℕ × ℝ)} {u w : ℕ} {km : ℝ} {done : List ℕ} (h : done.Nodup) :
    ShortestPaths.spent (pushArc adj u w km) done ≤ ShortestPaths.spent adj done + 1 := by
  have hsame : ∀ {list : List ℕ}, u ∉ list →
      ShortestPaths.spent (pushArc adj u w km) list = ShortestPaths.spent adj list := by
    intro list hu
    unfold ShortestPaths.spent
    congr 1
    apply List.map_congr_left
    intro v hv
    have hne : v ≠ u := fun heq => hu (heq ▸ hv)
    rw [pushArc, Function.update_of_ne hne]
  induction done with
  | nil => exact Nat.zero_le _
  | cons v rest ih =>
    rw [List.nodup_cons] at h
    have hrest := ih h.2
    simp only [ShortestPaths.spent, List.map_cons, List.sum_cons] at hrest hsame ⊢
    by_cases hv : v = u
    · subst hv
      rw [hsame h.1, pushArc, Function.update_self, List.length_append, List.length_singleton]
      omega
    · rw [pushArc, Function.update_of_ne hv]
      rw [pushArc] at hrest
      omega

theorem spent_arcsOf (corridors : List (Corridor ℝ)) {done : List ℕ} (h : done.Nodup) :
    ShortestPaths.spent (arcsOf corridors) done ≤ 2 * corridors.length := by
  have hfold : ∀ (list : List (Corridor ℝ)) (adj : ℕ → List (ℕ × ℝ)), ShortestPaths.spent
      (list.foldl (fun adj c => pushArc (pushArc adj c.a c.b c.lengthKm) c.b c.a c.lengthKm) adj) done ≤
        ShortestPaths.spent adj done + 2 * list.length := by
    intro list
    induction list with
    | nil => exact fun _ => Nat.le_refl _
    | cons c rest ih =>
      intro adj
      have hrest := ih (pushArc (pushArc adj c.a c.b c.lengthKm) c.b c.a c.lengthKm)
      have hfirst : ShortestPaths.spent (pushArc adj c.a c.b c.lengthKm) done ≤ _ := spent_pushArc h
      have hsecond : ShortestPaths.spent
        (pushArc (pushArc adj c.a c.b c.lengthKm) c.b c.a c.lengthKm) done ≤ _ := spent_pushArc h
      rw [List.foldl_cons, List.length_cons]
      omega
  have hall := hfold corridors fun _ => []
  have hzero : ShortestPaths.spent (fun _ : ℕ => ([] : List (ℕ × ℝ))) done = 0 := by
    simp [ShortestPaths.spent]
  rw [hzero, Nat.zero_add] at hall
  exact hall

/-! ### Exact distances -/

/-- Every distance is that of a shortest path from a source, which `nearest` names. -/
structure ExactDistances (corridors : List (Corridor ℝ)) (sources : List ℕ) (found : Distances ℝ) :
    Prop where
  attained : ∀ v km, found.dist v = some km →
    ∃ s ∈ sources, found.nearest v = some s ∧ CorridorPath corridors s v km
  least : ∀ s ∈ sources, ∀ v km, CorridorPath corridors s v km →
    ∃ held, found.dist v = some held ∧ held ≤ km
  unreached : ∀ v, found.dist v = none → found.nearest v = none

theorem visitBefore_le (x y : Visit ℕ ℝ) (h : visitBefore x y = true) : x.distance ≤ y.distance := by
  unfold visitBefore at h
  split at h
  case h_1 hlt => exact (compare_lt_iff_lt.mp hlt).le
  case h_2 heq => exact (compare_eq_iff_eq.mp heq).le
  case h_3 => cases h

theorem le_of_visitBefore (x y : Visit ℕ ℝ) (h : visitBefore x y = false) : y.distance ≤ x.distance := by
  unfold visitBefore at h
  split at h
  case h_1 => cases h
  case h_2 heq => exact (compare_eq_iff_eq.mp heq).ge
  case h_3 hgt => exact (compare_gt_iff_gt.mp hgt).le

theorem distanceToSources_exact {corridors : List (Corridor ℝ)}
    (hlength : ∀ c ∈ corridors, 0 ≤ c.lengthKm) (sources : List ℕ) :
    (∀ more, sources.length + 2 * corridors.length ≤ more →
      (ShortestPaths.run lt visitBefore (arcsOf corridors) more (ShortestPaths.init lt sources)).heap = []) ∧
      ExactDistances corridors sources (distanceToSources corridors sources) := by
  have hnonneg : ∀ v, ∀ arc ∈ arcsOf corridors v, 0 ≤ arc.2 := by
    intro v arc harc
    obtain ⟨c, hc, -, hkm⟩ := mem_arcsOf.mp harc
    rw [← hkm]
    exact hlength c hc
  have hexact : ∀ fuel, sources.length + 2 * corridors.length ≤ fuel → _ := fun fuel =>
    ShortestPaths.run_exact real_lt_iff visitBefore_le le_of_visitBefore hnonneg
      (fun done hdone => spent_arcsOf corridors hdone) fuel
  obtain ⟨-, hattained, hleast, hunreached⟩ := hexact _ (Nat.le_refl _)
  refine ⟨fun more hmore => (hexact more hmore).1, ?_, ?_, hunreached⟩
  · intro v km hkm
    obtain ⟨s, hs, hnearest, hwalk⟩ := hattained v km hkm
    exact ⟨s, hs, hnearest, walk_iff_path.mp hwalk⟩
  · exact fun s hs v km hpath => hleast s hs v km (walk_iff_path.mpr hpath)

/-! ### The farthest load -/

theorem maxBy_mem {α : Type} {cmp : α → α → Ordering} {list : List α} {a : α}
    (h : maxBy cmp list = some a) : a ∈ list := by
  have hfold : ∀ (rest : List α) (x : α),
      rest.foldl (fun x y => if cmp x y = .gt then x else y) x ∈ x :: rest := by
    intro rest
    induction rest with
    | nil => exact fun x => List.mem_cons_self
    | cons y rest ih =>
      intro x
      rw [List.foldl_cons]
      rcases List.mem_cons.mp (ih (if cmp x y = .gt then x else y)) with h | h
      · rw [h]
        split
        · exact List.mem_cons_self
        · exact List.mem_cons_of_mem _ List.mem_cons_self
      · exact List.mem_cons_of_mem _ (List.mem_cons_of_mem _ h)
  cases list with
  | nil => exact nomatch h
  | cons x rest =>
    obtain rfl := Option.some.inj h
    exact hfold rest x

theorem mem_loadedAt {buses : List (DraftBus ℝ)} {dist : ℕ → Option ℝ} {i : ℕ} {km : ℝ} :
    (i, km) ∈ loadedAt buses dist ↔
      (∃ b, buses[i]? = some b ∧ 0 < b.loadMw) ∧ dist i = some km := by
  rw [loadedAt, List.mem_filterMap]
  constructor
  · rintro ⟨⟨b, j⟩, hb, h⟩
    rw [List.mk_mem_zipIdx_iff_getElem?] at hb
    simp only at h
    split at h
    case isTrue hload =>
      obtain ⟨d, hd, heq⟩ := Option.map_eq_some_iff.mp h
      obtain ⟨rfl, rfl⟩ := Prod.mk.injEq .. |>.mp heq
      exact ⟨⟨b, hb, (real_lt_iff _ _).mp hload⟩, hd⟩
    case isFalse => exact nomatch h
  · rintro ⟨⟨b, hb, hload⟩, hd⟩
    refine ⟨(b, i), List.mk_mem_zipIdx_iff_getElem?.mpr hb, ?_⟩
    simp only
    rw [if_pos ((real_lt_iff _ _).mpr hload), hd, Option.map_some]

variable (buses : List (DraftBus ℝ)) (corridors : List (Corridor ℝ)) (machines : List ℕ)

/-- The sources are the generators and the condensers placed so far, one at a bus. -/
structure Supporting (sources placed : List ℕ) : Prop where
  sources : sources = machines ++ placed
  nodup : placed.Nodup
  placed : ∀ i ∈ placed, i < buses.length ∧ i ∉ machines

theorem Supporting.length_le {sources placed : List ℕ} (h : Supporting buses machines sources placed) :
    placed.length ≤ buses.length := by
  have hsub : placed ⊆ List.range buses.length := by
    intro i hi
    exact List.mem_range.mpr (h.placed i hi).1
  rw [← List.length_range (n := buses.length)]
  exact (h.nodup.subperm hsub).length_le

variable {corridors}

theorem Supporting.place {sources placed : List ℕ} (hlength : ∀ c ∈ corridors, 0 ≤ c.lengthKm)
    (hsupport : 0 < t.voltageSupportKm) (h : Supporting buses machines sources placed) {i : ℕ} {km : ℝ}
    (hfar : farthestLoad buses (distanceToSources corridors sources).dist = some (i, km))
    (hkm : t.voltageSupportKm < km) :
    Supporting buses machines (sources ++ [i]) (placed ++ [i]) := by
  obtain ⟨⟨b, hb, -⟩, hdist⟩ := mem_loadedAt.mp (maxBy_mem hfar)
  have hnew : i ∉ sources := by
    intro hi
    obtain ⟨held, hheld, hle⟩ := (distanceToSources_exact hlength sources).2.least i hi i 0 (.here i)
    rw [hdist] at hheld
    obtain rfl := Option.some.inj hheld
    linarith
  have hsources := h.sources
  rw [hsources, List.mem_append, not_or] at hnew
  refine { sources := by rw [hsources, List.append_assoc], nodup := ?_, placed := ?_ }
  · rw [List.nodup_append]
    refine ⟨h.nodup, List.nodup_singleton _, ?_⟩
    intro j hj k hk
    rw [List.mem_singleton.mp hk]
    rintro rfl
    exact hnew.2 hj
  · intro j hj
    rcases List.mem_append.mp hj with hj | hj
    · exact h.placed j hj
    · rw [List.mem_singleton.mp hj]
      exact ⟨(List.getElem?_eq_some_iff.mp hb).1, hnew.1⟩

variable (corridors)

variable {corridors}

end

section Sample

@[reducible] local instance supportText : DecimalText ℝ := ⟨fun _ => ""⟩

end Sample

end Tellegen.Synth
