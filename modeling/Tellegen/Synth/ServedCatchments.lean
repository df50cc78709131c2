import Tellegen.Synth.Catchments

/-!
Catchments in exact arithmetic: stopping the ring search early loses no nearer member, the loads of a level
add up to the loads that hang off it, and a site keeps its load on its lowest bus.
-/

set_option linter.unusedSectionVars false

open Binary64 hiding max min

namespace Tellegen.Synth

section

variable [DecimalText ℝ]

/-! ### Cells and distances -/

theorem floor_real (x : ℝ) : (Binary64.floor x : ℝ) = ⌊x⌋ := rfl

theorem asUsize_real (x : ℝ) : Planning.asUsize x = Nat.min (2 ^ 64 - 1) ⌊x⌋₊ := rfl

/-- Coordinates whose cells are more than `ring` apart are more than `ring` cells apart. -/
theorem lt_sub_of_cellAlong {cell : ℝ} (hcell : 0 < cell) (origin : ℝ) (count ring : ℕ) (x y : ℝ)
    (h : cellAlong origin cell count x + ring < cellAlong origin cell count y) :
    ring * cell < y - x := by
  set fx := (x - origin) / cell with hfx
  set fy := (y - origin) / cell with hfy
  have hx : cellAlong origin cell count x = Nat.min (Nat.min (2 ^ 64 - 1) ⌊max (⌊fx⌋ : ℝ) 0⌋₊) (count - 1) := by
    rw [cellAlong, max_real, floor_real, asUsize_real]
  have hy : cellAlong origin cell count y = Nat.min (Nat.min (2 ^ 64 - 1) ⌊max (⌊fy⌋ : ℝ) 0⌋₊) (count - 1) := by
    rw [cellAlong, max_real, floor_real, asUsize_real]
  -- the lower cell is not cut off, and the higher one is no higher than its coordinate
  have hlow : ⌊max (⌊fx⌋ : ℝ) 0⌋₊ = cellAlong origin cell count x := by
    rw [hx]
    rw [hx, hy] at h
    have h1 := Nat.min_le_left (Nat.min (2 ^ 64 - 1) ⌊max (⌊fy⌋ : ℝ) 0⌋₊) (count - 1)
    have h2 := Nat.min_le_right (Nat.min (2 ^ 64 - 1) ⌊max (⌊fy⌋ : ℝ) 0⌋₊) (count - 1)
    have h3 := Nat.min_le_left (2 ^ 64 - 1) ⌊max (⌊fy⌋ : ℝ) 0⌋₊
    simp only [Nat.min_def] at h h1 h2 h3 ⊢
    split_ifs at h h1 h2 h3 ⊢ <;> omega
  have hhigh : cellAlong origin cell count y ≤ ⌊max (⌊fy⌋ : ℝ) 0⌋₊ := by
    rw [hy]
    exact (Nat.min_le_left _ _).trans (Nat.min_le_right _ _)
  have hfloorx : (fx : ℝ) < (cellAlong origin cell count x : ℝ) + 1 := by
    have hle : (⌊fx⌋ : ℝ) ≤ cellAlong origin cell count x := by
      rw [← hlow]
      have hint : max (⌊fx⌋ : ℝ) 0 < (⌊max (⌊fx⌋ : ℝ) 0⌋₊ : ℝ) + 1 := Nat.lt_floor_add_one _
      have hcast : (max ⌊fx⌋ 0 : ℤ) < (⌊max (⌊fx⌋ : ℝ) 0⌋₊ : ℤ) + 1 := by exact_mod_cast hint
      have hle : ⌊fx⌋ ≤ (⌊max (⌊fx⌋ : ℝ) 0⌋₊ : ℤ) := by omega
      exact_mod_cast hle
    have hlt := Int.lt_floor_add_one fx
    linarith
  have hfloory : (cellAlong origin cell count y : ℝ) ≤ fy := by
    have hpos : 0 < ⌊max (⌊fy⌋ : ℝ) 0⌋₊ := by omega
    have hle : (⌊max (⌊fy⌋ : ℝ) 0⌋₊ : ℝ) ≤ max (⌊fy⌋ : ℝ) 0 := Nat.floor_le (le_max_right _ _)
    have hbig : (0 : ℝ) < ⌊fy⌋ := by
      by_contra hno
      rw [max_eq_right (not_lt.mp hno), Nat.floor_zero] at hpos
      exact absurd hpos (Nat.lt_irrefl 0)
    rw [max_eq_left hbig.le] at hle
    have hcast : (cellAlong origin cell count y : ℝ) ≤ (⌊max (⌊fy⌋ : ℝ) 0⌋₊ : ℝ) := by exact_mod_cast hhigh
    rw [max_eq_left hbig.le] at hcast
    exact hcast.trans (hle.trans (Int.floor_le fy))
  have hgap : (ring : ℝ) < fy - fx := by
    have hcast : (cellAlong origin cell count x : ℝ) + ring + 1 ≤ cellAlong origin cell count y := by
      exact_mod_cast h
    linarith
  have hdiff : fy - fx = (y - x) / cell := by
    rw [hfx, hfy]
    ring
  rw [hdiff, lt_div_iff₀ hcell] at hgap
  exact hgap

theorem abs_le_dist (a b : ℝ × ℝ) : |a.1 - b.1| ≤ dist a b ∧ |a.2 - b.2| ≤ dist a b := by
  change |a.1 - b.1| ≤ Real.sqrt _ ∧ |a.2 - b.2| ≤ Real.sqrt _
  constructor
  · apply Real.abs_le_sqrt
    rw [pow_two]
    exact le_add_of_nonneg_right (mul_self_nonneg _)
  · apply Real.abs_le_sqrt
    rw [pow_two]
    exact le_add_of_nonneg_left (mul_self_nonneg _)

/-- How many cells two points are apart. -/
noncomputable def CellGrid.apart (grid : CellGrid ℝ) (a b : ℝ × ℝ) : ℕ :=
  max (absDiff (grid.key a).2 (grid.key b).2) (absDiff (grid.key a).1 (grid.key b).1)

theorem lt_dist_of_apart {grid : CellGrid ℝ} (hcell : 0 < grid.cell) {a b : ℝ × ℝ} {ring : ℕ}
    (h : ring < grid.apart a b) : ring * grid.cell < dist a b := by
  obtain ⟨hx, hy⟩ := abs_le_dist a b
  have haxis : ∀ {origin : ℝ} {count : ℕ} {x y : ℝ},
      ring < absDiff (cellAlong origin grid.cell count x) (cellAlong origin grid.cell count y) →
        ring * grid.cell < |x - y| := by
    intro origin count x y hlt
    unfold absDiff at hlt
    split at hlt
    · have hgap := lt_sub_of_cellAlong hcell origin count ring x y (by omega)
      rw [abs_sub_comm]
      exact hgap.trans_le (le_abs_self _)
    · have hgap := lt_sub_of_cellAlong hcell origin count ring y x (by omega)
      exact hgap.trans_le (le_abs_self _)
  rcases lt_max_iff.mp h with h | h
  · exact (haxis h).trans_le hy
  · exact (haxis h).trans_le hx

/-! ### The ring search -/

section Nearest

variable (members : List ℕ) (points : List (ℝ × ℝ)) (grid : CellGrid ℝ) (p : ℝ × ℝ)

noncomputable def allMembers : List (ℝ × ℕ) := (List.range members.length).map (atSlot members points p)

theorem mem_window {centre ring last x : ℕ} :
    x ∈ window centre ring last ↔ centre - ring ≤ x ∧ x ≤ centre + ring ∧ x ≤ last := by
  rw [window, List.mem_range'_1]
  simp only [Nat.min_def]
  split <;> omega

theorem mem_ringSlots {ring slot : ℕ} : slot ∈ ringSlots members points grid (grid.key p) ring ↔
    slot < members.length ∧ grid.apart (pointAt points (members.getD slot 0)) p = ring := by
  have hlast : ∀ q : ℝ × ℝ, (grid.key q).1 ≤ grid.cols - 1 ∧ (grid.key q).2 ≤ grid.rows - 1 :=
    fun q => ⟨Nat.min_le_right _ _, Nat.min_le_right _ _⟩
  obtain ⟨hcol, hrow⟩ := hlast (pointAt points (members.getD slot 0))
  rw [ringSlots, List.mem_flatMap]
  simp only [List.mem_flatMap, mem_window, CellGrid.apart]
  constructor
  · rintro ⟨rr, ⟨hr1, hr2, -⟩, cc, ⟨hc1, hc2, -⟩, hslot⟩
    split at hslot
    · exact absurd hslot List.not_mem_nil
    case isFalse hon =>
      obtain ⟨hmem, hkey⟩ := List.mem_filter.mp hslot
      rw [decide_eq_true_eq] at hkey
      refine ⟨List.mem_range.mp hmem, ?_⟩
      rw [hkey]
      simp only [absDiff] at hon ⊢
      grind
  · rintro ⟨hslot, hring⟩
    set key := grid.key (pointAt points (members.getD slot 0)) with hkey
    have hr := le_max_left (absDiff key.2 (grid.key p).2) (absDiff key.1 (grid.key p).1)
    have hc := le_max_right (absDiff key.2 (grid.key p).2) (absDiff key.1 (grid.key p).1)
    rw [hring] at hr hc
    have hnear : ∀ {a b : ℕ}, absDiff a b ≤ ring → b - ring ≤ a ∧ a ≤ b + ring := by
      intro a b h
      unfold absDiff at h
      split at h <;> omega
    refine ⟨key.2, ⟨(hnear hr).1, (hnear hr).2, hrow⟩, key.1, ⟨(hnear hc).1, (hnear hc).2, hcol⟩, ?_⟩
    rw [if_neg]
    · exact List.mem_filter.mpr ⟨List.mem_range.mpr hslot, decide_eq_true hkey.symm⟩
    · rintro ⟨hr', hc'⟩
      rcases max_choice (absDiff key.2 (grid.key p).2) (absDiff key.1 (grid.key p).1) with h | h
      · exact hr' (h.symm.trans hring)
      · exact hc' (h.symm.trans hring)

theorem nearer_iff (a b : ℝ × ℕ) : nearer a b = true ↔ toLex a < toLex b := by
  rw [Prod.Lex.toLex_lt_toLex]
  change (decide (a.1 < b.1) || (decide (a.1 = b.1) && decide (a.2 < b.2))) = true ↔ _
  simp

theorem nearestMember_eq (hcell : 0 < grid.cell) : nearestMember members points grid p =
    RingSearch.leastOf nearer (allMembers members points p) := by
  apply RingSearch.scan_eq_leastOf nearer_iff toLex.injective
  · intro ring a ha
    obtain ⟨slot, hslot, rfl⟩ := List.mem_map.mp ha
    exact List.mem_map_of_mem (List.mem_range.mpr ((mem_ringSlots members points grid p).mp hslot).1)
  · intro a ha
    obtain ⟨slot, hslot, rfl⟩ := List.mem_map.mp ha
    refine ⟨grid.apart (pointAt points (members.getD slot 0)) p, ?_, ?_⟩
    · have hlast : ∀ q : ℝ × ℝ, (grid.key q).1 ≤ grid.cols - 1 ∧ (grid.key q).2 ≤ grid.rows - 1 :=
        fun q => ⟨Nat.min_le_right _ _, Nat.min_le_right _ _⟩
      have hslotCell := hlast (pointAt points (members.getD slot 0))
      have hcellOf := hlast p
      simp only [CellGrid.apart, absDiff]
      change _ < max grid.cols grid.rows + 1
      grind
    · exact List.mem_map_of_mem ((mem_ringSlots members points grid p).mpr
        ⟨List.mem_range.mp hslot, rfl⟩)
  · intro ring a hstop b hb hbeyond
    obtain ⟨slot, hslot, rfl⟩ := List.mem_map.mp hb
    have hapart : ring < grid.apart (pointAt points (members.getD slot 0)) p := by
      by_contra hno
      exact hbeyond _ (not_lt.mp hno) (List.mem_map_of_mem ((mem_ringSlots members points grid p).mpr
        ⟨List.mem_range.mp hslot, rfl⟩))
    have hfar := lt_dist_of_apart hcell hapart
    have hhit : a.1 ≤ ring * grid.cell := by
      have hle := (real_le_iff _ _).mp hstop
      change a.1 ≤ ((ring : ℚ) : ℝ) * grid.cell at hle
      rwa [Rat.cast_natCast] at hle
    exact (Prod.Lex.toLex_le_toLex.mpr (.inl (hhit.trans_lt hfar)))

theorem cellGrid_cell_pos : 0 < (cellGrid members points).cell := by
  change 0 < Binary64.max _ (1 : ℝ) * ((2 : ℚ) : ℝ)
  rw [max_real, Rat.cast_ofNat]
  exact mul_pos (lt_of_lt_of_le one_pos (le_max_right _ _)) two_pos

end Nearest

/-! ### Loads -/

noncomputable def hanging (buses : List (DraftBus ℝ)) (island tier : ℕ) : List (DraftBus ℝ × ℕ) :=
  buses.zipIdx.filter fun p => hangsOff island tier p.1

noncomputable def slotOf (members : List ℕ) (points : List (ℝ × ℝ)) (p : ℝ × ℝ) : Option ℕ :=
  (RingSearch.leastOf nearer (allMembers members points p)).map (·.2)

theorem slotOf_spec {members : List ℕ} (points : List (ℝ × ℝ)) (p : ℝ × ℝ) (hne : members ≠ []) :
    ∃ slot < members.length, slotOf members points p = some slot ∧
      ∀ other < members.length,
        (atSlot members points p slot).1 ≤ (atSlot members points p other).1 ∧
          ((atSlot members points p other).1 = (atSlot members points p slot).1 → slot ≤ other) := by
  have hleast := RingSearch.least_leastOf nearer_iff (allMembers members points p)
  have hmem : ∀ {other}, other < members.length →
      atSlot members points p other ∈ allMembers members points p :=
    fun hother => List.mem_map_of_mem (List.mem_range.mpr hother)
  obtain ⟨held, hheld, -⟩ := hleast.least _ (hmem (List.length_pos_iff.mpr hne))
  obtain ⟨slot, hslot, rfl⟩ := List.mem_map.mp (hleast.found _ hheld)
  refine ⟨slot, List.mem_range.mp hslot, by rw [slotOf, hheld]; rfl, fun other hother => ?_⟩
  obtain ⟨best, hbest, hle⟩ := hleast.least _ (hmem hother)
  obtain rfl := Option.some.inj (hheld.symm.trans hbest)
  rcases Prod.Lex.toLex_le_toLex.mp hle with hlt | ⟨heq, hslots⟩
  · exact ⟨hlt.le, fun heq => absurd heq hlt.ne'⟩
  · exact ⟨heq.le, fun _ => hslots⟩

theorem addLoad_apply (host : ℕ → ℝ) (nearest : Option (ℝ × ℕ)) (mw : ℝ) (slot : ℕ) :
    addLoad host nearest mw slot = host slot + if nearest.map (·.2) = some slot then mw else 0 := by
  cases nearest with
  | none => simp [addLoad]
  | some held =>
    rw [addLoad, Function.update_apply, Option.map_some]
    by_cases hs : slot = held.2
    · rw [if_pos hs, if_pos (congrArg some hs.symm), hs]
    · have hne : some held.2 ≠ some slot := fun heq => hs (Option.some.inj heq).symm
      rw [if_neg hs, if_neg hne, add_zero]

noncomputable def slotLoad (members : List ℕ) (points : List (ℝ × ℝ)) (loads : List (DraftBus ℝ × ℕ))
    (slot : ℕ) : ℝ :=
  (loads.map fun p => if slotOf members points (pointAt points p.2) = some slot then p.1.loadMw else 0).sum

theorem catchmentLoads_eq {buses : List (DraftBus ℝ)} {first : ℕ} {rest : List ℕ}
    {points : List (ℝ × ℝ)} {tier : ℕ} {bus : DraftBus ℝ} (hbus : buses[first]? = some bus) :
    catchmentLoads buses (first :: rest) points tier =
      some ((List.range (first :: rest).length).map
        (slotLoad (first :: rest) points (hanging buses bus.island tier))) := by
  have hfold : ∀ (list : List (DraftBus ℝ × ℕ)) (host : ℕ → ℝ) (slot : ℕ),
      list.foldl (fun host (b, i) =>
        if hangsOff bus.island tier b then
          addLoad host (nearestMember (first :: rest) points (cellGrid (first :: rest) points)
            (pointAt points i)) b.loadMw
        else host) host slot =
      host slot + slotLoad (first :: rest) points (list.filter fun p => hangsOff bus.island tier p.1) slot := by
    intro list
    induction list with
    | nil => exact fun host slot => (add_zero _).symm
    | cons p rest' ih =>
      intro host slot
      rw [List.foldl_cons, ih, List.filter_cons]
      by_cases hhangs : hangsOff bus.island tier p.1 = true
      · simp only [hhangs, if_true]
        rw [addLoad_apply, nearestMember_eq _ _ _ _ (cellGrid_cell_pos _ _), slotLoad, slotLoad,
          List.map_cons, List.sum_cons, add_assoc]
        rfl
      · simp only [hhangs, Bool.false_eq_true, if_false]
  rw [catchmentLoads, hbus, Option.map_some]
  congr 1
  apply List.map_congr_left
  intro slot _
  rw [hfold, zero_add]
  rfl

theorem sum_slotLoad {members : List ℕ} (hne : members ≠ []) (points : List (ℝ × ℝ))
    (loads : List (DraftBus ℝ × ℕ)) :
    ((List.range members.length).map (slotLoad members points loads)).sum =
      (loads.map fun p => p.1.loadMw).sum := by
  induction loads with
  | nil =>
    have hzero : slotLoad members points [] = fun _ => 0 := rfl
    rw [hzero]
    simp
  | cons p rest ih =>
    obtain ⟨slot, hslot, hslotOf, -⟩ := slotOf_spec points (pointAt points p.2) hne
    have hsplit : ∀ s, slotLoad members points (p :: rest) s =
        (if slotOf members points (pointAt points p.2) = some s then p.1.loadMw else 0) +
          slotLoad members points rest s := fun s => by
      rw [slotLoad, List.map_cons, List.sum_cons, ← slotLoad]
    rw [List.map_cons, List.sum_cons, ← ih, List.map_congr_left fun s _ => hsplit s, List.sum_map_add]
    congr 1
    rw [hslotOf]
    have hone : (List.range members.length).map
        (fun s => if some slot = some s then p.1.loadMw else 0) =
        (List.range members.length).map (fun s => if s = slot then p.1.loadMw else 0) := by
      apply List.map_congr_left
      intro s _
      simp only [Option.some.injEq, eq_comm]
    rw [hone, List.sum_map_ite_eq, List.count_eq_one_of_mem List.nodup_range (List.mem_range.mpr hslot),
      one_smul]
    simp

/-! ### Sites -/

/-- `lowest` names the first bus of the deepest level of each site among `seen`. -/
structure LowestAmong (buses : List (DraftBus ℝ)) (seen : ℕ) (lowest : ℕ → Option ℕ) : Prop where
  found : ∀ s e, lowest s = some e → e < seen ∧ ∃ b, buses[e]? = some b ∧ b.site = s
  least : ∀ i b, i < seen → buses[i]? = some b → ∃ e held, lowest b.site = some e ∧
    buses[e]? = some held ∧ b.tier ≤ held.tier ∧ (b.tier = held.tier → e ≤ i)

theorem LowestAmong.step {buses : List (DraftBus ℝ)} {seen : ℕ} {lowest : ℕ → Option ℕ}
    (h : LowestAmong buses seen lowest) {b : DraftBus ℝ} (hb : buses[seen]? = some b) :
    LowestAmong buses (seen + 1)
      (match lowest b.site with
      | none => Function.update lowest b.site (some seen)
      | some e =>
        if (buses[e]?).any fun held => held.tier < b.tier then
          Function.update lowest b.site (some seen)
        else lowest) := by
  have hnew : (∀ e held, lowest b.site = some e → buses[e]? = some held → held.tier < b.tier) →
      LowestAmong buses (seen + 1) (Function.update lowest b.site (some seen)) := by
    intro hlower
    refine { found := ?_, least := ?_ }
    · intro s e he
      rw [Function.update_apply] at he
      split at he
      case isTrue hs =>
        obtain rfl := Option.some.inj he
        exact ⟨Nat.lt_succ_self _, b, hb, hs.symm⟩
      case isFalse =>
        obtain ⟨hlt, hbus⟩ := h.found s e he
        exact ⟨Nat.lt_succ_of_lt hlt, hbus⟩
    · intro i b' hi hb'
      by_cases hs : b'.site = b.site
      · rw [hs, Function.update_self]
        refine ⟨seen, b, rfl, hb, ?_⟩
        rcases Nat.lt_succ_iff_lt_or_eq.mp hi with hi | rfl
        · obtain ⟨e, held, he, hheld, hle, -⟩ := h.least i b' hi hb'
          have hlt := hlower e held (hs ▸ he) hheld
          exact ⟨by omega, fun heq => by omega⟩
        · obtain rfl := Option.some.inj (hb.symm.trans hb')
          exact ⟨Nat.le_refl _, fun _ => Nat.le_refl _⟩
      · rw [Function.update_of_ne hs]
        rcases Nat.lt_succ_iff_lt_or_eq.mp hi with hi | rfl
        · exact h.least i b' hi hb'
        · obtain rfl := Option.some.inj (hb.symm.trans hb')
          exact absurd rfl hs
  split
  case h_1 hnone => exact hnew fun e held he => by rw [hnone] at he; exact nomatch he
  case h_2 e he =>
    obtain ⟨helt, held, hheld, hsite⟩ := h.found _ _ he
    rw [hheld, Option.any_some]
    split
    case isTrue hlt =>
      apply hnew
      intro e' held' he' hheld'
      obtain rfl := Option.some.inj (he.symm.trans he')
      obtain rfl := Option.some.inj (hheld.symm.trans hheld')
      exact of_decide_eq_true hlt
    case isFalse hge =>
      have hle : b.tier ≤ held.tier := by
        rw [decide_eq_true_eq] at hge
        omega
      refine { found := ?_, least := ?_ }
      · intro s e' he'
        obtain ⟨hlt, hbus⟩ := h.found s e' he'
        exact ⟨Nat.lt_succ_of_lt hlt, hbus⟩
      · intro i b' hi hb'
        rcases Nat.lt_succ_iff_lt_or_eq.mp hi with hi | rfl
        · exact h.least i b' hi hb'
        · obtain rfl := Option.some.inj (hb.symm.trans hb')
          exact ⟨e, held, he, hheld, hle, fun _ => Nat.le_of_lt helt⟩

theorem lowestOf_spec (buses : List (DraftBus ℝ)) :
    LowestAmong buses buses.length (lowestOf buses) := by
  have hfold : ∀ (rest : List (DraftBus ℝ)) (seen : ℕ) (lowest : ℕ → Option ℕ),
      buses.drop seen = rest → LowestAmong buses seen lowest →
      LowestAmong buses (seen + rest.length) ((rest.zipIdx seen).foldl (fun lowest (b, i) =>
        match lowest b.site with
        | none => Function.update lowest b.site (some i)
        | some e =>
          if (buses[e]?).any fun held => held.tier < b.tier then Function.update lowest b.site (some i)
          else lowest) lowest) := by
    intro rest
    induction rest with
    | nil => exact fun _ _ _ h => h
    | cons b rest ih =>
      intro seen lowest hdrop h
      have hb : buses[seen]? = some b := by
        rw [← List.head?_drop, hdrop, List.head?_cons]
      have hrest : buses.drop (seen + 1) = rest := by
        rw [← List.tail_drop, hdrop, List.tail_cons]
      rw [List.zipIdx_cons, List.foldl_cons, List.length_cons, ← Nat.add_assoc, Nat.add_right_comm]
      exact ih (seen + 1) _ hrest (h.step hb)
  have hstart : LowestAmong buses 0 fun _ => none :=
    { found := fun _ _ h => (nomatch h), least := fun _ _ h => absurd h (Nat.not_lt_zero _) }
  have hall := hfold buses 0 _ List.drop_zero hstart
  rwa [Nat.zero_add] at hall

noncomputable def siteSum (value : DraftBus ℝ → ℝ) (s : ℕ) (buses : List (DraftBus ℝ)) : ℝ :=
  (buses.map fun b => if b.site = s then value b else 0).sum

theorem sum_map_modify {α : Type} (f : α → ℝ) (g : α → α) {list : List α} {i : ℕ} {a : α}
    (h : list[i]? = some a) :
    ((list.modify i g).map f).sum = (list.map f).sum + (f (g a) - f a) := by
  induction list generalizing i with
  | nil => exact nomatch h
  | cons b rest ih =>
    cases i with
    | zero =>
      rw [List.getElem?_cons_zero] at h
      obtain rfl := Option.some.inj h
      rw [List.modify_zero_cons, List.map_cons, List.map_cons, List.sum_cons, List.sum_cons]
      ring
    | succ i =>
      rw [List.getElem?_cons_succ] at h
      rw [List.modify_succ_cons, List.map_cons, List.map_cons, List.sum_cons, List.sum_cons, ih h]
      ring

def SamePlaces (before after : List (DraftBus ℝ)) : Prop :=
  ∀ i : ℕ, (after[i]?).map (fun b : DraftBus ℝ => (b.site, b.tier)) =
    (before[i]?).map fun b : DraftBus ℝ => (b.site, b.tier)

/-- What settling holds after `seen` buses. -/
structure Settling (before : List (DraftBus ℝ)) (seen : ℕ) (after : List (DraftBus ℝ)) : Prop where
  places : SamePlaces before after
  mw : ∀ s, siteSum (·.loadMw) s after = siteSum (·.loadMw) s before
  mvar : ∀ s, siteSum (·.loadMvar) s after = siteSum (·.loadMvar) s before
  weight : ∀ s, siteSum (·.populationWeight) s after = siteSum (·.populationWeight) s before
  emptied : ∀ (i : ℕ) (b : DraftBus ℝ), i < seen → after[i]? = some b → lowestOf before b.site ≠ some i →
    b.loadMw = 0 ∧ b.loadMvar = 0 ∧ b.populationWeight = 0

theorem SamePlaces.get {before after : List (DraftBus ℝ)} (h : SamePlaces before after) {i : ℕ}
    {b : DraftBus ℝ} (hb : after[i]? = some b) :
    ∃ old, before[i]? = some old ∧ old.site = b.site ∧ old.tier = b.tier := by
  have hi := h i
  rw [hb, Option.map_some] at hi
  obtain ⟨old, hold, heq⟩ := Option.map_eq_some_iff.mp hi.symm
  obtain ⟨hsite, htier⟩ := Prod.mk.injEq .. |>.mp heq
  exact ⟨old, hold, hsite, htier⟩

theorem SamePlaces.get' {before after : List (DraftBus ℝ)} (h : SamePlaces before after) {i : ℕ}
    {old : DraftBus ℝ} (hold : before[i]? = some old) :
    ∃ b, after[i]? = some b ∧ b.site = old.site ∧ b.tier = old.tier := by
  have hi := h i
  rw [hold, Option.map_some] at hi
  obtain ⟨b, hb, heq⟩ := Option.map_eq_some_iff.mp hi
  obtain ⟨hsite, htier⟩ := Prod.mk.injEq .. |>.mp heq
  exact ⟨b, hb, hsite, htier⟩

theorem SamePlaces.modify {before after : List (DraftBus ℝ)} (h : SamePlaces before after) (i : ℕ)
    (g : DraftBus ℝ → DraftBus ℝ) (hg : ∀ b, (g b).site = b.site ∧ (g b).tier = b.tier) :
    SamePlaces before (after.modify i g) := by
  intro j
  rw [← h j]
  by_cases hij : i = j
  · subst hij
    rw [List.getElem?_modify_eq]
    cases after[i]? with
    | none => rfl
    | some b =>
      obtain ⟨hsite, htier⟩ := hg b
      change some ((g b).site, (g b).tier) = some (b.site, b.tier)
      rw [hsite, htier]
  · rw [List.getElem?_modify_ne _ _ hij]

theorem siteSum_hand (value : DraftBus ℝ → ℝ) (give take : DraftBus ℝ → DraftBus ℝ)
    {buses : List (DraftBus ℝ)} {src low : ℕ} {b held : DraftBus ℝ} (hne : low ≠ src)
    (hb : buses[src]? = some b) (hheld : buses[low]? = some held) (hsite : held.site = b.site)
    (hgive : value (give held) = value held + value b) (hgiveSite : (give held).site = held.site)
    (htake : value (take b) = 0) (htakeSite : (take b).site = b.site) (s : ℕ) :
    siteSum value s ((buses.modify low give).modify src take) = siteSum value s buses := by
  have hb' : (buses.modify low give)[src]? = some b := by
    rw [List.getElem?_modify_ne _ _ hne, hb]
  rw [siteSum, sum_map_modify _ _ hb', sum_map_modify _ _ hheld, hgiveSite, htakeSite, hsite, hgive, htake,
    siteSum]
  split <;> ring

theorem Settling.step {before after : List (DraftBus ℝ)} {seen : ℕ} (h : Settling before seen after)
    (hseen : seen < before.length) :
    Settling before (seen + 1) (settleBus (lowestOf before) after seen) := by
  obtain ⟨b, hb, hsite, htier⟩ := h.places.get' (List.getElem?_eq_getElem hseen)
  obtain ⟨low, held, hlow, hheld, -⟩ := (lowestOf_spec before).least seen _ hseen
    (List.getElem?_eq_getElem hseen)
  rw [← hsite] at hlow
  have hkept : low = seen → Settling before (seen + 1) after := by
    rintro rfl
    refine { places := h.places, mw := h.mw, mvar := h.mvar, weight := h.weight, emptied := ?_ }
    intro i b' hi hb' hnot
    rcases Nat.lt_succ_iff_lt_or_eq.mp hi with hi | rfl
    · exact h.emptied i b' hi hb' hnot
    · obtain rfl := Option.some.inj (hb.symm.trans hb')
      exact absurd hlow hnot
  simp only [settleBus, hb, hlow]
  split
  case isFalse heq => exact hkept (not_not.mp heq)
  case isTrue hne =>
    obtain ⟨-, old, hold, holdSite⟩ := (lowestOf_spec before).found _ _ hlow
    obtain ⟨held', hheld', hheldSite, -⟩ := h.places.get' hold
    have hsame : held'.site = b.site := hheldSite.trans holdSite
    refine { places := ?_, mw := ?_, mvar := ?_, weight := ?_, emptied := ?_ }
    · rw [handLoad]
      apply SamePlaces.modify
      · apply h.places.modify
        exact fun _ => ⟨rfl, rfl⟩
      · exact fun _ => ⟨rfl, rfl⟩
    · exact fun s => (siteSum_hand _ _ _ hne hb hheld' hsame rfl rfl rfl rfl s).trans (h.mw s)
    · exact fun s => (siteSum_hand _ _ _ hne hb hheld' hsame rfl rfl rfl rfl s).trans (h.mvar s)
    · exact fun s => (siteSum_hand _ _ _ hne hb hheld' hsame rfl rfl rfl rfl s).trans (h.weight s)
    · intro i b' hi hb' hnot
      rw [handLoad] at hb'
      by_cases hsrc : seen = i
      · subst hsrc
        rw [List.getElem?_modify_eq] at hb'
        obtain ⟨gave, -, rfl⟩ := Option.map_eq_some_iff.mp hb'
        exact ⟨rfl, rfl, rfl⟩
      rw [List.getElem?_modify_ne _ _ hsrc] at hb'
      by_cases hlowest : low = i
      · subst hlowest
        rw [List.getElem?_modify_eq] at hb'
        obtain ⟨took, htook, rfl⟩ := Option.map_eq_some_iff.mp hb'
        obtain rfl := Option.some.inj (hheld'.symm.trans htook)
        rw [← hsame] at hlow
        exact absurd hlow hnot
      · rw [List.getElem?_modify_ne _ _ hlowest] at hb'
        exact h.emptied i b' (by omega) hb' hnot

theorem settleSiteLoads_spec (buses : List (DraftBus ℝ)) :
    Settling buses buses.length (settleSiteLoads buses) := by
  have hfold : ∀ n ≤ buses.length,
      Settling buses n ((List.range n).foldl (settleBus (lowestOf buses)) buses) := by
    intro n
    induction n with
    | zero =>
      intro _
      exact { places := fun _ => rfl, mw := fun _ => rfl, mvar := fun _ => rfl, weight := fun _ => rfl
              emptied := fun _ _ h => absurd h (Nat.not_lt_zero _) }
    | succ n ih =>
      intro hn
      rw [List.range_succ, List.foldl_append, List.foldl_cons, List.foldl_nil]
      exact (ih (by omega)).step (by omega)
  exact hfold buses.length (Nat.le_refl _)

/-! ### Both together -/

/-- What the ring search finds for a point: a nearest member, and of the nearest ones the first. -/
theorem nearestMember_spec {members : List ℕ} (points : List (ℝ × ℝ)) (p : ℝ × ℝ) (hne : members ≠ []) :
    ∃ slot < members.length,
      (nearestMember members points (cellGrid members points) p).map (·.2) = some slot ∧
      ∀ other < members.length,
        (atSlot members points p slot).1 ≤ (atSlot members points p other).1 ∧
          ((atSlot members points p other).1 = (atSlot members points p slot).1 → slot ≤ other) := by
  rw [nearestMember_eq _ _ _ _ (cellGrid_cell_pos members points)]
  exact slotOf_spec points p hne

/-- Every load of a level goes to the member that a scan of all members finds nearest, no load is lost on
the way, and a site that settles its loads keeps each of its sums and has them on its lowest bus. -/
theorem catchments_exact_and_conserved (buses : List (DraftBus ℝ)) (members : List ℕ)
    (points : List (ℝ × ℝ)) (tier : ℕ) (first : DraftBus ℝ)
    (hfirst : members.head?.bind (fun i => buses[i]?) = some first) :
    (∀ p, nearestMember members points (cellGrid members points) p =
        RingSearch.leastOf nearer (allMembers members points p) ∧
      ∃ slot < members.length,
        (nearestMember members points (cellGrid members points) p).map (·.2) = some slot ∧
        ∀ other < members.length,
          (atSlot members points p slot).1 ≤ (atSlot members points p other).1 ∧
            ((atSlot members points p other).1 = (atSlot members points p slot).1 → slot ≤ other)) ∧
      (∃ loads, catchmentLoads buses members points tier = some loads ∧
        loads = (List.range members.length).map
          (slotLoad members points (hanging buses first.island tier)) ∧
        loads.sum = ((hanging buses first.island tier).map fun p => p.1.loadMw).sum) ∧
      ∀ s, siteSum (·.loadMw) s (settleSiteLoads buses) = siteSum (·.loadMw) s buses ∧
        siteSum (·.loadMvar) s (settleSiteLoads buses) = siteSum (·.loadMvar) s buses ∧
        siteSum (·.populationWeight) s (settleSiteLoads buses) = siteSum (·.populationWeight) s buses ∧
        ∀ (i : ℕ) (b : DraftBus ℝ), (settleSiteLoads buses)[i]? = some b → b.site = s → b.loadMw ≠ 0 →
          ∀ (j : ℕ) (other : DraftBus ℝ), (settleSiteLoads buses)[j]? = some other → other.site = s →
            other.tier ≤ b.tier ∧ (other.tier = b.tier → i ≤ j) := by
  have hne : members ≠ [] := by
    rintro rfl
    exact nomatch hfirst
  refine ⟨fun p => ⟨?_, nearestMember_spec points p hne⟩, ?_, fun s => ?_⟩
  · exact nearestMember_eq _ _ _ _ (cellGrid_cell_pos members points)
  · cases members with
    | nil => exact absurd rfl hne
    | cons slot rest =>
      exact ⟨_, catchmentLoads_eq hfirst, rfl, sum_slotLoad hne points _⟩
  · have hsettled := settleSiteLoads_spec buses
    refine ⟨hsettled.mw s, hsettled.mvar s, hsettled.weight s, ?_⟩
    rintro i b hb rfl hload j other hother hsite
    obtain ⟨old, hold, holdSite, holdTier⟩ := hsettled.places.get hb
    obtain ⟨old', hold', hsite', htier'⟩ := hsettled.places.get hother
    have hi := (List.getElem?_eq_some_iff.mp hold).1
    have hj := (List.getElem?_eq_some_iff.mp hold').1
    obtain ⟨e, held, he, hheld, htier, hlow⟩ := (lowestOf_spec buses).least j old' hj hold'
    -- a bus with load is the lowest one of its site, or settling would have emptied it
    have hmine : e = i := by
      by_contra hnot
      apply hload
      apply (hsettled.emptied i b hi hb ?_).1
      rw [← hsite, ← hsite', he]
      exact fun heq => hnot (Option.some.inj heq)
    subst hmine
    obtain rfl := Option.some.inj (hold.symm.trans hheld)
    rw [← htier', ← holdTier]
    exact ⟨htier, hlow⟩

end

@[reducible] local instance servedText : DecimalText ℝ := ⟨fun _ => ""⟩

def levelBus {F : Type} [Binary64 F] (tier : ℕ) (mw : F) : DraftBus F where
  lon := 0
  lat := 0
  name := "Bus"
  place := none
  tier := tier
  baseKv := lit 220
  kind := .substation
  confidence := 0
  polygon := 0
  island := 0
  source := .synthetic
  populationWeight := 0
  loadMw := mw
  loadMvar := 0
  annotation := ""
  site := 7

theorem catchments_exact_and_conserved_site :
    ∃ loads, catchmentLoads [levelBus 0 (5 : ℝ), levelBus 1 3] [0, 1] [(0, 0), (0, 0)] 0 = some loads ∧
      loads.sum = 8 := by
  obtain ⟨-, ⟨loads, hloads, -, hsum⟩, -⟩ :=
    catchments_exact_and_conserved [levelBus 0 5, levelBus 1 3] [0, 1] [(0, 0), (0, 0)] 0 (levelBus 0 5) rfl
  refine ⟨loads, hloads, hsum.trans ?_⟩
  have hloaded : ∀ (tier : ℕ) (mw : ℝ), 0 < mw → hangsOff 0 0 (levelBus tier mw) = true := by
    intro tier mw hmw
    have hpos : le mw 0 = false := by
      rw [← Bool.not_eq_true, real_le_iff]
      exact not_le.mpr hmw
    simp [hangsOff, levelBus, hpos]
  have hfive := hloaded 0 5 (by norm_num)
  have hthree := hloaded 1 3 (by norm_num)
  have hhanging : hanging [levelBus 0 (5 : ℝ), levelBus 1 3] (levelBus 0 (5 : ℝ)).island 0 =
      [(levelBus 0 5, 0), (levelBus 1 3, 1)] := by
    apply List.filter_eq_self.mpr
    intro p hp
    rcases List.mem_cons.mp hp with rfl | hp
    · exact hfive
    · rw [List.mem_singleton.mp hp]
      exact hthree
  rw [hhanging]
  change (5 : ℝ) + (3 + 0) = 8
  norm_num

/-- Members 514 km apart on a line, and last a load between the first two of them. -/
def onOneLine : List (Float × Float) :=
  [(2.999999999999945, 0), (-1.00000000000003, 0), (-511, 0), (0.99999999999997, 0)]

/-- In doubles the cell of the first member rounds up to the next one, two cells away from the load's. The
search stops at the second member, one cell's width away, and never looks at the first, which is nearer. -/
theorem catchments_miss_roundedCell :
    (catchmentLoads [levelBus 0 0, levelBus 0 0, levelBus 0 0, levelBus 1 7] [0, 1, 2] onOneLine 0).map
        (·.map Float.toBits) = some ([0, 7, 0].map Float.toBits) ∧
      lt (atSlot [0, 1, 2] onOneLine (pointAt onOneLine 3) 0).1
        (atSlot [0, 1, 2] onOneLine (pointAt onOneLine 3) 1).1 = true := by
  constructor <;> decide +kernel

end Tellegen.Synth
