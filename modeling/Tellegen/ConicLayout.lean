import Tellegen.Conic

/-!
The layout of the conic program uses every column and every row once, its cones
cover the rows, and what the assembled program says of a row is what the calls
on that row say.
-/

open Binary64 Blocks

namespace Tellegen.Ac

namespace SocWrLayout

variable {F : Type} [Libm F] (net : AcNetwork F)

/-! ### Columns -/

abbrev ColumnBlocks :=
  Fin net.k ⊕ Fin net.k ⊕ Fin net.n ⊕ Fin net.m ⊕ Fin net.m ⊕ Fin net.m ⊕ Fin net.m ⊕ Fin net.m ⊕
    Fin net.m ⊕ (g : Fin net.k) × Fin (costWidth net g)

theorem costWidth_of_isSome {g : Fin net.k} (h : (net.piecewiseCosts g).isSome = true) :
    costWidth net g = 1 := if_pos h

theorem isSome_of_costWidth {g : Fin net.k} (x : Fin (costWidth net g)) :
    (net.piecewiseCosts g).isSome = true := by
  by_contra h
  have hx := x.isLt
  have hzero : costWidth net g = 0 := if_neg h
  omega

theorem costWidth_pos {g : Fin net.k} (h : (net.piecewiseCosts g).isSome = true) : 0 < costWidth net g := by
  rw [costWidth_of_isSome net h]
  exact Nat.one_pos

def columnToBlock : Column net → ColumnBlocks net
  | .pg g => .inl g
  | .qg g => .inr (.inl g)
  | .w i => .inr (.inr (.inl i))
  | .wr e => .inr (.inr (.inr (.inl e)))
  | .wi e => .inr (.inr (.inr (.inr (.inl e))))
  | .pf e => .inr (.inr (.inr (.inr (.inr (.inl e)))))
  | .pt e => .inr (.inr (.inr (.inr (.inr (.inr (.inl e))))))
  | .qf e => .inr (.inr (.inr (.inr (.inr (.inr (.inr (.inl e)))))))
  | .qt e => .inr (.inr (.inr (.inr (.inr (.inr (.inr (.inr (.inl e))))))))
  | .cost g h => .inr (.inr (.inr (.inr (.inr (.inr (.inr (.inr (.inr
      ⟨g, ⟨0, costWidth_pos net h⟩⟩))))))))

def blockToColumn : ColumnBlocks net → Column net
  | .inl g => .pg g
  | .inr (.inl g) => .qg g
  | .inr (.inr (.inl i)) => .w i
  | .inr (.inr (.inr (.inl e))) => .wr e
  | .inr (.inr (.inr (.inr (.inl e)))) => .wi e
  | .inr (.inr (.inr (.inr (.inr (.inl e))))) => .pf e
  | .inr (.inr (.inr (.inr (.inr (.inr (.inl e)))))) => .pt e
  | .inr (.inr (.inr (.inr (.inr (.inr (.inr (.inl e))))))) => .qf e
  | .inr (.inr (.inr (.inr (.inr (.inr (.inr (.inr (.inl e)))))))) => .qt e
  | .inr (.inr (.inr (.inr (.inr (.inr (.inr (.inr (.inr ⟨g, x⟩)))))))) =>
    .cost g (isSome_of_costWidth net x)

theorem blockToColumn_columnToBlock (column : Column net) :
    blockToColumn net (columnToBlock net column) = column := by
  cases column <;> rfl

theorem columnToBlock_blockToColumn (block : ColumnBlocks net) :
    columnToBlock net (blockToColumn net block) = block := by
  rcases block with _ | _ | _ | _ | _ | _ | _ | _ | _ | ⟨g, x⟩ <;> try rfl
  have hlt := x.isLt
  have hone := costWidth_of_isSome net (isSome_of_costWidth net x)
  have hzero : x = ⟨0, by omega⟩ := Fin.ext (by simp only; omega)
  simp only [blockToColumn, columnToBlock]
  rw [← hzero]

def columnBlocks : Column net ≃ ColumnBlocks net :=
  ⟨columnToBlock net, blockToColumn net, blockToColumn_columnToBlock net, columnToBlock_blockToColumn net⟩

theorem fills_columnBlocks :
    Fills (Sum.elim (fun g : Fin net.k => 0 + (g : ℕ))
      (Sum.elim (fun g : Fin net.k => net.k + g)
      (Sum.elim (fun i : Fin net.n => 2 * net.k + i)
      (Sum.elim (fun e : Fin net.m => 2 * net.k + net.n + e)
      (Sum.elim (fun e : Fin net.m => 2 * net.k + net.n + net.m + e)
      (Sum.elim (fun e : Fin net.m => 2 * net.k + net.n + 2 * net.m + e)
      (Sum.elim (fun e : Fin net.m => 2 * net.k + net.n + 3 * net.m + e)
      (Sum.elim (fun e : Fin net.m => 2 * net.k + net.n + 4 * net.m + e)
      (Sum.elim (fun e : Fin net.m => 2 * net.k + net.n + 5 * net.m + e)
        (fun x : (g : Fin net.k) × Fin (costWidth net g) =>
          startAt (baseNvar net) (costWidth net) x.1 + x.2))))))))))
      0 (nvar net) := by
  iterate 9 apply Fills.after
  · exact fills_blocks (baseNvar net) (costWidth net)
  all_goals try rw [baseNvar]
  all_goals ring

theorem fills_columns : Fills (Column.index : Column net → ℕ) 0 (nvar net) := by
  apply (fills_columnBlocks net).relabel (columnBlocks net)
  intro column
  cases column with
  | pg g => exact (Nat.zero_add _).symm
  | _ => rfl

/-! ### Rows -/

abbrev EqualityBlocks :=
  Fin net.n ⊕ Fin net.n ⊕ Fin net.m ⊕ Fin net.m ⊕ Fin net.m ⊕ Fin net.m

abbrev InequalityBlocks :=
  Fin net.n ⊕ Fin net.n ⊕ Fin net.k ⊕ Fin net.k ⊕ Fin net.k ⊕ Fin net.k ⊕ Fin net.m ⊕ Fin net.m ⊕
    (g : Fin net.k) × Fin (segmentCount net g)

abbrev RowBlocks :=
  EqualityBlocks net ⊕ InequalityBlocks net ⊕ (Fin net.m × Fin 4) ⊕
    (e : Fin net.m) × Fin (thermalHeight net e)

theorem thermalHeight_of_active {e : Fin net.m} (h : net.thermalLimitActive e = true) :
    thermalHeight net e = 6 := if_pos h

theorem active_of_thermalHeight {e : Fin net.m} (x : Fin (thermalHeight net e)) :
    net.thermalLimitActive e = true := by
  by_contra h
  have hx := x.isLt
  have hzero : thermalHeight net e = 0 := if_neg h
  omega

/-- A thermal block holds the cone of the from side and then that of the to side. -/
def thermalRow (e : Fin net.m) (x : Fin (thermalHeight net e)) : Row net :=
  if hx : (x : ℕ) < 3 then .sf e (active_of_thermalHeight net x) ⟨x, hx⟩
  else .st e (active_of_thermalHeight net x) ⟨x - 3, by
    have hlt := x.isLt
    have hsix := thermalHeight_of_active net (active_of_thermalHeight net x)
    omega⟩

theorem lower_lt_thermalHeight {e : Fin net.m} (h : net.thermalLimitActive e = true) (j : Fin 3) :
    (j : ℕ) < thermalHeight net e := by
  rw [thermalHeight_of_active net h]
  omega

theorem upper_lt_thermalHeight {e : Fin net.m} (h : net.thermalLimitActive e = true) (j : Fin 3) :
    3 + (j : ℕ) < thermalHeight net e := by
  rw [thermalHeight_of_active net h]
  omega

def rowToBlock : Row net → RowBlocks net
  | .pbal i => .inl (.inl i)
  | .qbal i => .inl (.inr (.inl i))
  | .ohmPf e => .inl (.inr (.inr (.inl e)))
  | .ohmQf e => .inl (.inr (.inr (.inr (.inl e))))
  | .ohmPt e => .inl (.inr (.inr (.inr (.inr (.inl e)))))
  | .ohmQt e => .inl (.inr (.inr (.inr (.inr (.inr e)))))
  | .wub i => .inr (.inl (.inl i))
  | .wlb i => .inr (.inl (.inr (.inl i)))
  | .pgub g => .inr (.inl (.inr (.inr (.inl g))))
  | .pglb g => .inr (.inl (.inr (.inr (.inr (.inl g)))))
  | .qgub g => .inr (.inl (.inr (.inr (.inr (.inr (.inl g))))))
  | .qglb g => .inr (.inl (.inr (.inr (.inr (.inr (.inr (.inl g)))))))
  | .angub e => .inr (.inl (.inr (.inr (.inr (.inr (.inr (.inr (.inl e))))))))
  | .anglb e => .inr (.inl (.inr (.inr (.inr (.inr (.inr (.inr (.inr (.inl e)))))))))
  | .costSegment g s => .inr (.inl (.inr (.inr (.inr (.inr (.inr (.inr (.inr (.inr ⟨g, s⟩)))))))))
  | .jabr e j => .inr (.inr (.inl (e, j)))
  | .sf e h j => .inr (.inr (.inr ⟨e, ⟨j, lower_lt_thermalHeight net h j⟩⟩))
  | .st e h j => .inr (.inr (.inr ⟨e, ⟨3 + j, upper_lt_thermalHeight net h j⟩⟩))

def blockToRow : RowBlocks net → Row net
  | .inl (.inl i) => .pbal i
  | .inl (.inr (.inl i)) => .qbal i
  | .inl (.inr (.inr (.inl e))) => .ohmPf e
  | .inl (.inr (.inr (.inr (.inl e)))) => .ohmQf e
  | .inl (.inr (.inr (.inr (.inr (.inl e))))) => .ohmPt e
  | .inl (.inr (.inr (.inr (.inr (.inr e))))) => .ohmQt e
  | .inr (.inl (.inl i)) => .wub i
  | .inr (.inl (.inr (.inl i))) => .wlb i
  | .inr (.inl (.inr (.inr (.inl g)))) => .pgub g
  | .inr (.inl (.inr (.inr (.inr (.inl g))))) => .pglb g
  | .inr (.inl (.inr (.inr (.inr (.inr (.inl g)))))) => .qgub g
  | .inr (.inl (.inr (.inr (.inr (.inr (.inr (.inl g))))))) => .qglb g
  | .inr (.inl (.inr (.inr (.inr (.inr (.inr (.inr (.inl e)))))))) => .angub e
  | .inr (.inl (.inr (.inr (.inr (.inr (.inr (.inr (.inr (.inl e))))))))) => .anglb e
  | .inr (.inl (.inr (.inr (.inr (.inr (.inr (.inr (.inr (.inr ⟨g, s⟩))))))))) => .costSegment g s
  | .inr (.inr (.inl (e, j))) => .jabr e j
  | .inr (.inr (.inr ⟨e, x⟩)) => thermalRow net e x

theorem blockToRow_rowToBlock (row : Row net) : blockToRow net (rowToBlock net row) = row := by
  cases row with
  | sf e h j => exact dif_pos j.isLt
  | st e h j =>
    have hge : ¬ 3 + (j : ℕ) < 3 := by omega
    simp only [rowToBlock, blockToRow, thermalRow]
    rw [dif_neg hge]
    simp
  | _ => rfl

theorem rowToBlock_blockToRow (block : RowBlocks net) : rowToBlock net (blockToRow net block) = block := by
  rcases block with (_ | _ | _ | _ | _ | _) | (_ | _ | _ | _ | _ | _ | _ | _ | _) | _ | ⟨e, x⟩ <;>
    try rfl
  simp only [rowToBlock, blockToRow, thermalRow]
  by_cases hx : (x : ℕ) < 3
  · rw [dif_pos hx]
  · rw [dif_neg hx]
    have hsum : 3 + ((x : ℕ) - 3) = x := by omega
    simp only [hsum]

def rowBlocks : Row net ≃ RowBlocks net :=
  ⟨rowToBlock net, blockToRow net, blockToRow_rowToBlock net, rowToBlock_blockToRow net⟩

theorem fills_equalityBlocks :
    Fills (Sum.elim (fun i : Fin net.n => 0 + (i : ℕ))
      (Sum.elim (fun i : Fin net.n => net.n + i)
      (Sum.elim (fun e : Fin net.m => 2 * net.n + e)
      (Sum.elim (fun e : Fin net.m => 2 * net.n + net.m + e)
      (Sum.elim (fun e : Fin net.m => 2 * net.n + 2 * net.m + e)
        (fun e : Fin net.m => 2 * net.n + 3 * net.m + e))))))
      0 (nEq net) := by
  iterate 5 apply Fills.after
  · exact (fills_fin (2 * net.n + 3 * net.m) net.m).cast rfl (by rw [nEq]; ring)
  all_goals ring

theorem socBase_eq :
    socBase net = startAt (nEq net + baseIneq net) (segmentCount net) net.k := by
  have hmono := startAt_mono (nEq net + baseIneq net) (segmentCount net) (Nat.zero_le net.k) le_rfl
  rw [startAt_zero] at hmono
  rw [socBase, nIneq]
  omega

theorem fills_inequalityBlocks :
    Fills (Sum.elim (fun i : Fin net.n => nEq net + (i : ℕ))
      (Sum.elim (fun i : Fin net.n => nEq net + net.n + i)
      (Sum.elim (fun g : Fin net.k => nEq net + 2 * net.n + g)
      (Sum.elim (fun g : Fin net.k => nEq net + 2 * net.n + net.k + g)
      (Sum.elim (fun g : Fin net.k => nEq net + 2 * net.n + 2 * net.k + g)
      (Sum.elim (fun g : Fin net.k => nEq net + 2 * net.n + 3 * net.k + g)
      (Sum.elim (fun e : Fin net.m => nEq net + 2 * net.n + 4 * net.k + e)
      (Sum.elim (fun e : Fin net.m => nEq net + 2 * net.n + 4 * net.k + net.m + e)
        (fun x : (g : Fin net.k) × Fin (segmentCount net g) =>
          startAt (nEq net + baseIneq net) (segmentCount net) x.1 + x.2)))))))))
      (nEq net) (socBase net) := by
  iterate 8 apply Fills.after
  · rw [socBase_eq]
    exact fills_blocks (nEq net + baseIneq net) (segmentCount net)
  all_goals try rw [baseIneq]
  all_goals ring

theorem fills_rows : Fills (Row.index : Row net → ℕ) 0 (ncon net) := by
  apply Fills.relabel (((fills_equalityBlocks net).append ((fills_inequalityBlocks net).append
    ((fills_grid (socBase net) net.m 4).append
      (fills_blocks (thermalBase net) (thermalHeight net))))))
    (rowBlocks net)
  intro row
  cases row with
  | pbal i => exact (Nat.zero_add _).symm
  | st e h j => exact Nat.add_assoc _ 3 _
  | _ => rfl

theorem sum_thermal :
    startAt (thermalBase net) (thermalHeight net) net.m =
      thermalBase net + 6 * ((List.finRange net.m).filter net.thermalLimitActive).length := by
  have hsum : ∀ l : List (Fin net.m), (l.map (thermalHeight net)).sum =
      6 * (l.filter net.thermalLimitActive).length := by
    intro l
    induction l with
    | nil => rfl
    | cons e rest ih =>
      rw [List.map_cons, List.sum_cons, ih, List.filter_cons]
      by_cases h : net.thermalLimitActive e = true
      · rw [if_pos h, thermalHeight, if_pos h, List.length_cons]
        ring
      · rw [if_neg h, thermalHeight, if_neg h, Nat.zero_add]
  have htake : (List.finRange net.m).take net.m = List.finRange net.m :=
    List.take_of_length_le (by simp)
  rw [startAt, htake, hsum]

theorem sum_cones : ((cones net).map Cone.dim).sum = ncon net := by
  have hthermal : ∀ l : List (Fin net.m),
      ((l.flatMap fun _ => [Cone.secondOrder 3, Cone.secondOrder 3]).map Cone.dim).sum =
        6 * l.length := by
    intro l
    induction l with
    | nil => rfl
    | cons e rest ih =>
      rw [List.flatMap_cons, List.map_append, List.sum_append, ih, List.length_cons]
      simp only [List.map_cons, List.map_nil, Cone.dim, List.sum_cons, List.sum_nil]
      ring
  rw [cones, List.cons_append, List.cons_append, List.map_cons, List.map_cons, List.sum_cons,
    List.sum_cons, List.map_append, List.sum_append, hthermal, List.map_replicate,
    List.sum_replicate, ncon, sum_thermal, thermalBase, socBase]
  simp only [Cone.dim, smul_eq_mul]
  ring

end SocWrLayout

end Tellegen.Ac
