import Tellegen.Lib.Complex64

/-!
Variables of a compiled problem that rows prove to be zero. They are dropped from every row that mentions
them, the rows that say nothing any more are left out, and one row for each such variable stands for them.
Expressions and the reading of quadratic ones are those of the optimizer.
-/

set_option linter.unusedSectionVars false

open Binary64 hiding max min

namespace Tellegen.McOpf

/-! ### Expressions -/

/-- What the optimizer reads of an expression; variables and pairs are in order. -/
structure Quadratic (F : Type) where
  constant : F
  linear : List (ℕ × F)
  quadratic : List ((ℕ × ℕ) × F)
  lostTerms : Bool

class Expressions (E : Type) (F : outParam Type) where
  const : F → E
  var : ℕ → E
  sum : List E → E
  mul : E → E → E
  recognize : E → Option (Quadratic F)

/-! ### Rows -/

structure ConstraintId (F : Type) where
  ordinal : ℕ
  label : String
  synthetic : Bool
  normDivisorPu : Option F

inductive Omission where
  | zeroReduction | fixedEquation
  deriving DecidableEq

structure OmittedRow where
  origin : ℕ
  reason : Omission
  deriving DecidableEq

/-- The rows of a problem, in parallel lists, its columns, and where rows come from. A row without a bound
is free on that side. -/
structure Builder (E F : Type) where
  origins : List (ConstraintId F)
  rowOrigins : List ℕ
  omitted : List OmittedRow
  zeroColumns : List ℕ
  start : List F
  names : List String
  rows : List E
  rowNames : List String
  lo : List (Option F)
  hi : List (Option F)

section Model

variable {E F : Type} [Binary64 F] [Expressions E F]

open Expressions

/-- The reading of an expression, if it is complete. -/
def recognized (e : E) : Option (Quadratic F) := (recognize e).filter fun q => !q.lostTerms

def Quadratic.touches (zero : Finset ℕ) (q : Quadratic F) : Bool :=
  q.linear.any (fun (i, _) => i ∈ zero) || q.quadratic.any fun ((i, j), _) => i ∈ zero || j ∈ zero

def scaled (k : F) (e : E) : E := mul (const k) e

/-- The expression without the variables that are zero. -/
def reduced (zero : Finset ℕ) (q : Quadratic F) : E :=
  sum (const q.constant ::
    ((q.linear.filter fun (i, _) => i ∉ zero).map fun (i, c) => scaled c (var i)) ++
    (q.quadratic.filter fun ((i, j), _) => i ∉ zero && j ∉ zero).map fun ((i, j), c) =>
      scaled c (mul (var i) (var j)))

def isZeroBound (bound : Option (Option F)) : Bool := bound.any fun b => b.any fun v => eq v 0

/-- The variable that a row with bounds zero proves to be zero. -/
def provedZero (lo hi : List (Option F)) (row : ℕ) (q : Quadratic F) : Option ℕ :=
  match q.linear with
  | [(i, c)] =>
    if isZeroBound lo[row]? && isZeroBound hi[row]? && eq q.constant 0 && q.quadratic.isEmpty &&
        isFinite c && !eq c 0 then some i
    else none
  | _ => none

def visitRow (lo hi : List (Option F)) (st : List E × Finset ℕ) (row : ℕ) : List E × Finset ℕ :=
  match (st.1[row]?).bind recognized with
  | none => st
  | some q =>
    let rows := if q.touches st.2 then st.1.set row (reduced st.2 q) else st.1
    match (rows[row]?).bind recognized with
    | none => (rows, st.2)
    | some q =>
      match provedZero lo hi row q with
      | some i => (rows.set row (const 0), insert i st.2)
      | none => (rows, st.2)

def visitRows (lo hi : List (Option F)) (st : List E × Finset ℕ) : List E × Finset ℕ :=
  (List.range st.1.length).foldl (visitRow lo hi) st

/-- Passes over the rows until one finds no variable. -/
def settle (lo hi : List (Option F)) : ℕ → List E × Finset ℕ → Option (List E × Finset ℕ)
  | 0, _ => none
  | fuel + 1, st =>
    let next := visitRows lo hi st
    if next.2.card = st.2.card then some next else settle lo hi fuel next

structure RowEntry (E F : Type) where
  row : E
  name : String
  lo : Option F
  hi : Option F
  origin : ℕ

def Builder.entries (b : Builder E F) : List (RowEntry E F) :=
  ((((b.rows.zip b.rowNames).zip b.lo).zip b.hi).zip b.rowOrigins).map fun ((((row, name), lo), hi), origin) =>
    ⟨row, name, lo, hi, origin⟩

/-- Nothing is left of the row, and its bounds allow zero. -/
def RowEntry.vacuous (r : RowEntry E F) : Bool :=
  r.lo.all (fun l => le l 0) && r.hi.all (fun h => le 0 h) &&
    (recognize r.row).any fun q => !q.lostTerms && eq q.constant 0 && q.linear.isEmpty && q.quadratic.isEmpty

def Builder.keep (b : Builder E F) (r : RowEntry E F) : Builder E F :=
  { b with
    rows := b.rows ++ [r.row]
    rowNames := b.rowNames ++ [r.name]
    lo := b.lo ++ [r.lo]
    hi := b.hi ++ [r.hi]
    rowOrigins := b.rowOrigins ++ [r.origin] }

def Builder.sift (b : Builder E F) (r : RowEntry E F) : Builder E F :=
  if r.vacuous then { b with omitted := b.omitted ++ [⟨r.origin, .zeroReduction⟩] } else b.keep r

/-- A new row, with an origin of its own. -/
def Builder.row (b : Builder E F) (name : String) (e : E) (lo hi : Option F) : Builder E F :=
  let origin := b.origins.length
  { b.keep ⟨e, name, lo, hi, origin⟩ with origins := b.origins ++ [⟨origin, name, false, none⟩] }

/-- One row that fixes a variable at zero; there must be such a column. -/
def Builder.fixZero (b : Builder E F) (i : ℕ) : Option (Builder E F) :=
  if i < b.start.length then
    (b.names[i]?).map fun name =>
      let fixed := ({ b with zeroColumns := b.zeroColumns ++ [i], start := b.start.set i 0 }).row
        (name ++ ":fixed_zero") (var i) (some 0) (some 0)
      { fixed with origins := fixed.origins.modify b.origins.length fun id => { id with synthetic := true } }
  else none

def Builder.siftRows (b : Builder E F) : Builder E F :=
  let emptied := { b with rows := [], rowNames := [], lo := [], hi := [], rowOrigins := [] }
  b.entries.foldl Builder.sift emptied

/-- Substitutes the variables that rows prove to be zero. -/
def Builder.propagateZeros (fuel : ℕ) (b : Builder E F) : Option (Builder E F) :=
  (settle b.lo b.hi fuel (b.rows, ∅)).bind fun (rows, zero) =>
    (zero.sort (· ≤ ·)).foldlM Builder.fixZero ({ b with rows := rows } : Builder E F).siftRows

end Model

/-! ### Meaning -/

section Exact

variable [DecimalText ℝ] {E : Type} [Expressions E ℝ]

def Quadratic.value (q : Quadratic ℝ) (x : ℕ → ℝ) : ℝ :=
  q.constant + (q.linear.map fun (i, c) => c * x i).sum +
    (q.quadratic.map fun ((i, j), c) => c * (x i * x j)).sum

/-- What expressions stand for at a point, and which columns they mention; a complete reading agrees with the
expression and mentions no other column. -/
class Meaning (E : Type) [Expressions E ℝ] where
  value : E → (ℕ → ℝ) → ℝ
  mentions : E → Set ℕ
  value_const (c : ℝ) (x : ℕ → ℝ) : value (Expressions.const c) x = c
  value_var (i : ℕ) (x : ℕ → ℝ) : value (Expressions.var i) x = x i
  value_sum (es : List E) (x : ℕ → ℝ) : value (Expressions.sum es) x = (es.map fun e => value e x).sum
  value_mul (a b : E) (x : ℕ → ℝ) : value (Expressions.mul a b) x = value a x * value b x
  mentions_const (c : ℝ) : mentions (Expressions.const c) = ∅
  mentions_var (i : ℕ) : mentions (Expressions.var i) = {i}
  mentions_sum (es : List E) (i : ℕ) : i ∈ mentions (Expressions.sum es) ↔ ∃ e ∈ es, i ∈ mentions e
  mentions_mul (a b : E) : mentions (Expressions.mul a b) = mentions a ∪ mentions b
  value_recognize (e : E) (q : Quadratic ℝ) (x : ℕ → ℝ) (h : Expressions.recognize e = some q)
    (hterms : q.lostTerms = false) : value e x = q.value x
  mentions_recognize (e : E) (q : Quadratic ℝ) (h : Expressions.recognize e = some q)
    (hterms : q.lostTerms = false) :
    (∀ t ∈ q.linear, t.1 ∈ mentions e) ∧ ∀ t ∈ q.quadratic, t.1.1 ∈ mentions e ∧ t.1.2 ∈ mentions e

variable [Meaning E]

open Meaning

theorem recognized_spec {e : E} {q : Quadratic ℝ} (h : recognized e = some q) :
    (∀ x, value e x = q.value x) ∧ (∀ t ∈ q.linear, t.1 ∈ mentions e) ∧
      ∀ t ∈ q.quadratic, t.1.1 ∈ mentions e ∧ t.1.2 ∈ mentions e := by
  obtain ⟨hread, hterms⟩ := Option.filter_eq_some_iff.mp h
  have hterms : q.lostTerms = false := by simpa using hterms
  exact ⟨fun x => value_recognize e q x hread hterms, mentions_recognize e q hread hterms⟩

/-- The point with the variables of a set at zero. -/
def mask (zero : Finset ℕ) (x : ℕ → ℝ) (i : ℕ) : ℝ := if i ∈ zero then 0 else x i

theorem mask_eq {zero : Finset ℕ} {x : ℕ → ℝ} (h : ∀ i ∈ zero, x i = 0) : mask zero x = x := by
  funext i
  rw [mask]
  split
  case isTrue hi => exact (h i hi).symm
  case isFalse => rfl

theorem sum_filter_map {α : Type} (p : α → Bool) (f g : α → ℝ) (hin : ∀ a, p a = true → f a = g a)
    (hout : ∀ a, p a = false → g a = 0) (list : List α) :
    ((list.filter p).map f).sum = (list.map g).sum := by
  induction list with
  | nil => rfl
  | cons a rest ih =>
    rw [List.map_cons, List.sum_cons, ← ih]
    cases hp : p a with
    | true => rw [List.filter_cons_of_pos hp, List.map_cons, List.sum_cons, hin a hp]
    | false =>
      rw [List.filter_cons_of_neg (by rw [hp]; exact Bool.false_ne_true), hout a hp, zero_add]

theorem value_reduced (zero : Finset ℕ) (q : Quadratic ℝ) (x : ℕ → ℝ) :
    value (reduced zero q : E) x = q.value (mask zero x) := by
  have hscaled : ∀ (c : ℝ) (e : E), value (scaled c e) x = c * value e x := by
    intro c e
    rw [scaled, value_mul, value_const]
  rw [reduced, value_sum, List.map_append, List.sum_append, List.map_cons, List.sum_cons, value_const,
    List.map_map, List.map_map, Quadratic.value]
  congr 1
  · congr 1
    apply sum_filter_map
    · rintro ⟨i, c⟩ hi
      have hi : i ∉ zero := by simpa using hi
      change value (scaled c (Expressions.var i) : E) x = c * mask zero x i
      rw [hscaled, value_var, mask, if_neg hi]
    · rintro ⟨i, c⟩ hi
      have hi : i ∈ zero := by simpa using hi
      change c * mask zero x i = 0
      rw [mask, if_pos hi, mul_zero]
  · apply sum_filter_map
    · rintro ⟨⟨i, j⟩, c⟩ hij
      have hij : i ∉ zero ∧ j ∉ zero := by simpa using hij
      change value (scaled c (Expressions.mul (Expressions.var i) (Expressions.var j)) : E) x =
        c * (mask zero x i * mask zero x j)
      rw [hscaled, value_mul, value_var, value_var, mask, mask, if_neg hij.1, if_neg hij.2]
    · rintro ⟨⟨i, j⟩, c⟩ hij
      have hij : i ∉ zero → j ∈ zero := by simpa using hij
      change c * (mask zero x i * mask zero x j) = 0
      by_cases hi : i ∈ zero
      · rw [mask, if_pos hi, zero_mul, mul_zero]
      · rw [mask, mask, if_pos (hij hi), mul_zero, mul_zero]

theorem mentions_reduced {zero : Finset ℕ} {e : E} {q : Quadratic ℝ} (h : recognized e = some q) :
    mentions (reduced zero q : E) ⊆ mentions e := by
  obtain ⟨-, hlinear, hquadratic⟩ := recognized_spec h
  intro i hi
  rw [reduced, mentions_sum] at hi
  obtain ⟨t, ht, hit⟩ := hi
  rcases List.mem_append.mp ht with ht | ht
  · rcases List.mem_cons.mp ht with rfl | ht
    · rw [mentions_const] at hit
      exact absurd hit (Set.notMem_empty i)
    · obtain ⟨⟨j, c⟩, hj, rfl⟩ := List.mem_map.mp ht
      change i ∈ mentions (Expressions.mul (Expressions.const c) (Expressions.var j) : E) at hit
      rw [mentions_mul, mentions_const, mentions_var, Set.empty_union, Set.mem_singleton_iff] at hit
      rw [hit]
      exact hlinear _ (List.mem_filter.mp hj).1
  · obtain ⟨⟨⟨j, k⟩, c⟩, hj, rfl⟩ := List.mem_map.mp ht
    change i ∈ mentions (Expressions.mul (Expressions.const c)
      (Expressions.mul (Expressions.var j) (Expressions.var k)) : E) at hit
    rw [mentions_mul, mentions_mul, mentions_const, mentions_var, mentions_var, Set.empty_union] at hit
    have hpair := hquadratic _ (List.mem_filter.mp hj).1
    rcases hit with hit | hit
    · rw [Set.mem_singleton_iff.mp hit]
      exact hpair.1
    · rw [Set.mem_singleton_iff.mp hit]
      exact hpair.2

theorem provedZero_spec {lo hi : List (Option ℝ)} {row i : ℕ} {q : Quadratic ℝ}
    (h : provedZero lo hi row q = some i) :
    lo[row]? = some (some 0) ∧ hi[row]? = some (some 0) ∧ ∃ c, c ≠ 0 ∧ (i, c) ∈ q.linear ∧
      ∀ x, q.value x = c * x i := by
  have hbound : ∀ {bound : Option (Option ℝ)}, isZeroBound bound = true → bound = some (some 0) := by
    intro bound hzero
    unfold isZeroBound at hzero
    obtain ⟨b, hb, hany⟩ := (Option.any_eq_true ..).mp hzero
    obtain ⟨v, hv, heq⟩ := (Option.any_eq_true ..).mp hany
    rw [hb, hv, of_decide_eq_true heq]
  unfold provedZero at h
  split at h
  case h_1 j c hlinear =>
    split at h
    case isTrue hall =>
      obtain rfl := Option.some.inj h
      simp only [Bool.and_eq_true, List.isEmpty_iff, Bool.not_eq_true'] at hall
      obtain ⟨⟨⟨⟨⟨hlo, hhi⟩, hconstant⟩, hquadratic⟩, -⟩, hc⟩ := hall
      refine ⟨hbound hlo, hbound hhi, c, of_decide_eq_false hc, by rw [hlinear]; exact List.mem_cons_self, ?_⟩
      intro x
      rw [Quadratic.value, hlinear, hquadratic, of_decide_eq_true hconstant]
      simp
    case isFalse => exact nomatch h
  case h_2 => exact nomatch h

/-! ### Passes -/

def Between (lo hi : Option ℝ) (v : ℝ) : Prop := (∀ l ∈ lo, l ≤ v) ∧ ∀ h ∈ hi, v ≤ h

def Satisfies (lo hi : List (Option ℝ)) (rows : List E) (x : ℕ → ℝ) : Prop :=
  ∀ (k : ℕ) (e : E) (l h : Option ℝ), rows[k]? = some e → lo[k]? = some l → hi[k]? = some h →
    Between l h (value e x)

theorem satisfies_set {lo hi : List (Option ℝ)} {rows : List E} {x : ℕ → ℝ} {k : ℕ} {e e' : E}
    (he : rows[k]? = some e) (hvalue : value e' x = value e x) :
    Satisfies lo hi (rows.set k e') x ↔ Satisfies lo hi rows x := by
  have hk := (List.getElem?_eq_some_iff.mp he).1
  have hat : (rows.set k e')[k]? = some e' := List.getElem?_set_self hk
  constructor
  · intro h j d l m hd hl hm
    by_cases hkj : k = j
    · subst hkj
      obtain rfl := Option.some.inj (he.symm.trans hd)
      rw [← hvalue]
      exact h k e' l m hat hl hm
    · exact h j d l m (by rwa [List.getElem?_set_ne hkj]) hl hm
  · intro h j d l m hd hl hm
    by_cases hkj : k = j
    · subst hkj
      obtain rfl := Option.some.inj (hat.symm.trans hd)
      rw [hvalue]
      exact h k e l m he hl hm
    · exact h j d l m (by rwa [List.getElem?_set_ne hkj] at hd) hl hm

open Classical in
noncomputable def vanishing (rows : List E) : Finset ℕ :=
  (Finset.range rows.length).filter fun k => ∃ e, rows[k]? = some e ∧ ∀ x, value e x = 0

theorem mem_vanishing {rows : List E} {k : ℕ} :
    k ∈ vanishing rows ↔ ∃ e, rows[k]? = some e ∧ ∀ x, value e x = 0 := by
  classical
  rw [vanishing, Finset.mem_filter, Finset.mem_range]
  constructor
  · exact fun h => h.2
  · rintro ⟨e, he, hzero⟩
    exact ⟨(List.getElem?_eq_some_iff.mp he).1, e, he, hzero⟩

theorem card_vanishing_le (rows : List E) : (vanishing rows).card ≤ rows.length := by
  have hsubset : vanishing rows ⊆ Finset.range rows.length := by
    intro k hk
    obtain ⟨e, he, -⟩ := mem_vanishing.mp hk
    exact Finset.mem_range.mpr (List.getElem?_eq_some_iff.mp he).1
  calc (vanishing rows).card ≤ (Finset.range rows.length).card := Finset.card_le_card hsubset
    _ = rows.length := Finset.card_range _

theorem vanishing_set_subset {rows : List E} {k : ℕ} {e e' : E} (he : rows[k]? = some e)
    (hzero : (∀ x, value e x = 0) → ∀ x, value e' x = 0) : vanishing rows ⊆ vanishing (rows.set k e') := by
  intro j hj
  obtain ⟨d, hd, hvalue⟩ := mem_vanishing.mp hj
  rw [mem_vanishing]
  by_cases hkj : k = j
  · subst hkj
    obtain rfl := Option.some.inj (he.symm.trans hd)
    exact ⟨e', List.getElem?_set_self (List.getElem?_eq_some_iff.mp he).1, hzero hvalue⟩
  · exact ⟨d, by rwa [List.getElem?_set_ne hkj], hvalue⟩

/-- What the passes preserve: the rows with the variables that are zero say what the first rows say, and
there are no more such variables than rows spent on them. -/
structure Settling (lo hi : List (Option ℝ)) (columns : ℕ) (first : List E) (st : List E × Finset ℕ) : Prop where
  length : st.1.length = first.length
  inside : ∀ e ∈ st.1, ∀ i ∈ mentions e, i < columns
  zeros : ∀ i ∈ st.2, i < columns
  same : ∀ x, (Satisfies lo hi st.1 x ∧ ∀ i ∈ st.2, x i = 0) ↔ Satisfies lo hi first x
  rewritten : ∀ (k : ℕ) (e : E), st.1[k]? = some e → ∃ d, first[k]? = some d ∧
    ∀ x, (∀ i ∈ st.2, x i = 0) → value e x = value d x
  spent : st.2.card ≤ (vanishing st.1).card

section Step

variable {lo hi : List (Option ℝ)} {columns : ℕ} {first : List E} {st : List E × Finset ℕ}

/-- One row is rewritten, while no variable that was zero stops being so. -/
theorem Settling.rewritten_set (h : Settling lo hi columns first st) {k : ℕ} {e e' : E}
    (he : st.1[k]? = some e) {zero : Finset ℕ} (hzero : st.2 ⊆ zero)
    (hvalue : ∀ x, (∀ i ∈ zero, x i = 0) → value e' x = value e x) (j : ℕ) (c : E)
    (hc : (st.1.set k e')[j]? = some c) :
    ∃ d, first[j]? = some d ∧ ∀ x, (∀ i ∈ zero, x i = 0) → value c x = value d x := by
  by_cases hkj : k = j
  · subst hkj
    rw [List.getElem?_set_self (List.getElem?_eq_some_iff.mp he).1] at hc
    obtain rfl := Option.some.inj hc
    obtain ⟨d, hd, hsame⟩ := h.rewritten k e he
    exact ⟨d, hd, fun x hx => (hvalue x hx).trans (hsame x fun i hi => hx i (hzero hi))⟩
  · rw [List.getElem?_set_ne hkj] at hc
    obtain ⟨d, hd, hsame⟩ := h.rewritten j c hc
    exact ⟨d, hd, fun x hx => hsame x fun i hi => hx i (hzero hi)⟩

theorem Settling.reduce (h : Settling lo hi columns first st) {k : ℕ} {e : E} {q : Quadratic ℝ}
    (he : st.1[k]? = some e) (hq : recognized e = some q) :
    Settling lo hi columns first (st.1.set k (reduced st.2 q), st.2) := by
  obtain ⟨hvalue, -⟩ := recognized_spec hq
  have hreduced : ∀ x, (∀ i ∈ st.2, x i = 0) → value (reduced st.2 q : E) x = value e x := by
    intro x hzero
    rw [value_reduced, mask_eq hzero, hvalue]
  refine { length := ?_, inside := ?_, zeros := h.zeros, same := fun x => ?_
           rewritten := h.rewritten_set he (Finset.Subset.refl _) hreduced, spent := ?_ }
  · rw [List.length_set]
    exact h.length
  · intro d hd i hi
    rcases List.mem_or_eq_of_mem_set hd with hd | rfl
    · exact h.inside d hd i hi
    · exact h.inside e (List.mem_of_getElem? he) i (mentions_reduced hq hi)
  · rw [← h.same x]
    apply and_congr_left
    intro hzero
    exact satisfies_set he (hreduced x hzero)
  · apply h.spent.trans
    apply Finset.card_le_card
    apply vanishing_set_subset he
    intro hzero x
    rw [value_reduced, ← hvalue]
    exact hzero _

theorem Settling.prove (h : Settling lo hi columns first st) {k i : ℕ} {e : E} {q : Quadratic ℝ}
    (he : st.1[k]? = some e) (hq : recognized e = some q) (hi' : provedZero lo hi k q = some i) :
    Settling lo hi columns first (st.1.set k (Expressions.const 0), insert i st.2) := by
  obtain ⟨hvalue, hlinear, -⟩ := recognized_spec hq
  obtain ⟨hlo, hhi, c, hc, hmem, hterm⟩ := provedZero_spec hi'
  have hrow : ∀ x, value e x = c * x i := fun x => (hvalue x).trans (hterm x)
  have hk := (List.getElem?_eq_some_iff.mp he).1
  have hconst : ∀ x : ℕ → ℝ, x i = 0 → value (Expressions.const (0 : ℝ) : E) x = value e x := by
    intro x hx
    rw [value_const, hrow, hx, mul_zero]
  refine { length := ?_, inside := ?_, zeros := ?_, same := fun x => ?_
           rewritten := h.rewritten_set he (Finset.subset_insert i st.2) fun x hx =>
             hconst x (hx i (Finset.mem_insert_self i st.2))
           spent := ?_ }
  · rw [List.length_set]
    exact h.length
  · intro d hd j hj
    rcases List.mem_or_eq_of_mem_set hd with hd | rfl
    · exact h.inside d hd j hj
    · rw [mentions_const] at hj
      exact absurd hj (Set.notMem_empty j)
  · rw [Finset.forall_mem_insert]
    exact ⟨h.inside e (List.mem_of_getElem? he) i (hlinear _ hmem), h.zeros⟩
  · rw [← h.same x, Finset.forall_mem_insert]
    have hsame : x i = 0 →
        (Satisfies lo hi (st.1.set k (Expressions.const 0)) x ↔ Satisfies lo hi st.1 x) :=
      fun hx => satisfies_set he (hconst x hx)
    constructor
    · rintro ⟨hsatisfies, hx, hzero⟩
      exact ⟨(hsame hx).mp hsatisfies, hzero⟩
    · rintro ⟨hsatisfies, hzero⟩
      obtain ⟨hle, hge⟩ := hsatisfies k e _ _ he hlo hhi
      have hproduct : c * x i = 0 := by
        rw [← hrow]
        exact le_antisymm (hge 0 rfl) (hle 0 rfl)
      have hx : x i = 0 := (mul_eq_zero.mp hproduct).resolve_left hc
      exact ⟨(hsame hx).mpr hsatisfies, hx, hzero⟩
  · -- the row was not zero before
    have hnew : k ∉ vanishing st.1 := by
      rw [mem_vanishing]
      rintro ⟨d, hd, hzero⟩
      obtain rfl := Option.some.inj (he.symm.trans hd)
      have hone := hzero fun _ => 1
      rw [hrow, mul_one] at hone
      exact hc hone
    have hsubset : insert k (vanishing st.1) ⊆ vanishing (st.1.set k (Expressions.const 0)) := by
      apply Finset.insert_subset
      · exact mem_vanishing.mpr ⟨_, List.getElem?_set_self hk, fun x => value_const 0 x⟩
      · exact vanishing_set_subset he fun _ x => value_const 0 x
    have hcard := Finset.card_le_card hsubset
    rw [Finset.card_insert_of_notMem hnew] at hcard
    have hinsert := Finset.card_insert_le i st.2
    have hspent := h.spent
    dsimp only
    omega

theorem Settling.visitRow (h : Settling lo hi columns first st) (k : ℕ) :
    Settling lo hi columns first (visitRow lo hi st k) ∧ st.2 ⊆ (McOpf.visitRow lo hi st k).2 := by
  unfold McOpf.visitRow
  split
  · exact ⟨h, Finset.Subset.refl _⟩
  case h_2 q hread =>
    obtain ⟨e, he, hq⟩ := Option.bind_eq_some_iff.mp hread
    dsimp only
    set rows := if q.touches st.2 then st.1.set k (reduced st.2 q) else st.1 with hrows
    have hreduced : Settling lo hi columns first (rows, st.2) := by
      rw [hrows]
      split
      · exact h.reduce he hq
      · exact h
    split
    · exact ⟨hreduced, Finset.Subset.refl _⟩
    case h_2 q' hread' =>
      obtain ⟨e', he', hq'⟩ := Option.bind_eq_some_iff.mp hread'
      split
      case h_1 i hi' => exact ⟨hreduced.prove he' hq' hi', Finset.subset_insert _ _⟩
      case h_2 => exact ⟨hreduced, Finset.Subset.refl _⟩

theorem Settling.visitRows (h : Settling lo hi columns first st) :
    Settling lo hi columns first (visitRows lo hi st) ∧ st.2 ⊆ (McOpf.visitRows lo hi st).2 := by
  unfold McOpf.visitRows
  generalize List.range st.1.length = ks
  induction ks generalizing st with
  | nil => exact ⟨h, Finset.Subset.refl _⟩
  | cons k ks ih =>
    obtain ⟨hnext, hsubset⟩ := h.visitRow k
    obtain ⟨hlast, hrest⟩ := ih hnext
    exact ⟨hlast, hsubset.trans hrest⟩

theorem Settling.settle (h : Settling lo hi columns first st) {fuel : ℕ}
    (hfuel : first.length < st.2.card + fuel) :
    ∃ last, settle lo hi fuel st = some last ∧ Settling lo hi columns first last := by
  induction fuel generalizing st with
  | zero =>
    have hcard := card_vanishing_le st.1
    have hspent := h.spent
    have hlength := h.length
    omega
  | succ fuel ih =>
    obtain ⟨hnext, hsubset⟩ := h.visitRows
    rw [McOpf.settle]
    split
    · exact ⟨_, rfl, hnext⟩
    case isFalse hgrown =>
      have hle := Finset.card_le_card hsubset
      apply ih hnext
      omega

end Step

/-! ### Rows that are left -/

/-- The lists of rows go together, and so do those of columns. -/
structure Builder.Aligned (b : Builder E ℝ) : Prop where
  rowNames : b.rowNames.length = b.rows.length
  lo : b.lo.length = b.rows.length
  hi : b.hi.length = b.rows.length
  rowOrigins : b.rowOrigins.length = b.rows.length
  columns : b.names.length = b.start.length

def Builder.Feasible (b : Builder E ℝ) (x : ℕ → ℝ) : Prop := Satisfies b.lo b.hi b.rows x

/-- The lists are those of the entries. -/
structure Builder.Lists (b : Builder E ℝ) (es : List (RowEntry E ℝ)) : Prop where
  rows : b.rows = es.map (·.row)
  rowNames : b.rowNames = es.map (·.name)
  lo : b.lo = es.map (·.lo)
  hi : b.hi = es.map (·.hi)
  rowOrigins : b.rowOrigins = es.map (·.origin)

theorem Builder.Aligned.lists {b : Builder E ℝ} (h : b.Aligned) : b.Lists b.entries := by
  have hlength : b.entries.length = b.rows.length := by
    rw [Builder.entries, List.length_map, List.length_zip, List.length_zip, List.length_zip, List.length_zip,
      h.rowNames, h.lo, h.hi, h.rowOrigins, Nat.min_self, Nat.min_self, Nat.min_self, Nat.min_self]
  refine { rows := ?_, rowNames := ?_, lo := ?_, hi := ?_, rowOrigins := ?_ }
  · apply List.ext_getElem
    · rw [List.length_map, hlength]
    · intro k _ _
      simp [Builder.entries]
  · apply List.ext_getElem
    · rw [List.length_map, hlength, h.rowNames]
    · intro k _ _
      simp [Builder.entries]
  · apply List.ext_getElem
    · rw [List.length_map, hlength, h.lo]
    · intro k _ _
      simp [Builder.entries]
  · apply List.ext_getElem
    · rw [List.length_map, hlength, h.hi]
    · intro k _ _
      simp [Builder.entries]
  · apply List.ext_getElem
    · rw [List.length_map, hlength, h.rowOrigins]
    · intro k _ _
      simp [Builder.entries]

def RowEntry.Holds (r : RowEntry E ℝ) (x : ℕ → ℝ) : Prop := Between r.lo r.hi (value r.row x)

theorem Builder.Lists.feasible {b : Builder E ℝ} {es : List (RowEntry E ℝ)} (h : b.Lists es) (x : ℕ → ℝ) :
    b.Feasible x ↔ ∀ r ∈ es, r.Holds x := by
  rw [Builder.Feasible, h.rows, h.lo, h.hi]
  constructor
  · intro hall r hr
    obtain ⟨k, hk⟩ := List.mem_iff_getElem?.mp hr
    apply hall k r.row r.lo r.hi
    all_goals rw [List.getElem?_map, hk, Option.map_some]
  · intro hall k e l m he hl hm
    rw [List.getElem?_map] at he hl hm
    obtain ⟨r, hr, rfl⟩ := Option.map_eq_some_iff.mp he
    rw [hr] at hl hm
    obtain rfl := Option.some.inj hl
    obtain rfl := Option.some.inj hm
    exact hall r (List.mem_of_getElem? hr)

theorem RowEntry.holds_of_vacuous {r : RowEntry E ℝ} (h : r.vacuous = true) (x : ℕ → ℝ) : r.Holds x := by
  unfold RowEntry.vacuous at h
  simp only [Bool.and_eq_true] at h
  obtain ⟨⟨hlo, hhi⟩, hread⟩ := h
  obtain ⟨q, hq, hall⟩ := (Option.any_eq_true ..).mp hread
  simp only [Bool.and_eq_true, List.isEmpty_iff, Bool.not_eq_true'] at hall
  obtain ⟨⟨⟨hterms, hconstant⟩, hlinear⟩, hquadratic⟩ := hall
  have hzero : value r.row x = 0 := by
    rw [value_recognize r.row q x hq hterms, Quadratic.value, hlinear, hquadratic, of_decide_eq_true hconstant]
    simp
  rw [RowEntry.Holds, hzero]
  constructor
  · intro l hl
    rw [Option.all_eq_true] at hlo
    exact of_decide_eq_true (hlo l hl)
  · intro m hm
    rw [Option.all_eq_true] at hhi
    exact of_decide_eq_true (hhi m hm)

theorem Builder.Lists.sift {b : Builder E ℝ} {es : List (RowEntry E ℝ)} (h : b.Lists es) (r : RowEntry E ℝ) :
    (b.sift r).Lists (es ++ if r.vacuous then [] else [r]) := by
  unfold Builder.sift
  split
  · rw [List.append_nil]
    exact ⟨h.rows, h.rowNames, h.lo, h.hi, h.rowOrigins⟩
  · refine { rows := ?_, rowNames := ?_, lo := ?_, hi := ?_, rowOrigins := ?_ }
    all_goals rw [List.map_append, List.map_singleton]
    · rw [← h.rows]
      rfl
    · rw [← h.rowNames]
      rfl
    · rw [← h.lo]
      rfl
    · rw [← h.hi]
      rfl
    · rw [← h.rowOrigins]
      rfl

/-- What sifting changes beyond the rows. -/
structure Sifted (before after : Builder E ℝ) (omitted : List ℕ) : Prop where
  origins : after.origins = before.origins
  start : after.start = before.start
  names : after.names = before.names
  zeroColumns : after.zeroColumns = before.zeroColumns
  omitted : after.omitted = before.omitted ++ omitted.map fun origin => ⟨origin, .zeroReduction⟩

theorem foldl_sift (es : List (RowEntry E ℝ)) {b : Builder E ℝ} {kept : List (RowEntry E ℝ)} (h : b.Lists kept) :
    (es.foldl Builder.sift b).Lists (kept ++ es.filter fun r => !r.vacuous) ∧
      Sifted b (es.foldl Builder.sift b) ((es.filter fun r => r.vacuous).map (·.origin)) := by
  induction es generalizing b kept with
  | nil =>
    rw [List.filter_nil, List.filter_nil, List.append_nil]
    exact ⟨h, rfl, rfl, rfl, rfl, (List.append_nil _).symm⟩
  | cons r rest ih =>
    obtain ⟨hlists, hsifted⟩ := ih (h.sift r)
    rw [List.foldl_cons]
    cases hvacuous : r.vacuous with
    | true =>
      have hstep : b.sift r = { b with omitted := b.omitted ++ [⟨r.origin, .zeroReduction⟩] } := if_pos hvacuous
      rw [hvacuous, if_pos rfl, List.append_nil] at hlists
      rw [List.filter_cons_of_neg (by rw [hvacuous]; exact Bool.false_ne_true),
        List.filter_cons_of_pos hvacuous]
      refine ⟨hlists, ?_⟩
      rw [hstep] at hsifted ⊢
      refine ⟨hsifted.origins, hsifted.start, hsifted.names, hsifted.zeroColumns, hsifted.omitted.trans ?_⟩
      rw [List.map_cons, List.map_cons, List.append_assoc]
      rfl
    | false =>
      have hstep : b.sift r = b.keep r := if_neg (by rw [hvacuous]; exact Bool.false_ne_true)
      rw [hvacuous, if_neg Bool.false_ne_true, List.append_assoc, List.singleton_append] at hlists
      rw [List.filter_cons_of_pos (by rw [hvacuous]; rfl),
        List.filter_cons_of_neg (by rw [hvacuous]; exact Bool.false_ne_true)]
      refine ⟨hlists, ?_⟩
      rw [hstep] at hsifted ⊢
      exact ⟨hsifted.origins, hsifted.start, hsifted.names, hsifted.zeroColumns, hsifted.omitted⟩

/-! ### Rows for the variables -/

/-- What the rows that fix variables add. -/
structure Fixed (before after : Builder E ℝ) (zeros : List ℕ) : Prop where
  rows : after.rows = before.rows ++ zeros.map Expressions.var
  rowNames : after.rowNames =
    before.rowNames ++ zeros.map fun i => before.names.getD i "" ++ ":fixed_zero"
  lo : after.lo = before.lo ++ zeros.map fun _ => some 0
  hi : after.hi = before.hi ++ zeros.map fun _ => some 0
  rowOrigins : after.rowOrigins = before.rowOrigins ++ List.range' before.origins.length zeros.length
  origins : before.origins <+: after.origins
  omitted : after.omitted = before.omitted
  names : after.names = before.names
  start : after.start.length = before.start.length
  zeroColumns : after.zeroColumns = before.zeroColumns ++ zeros

theorem fixZero_spec {b : Builder E ℝ} (hcolumns : b.names.length = b.start.length) {i : ℕ}
    (hi : i < b.names.length) :
    ∃ b', b.fixZero i = some b' ∧ Fixed b b' [i] ∧ b'.origins.length = b.origins.length + 1 := by
  rw [Builder.fixZero, if_pos (hcolumns ▸ hi), List.getElem?_eq_getElem hi, Option.map_some]
  refine ⟨_, rfl, ?_, ?_⟩
  · refine { rows := rfl, rowNames := ?_, lo := rfl, hi := rfl, rowOrigins := rfl, origins := ?_, omitted := rfl
             names := rfl, start := List.length_set .., zeroColumns := rfl }
    · rw [List.map_singleton, List.getD_eq_getElem?_getD, List.getElem?_eq_getElem hi]
      rfl
    · rw [List.prefix_iff_getElem?]
      intro k hk
      rw [List.getElem?_modify_ne _ _ (Nat.ne_of_gt hk)]
      exact List.getElem?_append_left hk ▸ List.getElem?_eq_getElem hk
  · rw [List.length_modify]
    exact List.length_append

theorem foldlM_fixZero (zeros : List ℕ) {b : Builder E ℝ} (hcolumns : b.names.length = b.start.length)
    (hzeros : ∀ i ∈ zeros, i < b.names.length) :
    ∃ b', zeros.foldlM Builder.fixZero b = some b' ∧ Fixed b b' zeros := by
  induction zeros generalizing b with
  | nil =>
    refine ⟨b, rfl, ?_⟩
    exact { rows := (List.append_nil _).symm, rowNames := (List.append_nil _).symm, lo := (List.append_nil _).symm
            hi := (List.append_nil _).symm, rowOrigins := (List.append_nil _).symm
            origins := List.prefix_refl _, omitted := rfl, names := rfl, start := rfl
            zeroColumns := (List.append_nil _).symm }
  | cons i rest ih =>
    rw [List.forall_mem_cons] at hzeros
    obtain ⟨next, hnext, hfixed, horigins⟩ := fixZero_spec hcolumns hzeros.1
    obtain ⟨last, hlast, hrest⟩ := ih (b := next) (by rw [hfixed.names, hfixed.start, hcolumns])
      (by rw [hfixed.names]; exact hzeros.2)
    refine ⟨last, ?_, ?_⟩
    · rw [List.foldlM_cons, hnext]
      exact hlast
    · refine { rows := ?_, rowNames := ?_, lo := ?_, hi := ?_, rowOrigins := ?_, origins := ?_, omitted := ?_
               names := ?_, start := ?_, zeroColumns := ?_ }
      · rw [hrest.rows, hfixed.rows, List.append_assoc]
        rfl
      · rw [hrest.rowNames, hfixed.rowNames, hfixed.names, List.append_assoc]
        rfl
      · rw [hrest.lo, hfixed.lo, List.append_assoc]
        rfl
      · rw [hrest.hi, hfixed.hi, List.append_assoc]
        rfl
      · rw [hrest.rowOrigins, hfixed.rowOrigins, horigins, List.append_assoc, List.length_cons,
          List.range'_succ]
        rfl
      · exact hfixed.origins.trans hrest.origins
      · rw [hrest.omitted, hfixed.omitted]
      · rw [hrest.names, hfixed.names]
      · rw [hrest.start, hfixed.start]
      · rw [hrest.zeroColumns, hfixed.zeroColumns, List.append_assoc]
        rfl

/-! ### The whole pass -/

theorem between_zero (v : ℝ) : Between (some 0) (some 0) v ↔ v = 0 := by
  constructor
  · rintro ⟨hle, hge⟩
    exact le_antisymm (hge 0 rfl) (hle 0 rfl)
  · rintro rfl
    exact ⟨fun l hl => (Option.some.inj hl).ge, fun m hm => (Option.some.inj hm).le⟩

/-- The row that fixes a variable at zero. -/
def fixedRow (names : List String) (i origin : ℕ) : RowEntry E ℝ :=
  ⟨Expressions.var i, names.getD i "" ++ ":fixed_zero", some 0, some 0, origin⟩

theorem fixedRow_holds (names : List String) (i origin : ℕ) (x : ℕ → ℝ) :
    (fixedRow names i origin : RowEntry E ℝ).Holds x ↔ x i = 0 := by
  rw [RowEntry.Holds, fixedRow, value_var, between_zero]

/-- The rows for the variables, whose origins are new. -/
def fixedRows (names : List String) (origin : ℕ) (zeros : List ℕ) : List (RowEntry E ℝ) :=
  (zeros.zip (List.range' origin zeros.length)).map fun (i, origin) => fixedRow names i origin

theorem fixedRows_hold (names : List String) (origin : ℕ) (zeros : List ℕ) (x : ℕ → ℝ) :
    (∀ r ∈ (fixedRows names origin zeros : List (RowEntry E ℝ)), r.Holds x) ↔
      ∀ i ∈ zeros, x i = 0 := by
  have hzip : (zeros.zip (List.range' origin zeros.length)).map Prod.fst = zeros :=
    List.map_fst_zip (by rw [List.length_range'])
  rw [fixedRows, List.forall_mem_map]
  constructor
  · intro h i hi
    rw [← hzip] at hi
    obtain ⟨p, hp, rfl⟩ := List.mem_map.mp hi
    exact (fixedRow_holds names p.1 p.2 x).mp (h p hp)
  · intro h p hp
    exact (fixedRow_holds names p.1 p.2 x).mpr (h p.1 (List.of_mem_zip hp).1)

theorem Fixed.lists {before after : Builder E ℝ} {zeros : List ℕ} {es : List (RowEntry E ℝ)}
    (hlists : before.Lists es) (h : Fixed before after zeros) :
    after.Lists (es ++ fixedRows before.names before.origins.length zeros) := by
  have hlength : zeros.length ≤ (List.range' before.origins.length zeros.length).length := by
    rw [List.length_range']
  have hzip : zeros = (zeros.zip (List.range' before.origins.length zeros.length)).map Prod.fst :=
    (List.map_fst_zip hlength).symm
  refine { rows := ?_, rowNames := ?_, lo := ?_, hi := ?_, rowOrigins := ?_ }
  all_goals rw [fixedRows, List.map_append, List.map_map]
  · rw [h.rows, hlists.rows]
    nth_rewrite 1 [hzip]
    rw [List.map_map]
    rfl
  · rw [h.rowNames, hlists.rowNames]
    nth_rewrite 1 [hzip]
    rw [List.map_map]
    rfl
  · rw [h.lo, hlists.lo]
    nth_rewrite 1 [hzip]
    rw [List.map_map]
    rfl
  · rw [h.hi, hlists.hi]
    nth_rewrite 1 [hzip]
    rw [List.map_map]
    rfl
  · rw [h.rowOrigins, hlists.rowOrigins]
    congr 1
    exact (List.map_snd_zip (by rw [List.length_range'])).symm

theorem Builder.Lists.aligned {b : Builder E ℝ} {es : List (RowEntry E ℝ)} (h : b.Lists es)
    (hcolumns : b.names.length = b.start.length) : b.Aligned where
  rowNames := by rw [h.rowNames, h.rows, List.length_map, List.length_map]
  lo := by rw [h.lo, h.rows, List.length_map, List.length_map]
  hi := by rw [h.hi, h.rows, List.length_map, List.length_map]
  rowOrigins := by rw [h.rowOrigins, h.rows, List.length_map, List.length_map]
  columns := hcolumns

/-- A row keeps its name, its bounds and its origin, and says what it said wherever the variables
are zero. -/
structure Rewrites (zeros : List ℕ) (r r' : RowEntry E ℝ) : Prop where
  name : r'.name = r.name
  lo : r'.lo = r.lo
  hi : r'.hi = r.hi
  origin : r'.origin = r.origin
  row : ∀ x, (∀ i ∈ zeros, x i = 0) → value r'.row x = value r.row x

/-- What propagation makes of a problem. Each row is rewritten; the rows that say nothing any more
are left out, the others stay in order, and one row for each variable follows them. -/
structure Propagated (b b' : Builder E ℝ) (settled : List (RowEntry E ℝ)) (zeros : List ℕ) :
    Prop where
  rewritten : List.Forall₂ (Rewrites zeros) b.entries settled
  rows : b'.Lists (settled.filter (fun r => !r.vacuous) ++ fixedRows b.names b.origins.length zeros)
  omitted : b'.omitted =
    b.omitted ++ (settled.filter fun r => r.vacuous).map fun r => ⟨r.origin, .zeroReduction⟩
  accounted : ((settled.filter fun r => !r.vacuous).map (·.origin) ++
    (settled.filter fun r => r.vacuous).map (·.origin)).Perm b.rowOrigins
  columns : zeros.Pairwise (· < ·) ∧ ∀ i ∈ zeros, i < b.names.length
  zeroColumns : b'.zeroColumns = b.zeroColumns ++ zeros
  names : b'.names = b.names
  start : b'.start.length = b.start.length
  origins : b.origins <+: b'.origins
  aligned : b'.Aligned
  feasible : ∀ x, b'.Feasible x ↔ b.Feasible x

theorem entries_rewritten {b : Builder E ℝ} {rows : List E}
    (hlength : rows.length = b.rows.length) {zero : Finset ℕ}
    (hrows : ∀ (k : ℕ) (e : E), rows[k]? = some e → ∃ d, b.rows[k]? = some d ∧
      ∀ x, (∀ i ∈ zero, x i = 0) → value e x = value d x) :
    List.Forall₂ (Rewrites (zero.sort (· ≤ ·))) b.entries ({ b with rows } : Builder E ℝ).entries := by
  rw [List.forall₂_iff_get]
  have hsame : b.entries.length = ({ b with rows } : Builder E ℝ).entries.length := by
    simp [Builder.entries, hlength]
  refine ⟨hsame, fun k hk hk' => ?_⟩
  have hentry : k < rows.length := by
    rw [hsame] at hk
    simp only [Builder.entries, List.length_map, List.length_zip] at hk
    omega
  obtain ⟨d, hd, hvalue⟩ := hrows k rows[k] (List.getElem?_eq_getElem hentry)
  obtain ⟨hlt, rfl⟩ := List.getElem?_eq_some_iff.mp hd
  constructor
  case row =>
    intro x hx
    have hzero : ∀ i ∈ zero, x i = 0 := fun i hi => hx i ((Finset.mem_sort _).mpr hi)
    simpa [Builder.entries] using hvalue x hzero
  all_goals simp [Builder.entries]

/-- Propagating zeros ends and preserves the problem: `Propagated` says which row becomes which. -/
theorem propagate_zeros_preserves (b : Builder E ℝ) (haligned : b.Aligned)
    (hinside : ∀ e ∈ b.rows, ∀ i ∈ mentions e, i < b.names.length) (fuel : ℕ)
    (hfuel : b.rows.length < fuel) :
    ∃ b' settled zeros, b.propagateZeros fuel = some b' ∧ Propagated b b' settled zeros := by
  have hstart : Settling b.lo b.hi b.names.length b.rows (b.rows, ∅) :=
    { length := rfl, inside := hinside, zeros := fun i hi => absurd hi (Finset.notMem_empty i)
      same := fun x => ⟨fun h => h.1, fun h => ⟨h, fun i hi => absurd hi (Finset.notMem_empty i)⟩⟩
      rewritten := fun k e he => ⟨e, he, fun x _ => rfl⟩
      spent := Nat.zero_le _ }
  have hbound : b.rows.length < (∅ : Finset ℕ).card + fuel := by
    rw [Finset.card_empty]
    omega
  obtain ⟨⟨rows, zero⟩, hsettle, hsettled⟩ := hstart.settle hbound
  set settledB : Builder E ℝ := { b with rows := rows } with hsettledB
  have hlength : rows.length = b.rows.length := hsettled.length
  have haligned' : settledB.Aligned :=
    { rowNames := haligned.rowNames.trans hlength.symm, lo := haligned.lo.trans hlength.symm
      hi := haligned.hi.trans hlength.symm, rowOrigins := haligned.rowOrigins.trans hlength.symm
      columns := haligned.columns }
  have hentries := haligned'.lists
  have hrewritten := entries_rewritten hlength hsettled.rewritten
  set es := settledB.entries
  have hempty : ({ settledB with rows := [], rowNames := [], lo := [], hi := [], rowOrigins := [] } :
      Builder E ℝ).Lists [] := ⟨rfl, rfl, rfl, rfl, rfl⟩
  obtain ⟨hkept, hsifted⟩ := foldl_sift es hempty
  rw [List.nil_append] at hkept
  change settledB.siftRows.Lists _ at hkept
  change Sifted _ settledB.siftRows _ at hsifted
  have horigins : settledB.siftRows.origins = b.origins := hsifted.origins
  have hnames : settledB.siftRows.names = b.names := hsifted.names
  obtain ⟨b', hb', hfixed⟩ := foldlM_fixZero (zero.sort (· ≤ ·)) (b := settledB.siftRows)
    (by rw [hsifted.names, hsifted.start]; exact haligned.columns)
    (by
      rw [hsifted.names]
      exact fun i hi => hsettled.zeros i ((Finset.mem_sort _).mp hi))
  have hlists := hfixed.lists hkept
  rw [horigins, hnames] at hlists
  refine ⟨b', es, zero.sort (· ≤ ·), ?_, ?_⟩
  · rw [Builder.propagateZeros, hsettle, Option.bind_some]
    exact hb'
  constructor
  case rewritten => exact hrewritten
  case rows => exact hlists
  case omitted =>
    have homitted := hfixed.omitted.trans hsifted.omitted
    rwa [List.map_map] at homitted
  case accounted =>
    have hperm : ((es.filter fun r => !r.vacuous) ++ es.filter fun r => r.vacuous).Perm es :=
      List.perm_append_comm.trans (List.filter_append_perm (fun r => r.vacuous) es)
    have hsame := hperm.map (·.origin)
    rw [List.map_append] at hsame
    exact hsame.trans (List.Perm.of_eq hentries.rowOrigins.symm)
  case columns =>
    exact ⟨(Finset.sortedLT_sort zero).pairwise, fun i hi => hsettled.zeros i ((Finset.mem_sort _).mp hi)⟩
  case zeroColumns => rw [hfixed.zeroColumns, hsifted.zeroColumns]
  case names => exact hfixed.names.trans hnames
  case start => exact hfixed.start.trans (congrArg List.length hsifted.start)
  case origins => exact horigins ▸ hfixed.origins
  case aligned =>
    apply hlists.aligned
    rw [hfixed.names, hfixed.start, hsifted.names, hsifted.start]
    exact haligned.columns
  case feasible =>
    intro x
    -- the vacuous rows hold everywhere
    have hsplit : (∀ r ∈ es.filter fun r => !r.vacuous, r.Holds x) ↔ ∀ r ∈ es, r.Holds x := by
      constructor
      · intro hall r hr
        cases hvacuous : r.vacuous with
        | true => exact RowEntry.holds_of_vacuous hvacuous x
        | false => exact hall r (List.mem_filter.mpr ⟨hr, by rw [hvacuous]; rfl⟩)
      · exact fun hall r hr => hall r (List.mem_filter.mp hr).1
    have hzeros : (∀ i ∈ zero.sort (· ≤ ·), x i = 0) ↔ ∀ i ∈ zero, x i = 0 :=
      forall_congr' fun i => by rw [Finset.mem_sort]
    rw [hlists.feasible x, List.forall_mem_append, hsplit, fixedRows_hold, ← hentries.feasible x,
      hzeros]
    exact hsettled.same x

end Exact

section Sample

@[reducible] local instance zerosText : DecimalText ℝ := ⟨fun _ => ""⟩

/-- Polynomials that are read term by term. -/
inductive PlainExpr where
  | const (c : ℝ)
  | var (i : ℕ)
  | add (a b : PlainExpr)
  | mul (a b : PlainExpr)

namespace PlainExpr

noncomputable def read : PlainExpr → Option (Quadratic ℝ)
  | const c => some ⟨c, [], [], false⟩
  | var i => some ⟨0, [(i, 1)], [], false⟩
  | add a b => a.read.bind fun p => b.read.map fun q =>
    ⟨p.constant + q.constant, p.linear ++ q.linear, p.quadratic ++ q.quadratic, false⟩
  | mul (const c) (var i) => some ⟨0, [(i, c)], [], false⟩
  | mul (const c) (mul (var i) (var j)) => some ⟨0, [], [((i, j), c)], false⟩
  | mul _ _ => none

noncomputable instance : Expressions PlainExpr ℝ where
  const := const
  var := var
  sum es := es.foldr add (const 0)
  mul := mul
  recognize := read

def at' (x : ℕ → ℝ) : PlainExpr → ℝ
  | const c => c
  | var i => x i
  | add a b => a.at' x + b.at' x
  | mul a b => a.at' x * b.at' x

def columns : PlainExpr → Set ℕ
  | const _ => ∅
  | var i => {i}
  | add a b => a.columns ∪ b.columns
  | mul a b => a.columns ∪ b.columns

theorem at_foldr (es : List PlainExpr) (x : ℕ → ℝ) :
    at' x (es.foldr add (const 0)) = (es.map (at' x)).sum := by
  induction es with
  | nil => rfl
  | cons e rest ih =>
    rw [List.map_cons, List.sum_cons, ← ih]
    rfl

theorem columns_foldr (es : List PlainExpr) (i : ℕ) :
    i ∈ columns (es.foldr add (const 0)) ↔ ∃ e ∈ es, i ∈ columns e := by
  induction es with
  | nil => simp [columns]
  | cons e rest ih =>
    rw [List.foldr_cons, columns, Set.mem_union, ih]
    simp

theorem read_spec (e : PlainExpr) (q : Quadratic ℝ) (h : e.read = some q) :
    (∀ x, at' x e = q.value x) ∧ (∀ t ∈ q.linear, t.1 ∈ e.columns) ∧
      ∀ t ∈ q.quadratic, t.1.1 ∈ e.columns ∧ t.1.2 ∈ e.columns := by
  fun_induction read e generalizing q with
  | case1 c =>
    obtain rfl := Option.some.inj h
    simp [at', Quadratic.value]
  | case2 i =>
    obtain rfl := Option.some.inj h
    simp [at', Quadratic.value, columns]
  | case3 a b iha ihb =>
    obtain ⟨p, hp, hrest⟩ := Option.bind_eq_some_iff.mp h
    obtain ⟨r, hr, rfl⟩ := Option.map_eq_some_iff.mp hrest
    obtain ⟨hvalue, hlinear, hquadratic⟩ := iha p hp
    obtain ⟨hvalue', hlinear', hquadratic'⟩ := ihb r hr
    refine ⟨fun x => ?_, fun t ht => ?_, fun t ht => ?_⟩
    · rw [at', hvalue, hvalue', Quadratic.value, Quadratic.value, Quadratic.value, List.map_append,
        List.sum_append, List.map_append, List.sum_append]
      ring
    · rcases List.mem_append.mp ht with ht | ht
      · exact .inl (hlinear t ht)
      · exact .inr (hlinear' t ht)
    · rcases List.mem_append.mp ht with ht | ht
      · exact ⟨.inl (hquadratic t ht).1, .inl (hquadratic t ht).2⟩
      · exact ⟨.inr (hquadratic' t ht).1, .inr (hquadratic' t ht).2⟩
  | case4 c i =>
    obtain rfl := Option.some.inj h
    simp [at', Quadratic.value, columns]
  | case5 c i j =>
    obtain rfl := Option.some.inj h
    simp [at', Quadratic.value, columns]
  | case6 => exact nomatch h

noncomputable instance : Meaning PlainExpr where
  value e x := at' x e
  mentions := columns
  value_const _ _ := rfl
  value_var _ _ := rfl
  value_sum es x := at_foldr es x
  value_mul _ _ _ := rfl
  mentions_const _ := rfl
  mentions_var _ := rfl
  mentions_sum es i := columns_foldr es i
  mentions_mul _ _ := rfl
  value_recognize e q x h _ := (read_spec e q h).1 x
  mentions_recognize e q h _ := (read_spec e q h).2

end PlainExpr

/-- A row that proves the first column to be zero, one that mentions it and one that does not. -/
noncomputable def fixedPower : Builder PlainExpr ℝ where
  origins := [⟨0, "balance", false, none⟩, ⟨1, "limit", false, none⟩, ⟨2, "cap", false, none⟩]
  rowOrigins := [0, 1, 2]
  omitted := []
  zeroColumns := []
  start := [1, 2]
  names := ["p", "q"]
  rows := [.mul (.const 2) (.var 0), .add (.var 0) (.var 1), .var 1]
  rowNames := ["balance", "limit", "cap"]
  lo := [some 0, none, some 0]
  hi := [some 0, some 1, none]

theorem propagate_zeros_preserves_power : ∃ b' settled zeros,
    fixedPower.propagateZeros 4 = some b' ∧ Propagated fixedPower b' settled zeros := by
  have hinside : ∀ e ∈ fixedPower.rows, ∀ i ∈ Meaning.mentions e, i < fixedPower.names.length := by
    intro e he i hi
    change i < 2
    simp only [fixedPower, List.mem_cons, List.not_mem_nil, or_false] at he
    rcases he with rfl | rfl | rfl
    all_goals
      simp only [Meaning.mentions, PlainExpr.columns, Set.empty_union, Set.mem_union,
        Set.mem_singleton_iff] at hi
      omega
  exact propagate_zeros_preserves fixedPower ⟨rfl, rfl, rfl, rfl, rfl⟩ hinside 4 (by decide)

end Sample

end Tellegen.McOpf
