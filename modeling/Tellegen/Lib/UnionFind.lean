import Mathlib.Data.List.Basic
import Mathlib.Logic.Function.Iterate
import Mathlib.Order.Basic
import Mathlib.Data.Nat.Basic
import Tellegen.Lib.Classes

/-!
Union-find with path halving, as a forest of parent pointers. Elements are of
any type; every element starts as a root. A path has at most as many steps as
links were made, so `height` bounds the search for a root.
-/

set_option linter.unusedSectionVars false

namespace UnionFind

variable {α : Type}

/-- Ranks fall along a path and end at zero. -/
structure Ranked (parent : α → α) (rank : α → ℕ) : Prop where
  root : ∀ x, parent x = x → rank x = 0
  step : ∀ x, parent x ≠ x → rank (parent x) < rank x

end UnionFind

structure UnionFind (α : Type) where
  parent : α → α
  height : ℕ
  ranked : ∃ rank : α → ℕ, UnionFind.Ranked parent rank ∧ ∀ x, rank x ≤ height

namespace UnionFind

variable {α : Type}

def new (α : Type) : UnionFind α where
  parent := id
  height := 0
  ranked := ⟨fun _ => 0, ⟨fun _ _ => rfl, fun _ h => absurd rfl h⟩, fun _ => Nat.le_refl 0⟩

/-- The end of the path from an element. -/
def root (uf : UnionFind α) (x : α) : α := uf.parent^[uf.height] x

def Same (uf : UnionFind α) (x y : α) : Prop := uf.root x = uf.root y

/-! ### Roots -/

theorem iterate_eq_of_rank_le {parent : α → α} {rank : α → ℕ} (hranked : Ranked parent rank)
    (k : ℕ) (x : α) (hrank : rank x ≤ k) : parent (parent^[k] x) = parent^[k] x := by
  induction k generalizing x with
  | zero =>
    by_contra hstep
    have hlt := hranked.step x hstep
    omega
  | succ k ih =>
    rw [Function.iterate_succ_apply]
    apply ih
    by_cases hroot : parent x = x
    · rw [hroot, hranked.root x hroot]
      exact Nat.zero_le k
    · have hlt := hranked.step x hroot
      omega

@[simp] theorem parent_root (uf : UnionFind α) (x : α) : uf.parent (uf.root x) = uf.root x := by
  obtain ⟨rank, hranked, hheight⟩ := uf.ranked
  exact iterate_eq_of_rank_le hranked uf.height x (hheight x)

theorem root_of_parent_eq {uf : UnionFind α} {x : α} (hroot : uf.parent x = x) : uf.root x = x :=
  Function.iterate_fixed hroot uf.height

theorem root_eq_iff {uf : UnionFind α} {x : α} : uf.root x = x ↔ uf.parent x = x := by
  constructor
  · intro h
    rw [← h]
    exact uf.parent_root x
  · exact root_of_parent_eq

@[simp] theorem root_root (uf : UnionFind α) (x : α) : uf.root (uf.root x) = uf.root x :=
  root_of_parent_eq (uf.parent_root x)

/-- A map that follows the pointers and fixes the roots is the root map. -/
theorem root_unique {uf : UnionFind α} {f : α → α} (hstep : ∀ x, f (uf.parent x) = f x)
    (hroot : ∀ x, uf.parent x = x → f x = x) (x : α) : uf.root x = f x := by
  have hpath : ∀ (k : ℕ) (y : α), f (uf.parent^[k] y) = f y := by
    intro k
    induction k with
    | zero => exact fun _ => rfl
    | succ k ih =>
      intro y
      rw [Function.iterate_succ_apply, ih, hstep]
  rw [← hpath uf.height x]
  exact (hroot _ (uf.parent_root x)).symm

@[simp] theorem root_parent (uf : UnionFind α) (x : α) : uf.root (uf.parent x) = uf.root x := by
  simp only [root]
  rw [← Function.iterate_succ_apply, Function.iterate_succ_apply']
  exact uf.parent_root x

@[simp] theorem root_new (x : α) : (new α).root x = x := root_of_parent_eq rfl

/-! ### Finding -/

variable [DecidableEq α]

theorem Ranked.halve {parent : α → α} {rank : α → ℕ} (hranked : Ranked parent rank) (x : α) :
    Ranked (Function.update parent x (parent (parent x))) rank := by
  constructor
  case root =>
    intro y hy
    by_cases hyx : y = x
    · subst hyx
      rw [Function.update_self] at hy
      by_contra hrank
      have hne : parent y ≠ y := fun h => hrank (hranked.root y h)
      have hlt := hranked.step y hne
      by_cases hnext : parent (parent y) = parent y
      · exact hne (hnext.symm.trans hy)
      · have hlt' := hranked.step (parent y) hnext
        rw [hy] at hlt'
        omega
    · rw [Function.update_of_ne hyx] at hy
      exact hranked.root y hy
  case step =>
    intro y hy
    by_cases hyx : y = x
    · subst hyx
      rw [Function.update_self] at hy ⊢
      have hne : parent y ≠ y := by
        intro h
        rw [h, h] at hy
        exact hy rfl
      have hlt := hranked.step y hne
      by_cases hnext : parent (parent y) = parent y
      · rwa [hnext]
      · exact Nat.lt_trans (hranked.step (parent y) hnext) hlt
    · rw [Function.update_of_ne hyx] at hy ⊢
      exact hranked.step y hy

def halve (uf : UnionFind α) (x : α) : UnionFind α where
  parent := Function.update uf.parent x (uf.parent (uf.parent x))
  height := uf.height
  ranked := by
    obtain ⟨rank, hranked, hheight⟩ := uf.ranked
    exact ⟨rank, hranked.halve x, hheight⟩

@[simp] theorem root_halve (uf : UnionFind α) (x y : α) : (uf.halve x).root y = uf.root y := by
  apply root_unique
  · intro z
    by_cases hzx : z = x
    · subst hzx
      simp [halve]
    · simp [halve, Function.update_of_ne hzx]
  · intro z hz
    obtain ⟨rank, hranked, -⟩ := uf.ranked
    have hrank : rank z = 0 := (hranked.halve x).root z hz
    apply root_of_parent_eq
    by_contra hne
    have hlt := hranked.step z hne
    omega

def findLoop : ℕ → UnionFind α → α → UnionFind α × α
  | 0, uf, node => (uf, node)
  | fuel + 1, uf, node =>
    if uf.parent node = node then (uf, node)
    else findLoop fuel (uf.halve node) ((uf.halve node).parent node)

/-- The root of an element, and the forest with its path halved. -/
def find (uf : UnionFind α) (node : α) : UnionFind α × α := findLoop uf.height uf node

theorem findLoop_spec (fuel : ℕ) (uf : UnionFind α) (node : α) (rank : α → ℕ)
    (hranked : Ranked uf.parent rank) (hrank : rank node ≤ fuel) :
    (findLoop fuel uf node).2 = uf.root node ∧
      ∀ x, (findLoop fuel uf node).1.root x = uf.root x := by
  induction fuel generalizing uf node with
  | zero =>
    have hroot : uf.parent node = node := by
      by_contra hne
      have hlt := hranked.step node hne
      omega
    exact ⟨(root_of_parent_eq hroot).symm, fun _ => rfl⟩
  | succ fuel ih =>
    unfold findLoop
    split
    case isTrue hroot => exact ⟨(root_of_parent_eq hroot).symm, fun _ => rfl⟩
    case isFalse hne =>
      have hnext : rank ((uf.halve node).parent node) ≤ fuel := by
        have hlt := hranked.step node hne
        simp only [halve, Function.update_self]
        by_cases hparent : uf.parent (uf.parent node) = uf.parent node
        · rw [hparent]
          omega
        · have hlt' := hranked.step _ hparent
          omega
      obtain ⟨hfound, hsame⟩ := ih (uf.halve node) _ (hranked.halve node) hnext
      constructor
      · rw [hfound, root_parent, root_halve]
      · intro x
        rw [hsame, root_halve]

@[simp] theorem find_snd (uf : UnionFind α) (node : α) : (uf.find node).2 = uf.root node := by
  obtain ⟨rank, hranked, hheight⟩ := uf.ranked
  exact (findLoop_spec uf.height uf node rank hranked (hheight node)).1

@[simp] theorem root_find (uf : UnionFind α) (node x : α) :
    (uf.find node).1.root x = uf.root x := by
  obtain ⟨rank, hranked, hheight⟩ := uf.ranked
  exact (findLoop_spec uf.height uf node rank hranked (hheight node)).2 x

/-- The loop has ended by its own condition, and more steps would change nothing. -/
theorem findLoop_exit (fuel : ℕ) (uf : UnionFind α) (node : α) (rank : α → ℕ)
    (hranked : Ranked uf.parent rank) (hrank : rank node ≤ fuel) :
    (findLoop fuel uf node).1.parent (findLoop fuel uf node).2 = (findLoop fuel uf node).2 ∧
      ∀ more, fuel ≤ more → findLoop more uf node = findLoop fuel uf node := by
  induction fuel generalizing uf node rank with
  | zero =>
    have hroot : uf.parent node = node := by
      by_contra hne
      have hlt := hranked.step node hne
      omega
    refine ⟨hroot, fun more _ => ?_⟩
    cases more with
    | zero => rfl
    | succ more =>
      rw [findLoop, findLoop, if_pos hroot]
  | succ fuel ih =>
    by_cases hroot : uf.parent node = node
    · refine ⟨?_, fun more _ => ?_⟩
      · rw [findLoop, if_pos hroot]
        exact hroot
      · cases more with
        | zero => rw [findLoop, findLoop, if_pos hroot]
        | succ more => rw [findLoop, findLoop, if_pos hroot, if_pos hroot]
    · have hnext : rank ((uf.halve node).parent node) ≤ fuel := by
        have hlt := hranked.step node hroot
        simp only [halve, Function.update_self]
        by_cases hparent : uf.parent (uf.parent node) = uf.parent node
        · rw [hparent]
          omega
        · have hlt' := hranked.step _ hparent
          omega
      obtain ⟨hexit, hmore⟩ := ih (uf.halve node) _ rank (hranked.halve node) hnext
      refine ⟨?_, fun more hle => ?_⟩
      · rw [findLoop, if_neg hroot]
        exact hexit
      · cases more with
        | zero => omega
        | succ more =>
          rw [findLoop, findLoop, if_neg hroot, if_neg hroot]
          exact hmore more (by omega)

/-- The search from any element ends at a root after finitely many steps. -/
theorem find_exit (uf : UnionFind α) (node : α) :
    (uf.find node).1.parent (uf.find node).2 = (uf.find node).2 ∧
      ∀ fuel, uf.height ≤ fuel → findLoop fuel uf node = uf.find node := by
  obtain ⟨rank, hranked, hheight⟩ := uf.ranked
  exact findLoop_exit uf.height uf node rank hranked (hheight node)

/-! ### Linking -/

/-- Hangs one root below another. -/
def link (uf : UnionFind α) (above below : α) (hne : above ≠ below)
    (habove : uf.root above = above) (hbelow : uf.root below = below) : UnionFind α where
  parent := Function.update uf.parent below above
  height := uf.height + 1
  ranked := by
    obtain ⟨rank, hranked, hheight⟩ := uf.ranked
    refine ⟨fun x => if uf.root x = below then rank x + 1 else rank x, ⟨?_, ?_⟩, ?_⟩
    · intro x hx
      by_cases hxb : x = below
      · subst hxb
        rw [Function.update_self] at hx
        exact absurd hx hne
      · rw [Function.update_of_ne hxb] at hx
        rw [if_neg (by rwa [root_of_parent_eq hx])]
        exact hranked.root x hx
    · intro x hx
      by_cases hxb : x = below
      · subst hxb
        have hzero := hranked.root above (root_eq_iff.mp habove)
        simp only [Function.update_self, habove, hne, hbelow, if_false, if_true]
        omega
      · rw [Function.update_of_ne hxb] at hx ⊢
        have hlt := hranked.step x hx
        simp only [root_parent]
        split <;> omega
    · intro x
      have hle := hheight x
      dsimp only
      split <;> omega

theorem root_link (uf : UnionFind α) {above below : α} (hne : above ≠ below)
    (habove : uf.root above = above) (hbelow : uf.root below = below) (x : α) :
    (uf.link above below hne habove hbelow).root x =
      if uf.root x = below then above else uf.root x := by
  apply root_unique
  · intro y
    by_cases hyb : y = below
    · subst hyb
      simp [link, habove, hbelow, hne]
    · simp [link, Function.update_of_ne hyb]
  · intro y hy
    by_cases hyb : y = below
    · subst hyb
      simp only [link, Function.update_self] at hy
      exact absurd hy hne
    · simp only [link, Function.update_of_ne hyb] at hy
      rw [root_of_parent_eq hy, if_neg hyb]

/-- Hangs the root of `b` below that of `a`. -/
def union (uf : UnionFind α) (a b : α) : UnionFind α :=
  let first := uf.find a
  let second := first.1.find b
  if hne : first.2 = second.2 then second.1
  else second.1.link first.2 second.2 hne (by simp [first, second]) (by simp [first, second])

theorem root_union (uf : UnionFind α) (a b x : α) :
    (uf.union a b).root x = if uf.root x = uf.root b then uf.root a else uf.root x := by
  unfold union
  dsimp only
  split
  case isTrue heq =>
    simp only [find_snd, root_find] at heq
    simp only [root_find]
    split
    case isTrue hx => rw [hx, heq]
    case isFalse => rfl
  case isFalse => simp only [root_link, find_snd, root_find]

/-- Hangs the root of `a` below that of `b`. -/
def join (uf : UnionFind α) (a b : α) : UnionFind α :=
  let first := uf.find a
  let second := first.1.find b
  if hne : first.2 = second.2 then second.1
  else second.1.link second.2 first.2 (Ne.symm hne) (by simp [first, second]) (by simp [first, second])

theorem root_join (uf : UnionFind α) (a b x : α) :
    (uf.join a b).root x = if uf.root x = uf.root a then uf.root b else uf.root x := by
  unfold join
  dsimp only
  split
  case isTrue heq =>
    simp only [find_snd, root_find] at heq
    simp only [root_find]
    split
    case isTrue hx => rw [hx, heq]
    case isFalse => rfl
  case isFalse => simp only [root_link, find_snd, root_find]

/-! ### Classes -/

/-- The classes of a forest are those that a relation generates. -/
def Represents (uf : UnionFind α) (R : α → α → Prop) : Prop :=
  ∀ x y, uf.Same x y ↔ Relation.EqvGen R x y

theorem represents_new : (new α).Represents fun _ _ => False := by
  intro x y
  constructor
  · intro h
    simp only [Same, root_new] at h
    rw [h]
    exact .refl y
  · intro h
    exact h.apply_eq fun _ _ hnone => hnone.elim

theorem Represents.eqvGen_root {uf : UnionFind α} {R : α → α → Prop} (h : uf.Represents R) (x : α) :
    Relation.EqvGen R x (uf.root x) :=
  (h x (uf.root x)).mp (uf.root_root x).symm

theorem Represents.union {uf : UnionFind α} {R : α → α → Prop} (h : uf.Represents R) (a b : α) :
    (uf.union a b).Represents fun x y => R x y ∨ (x = a ∧ y = b) := by
  intro x y
  have hold : ∀ {u v}, Relation.EqvGen R u v →
      Relation.EqvGen (fun x y => R x y ∨ (x = a ∧ y = b)) u v :=
    fun {_ _} huv => huv.mono fun _ _ => Or.inl
  constructor
  · intro hsame
    have hroot : ∀ z, Relation.EqvGen (fun x y => R x y ∨ (x = a ∧ y = b)) z
        ((uf.union a b).root z) := by
      intro z
      rw [root_union]
      split
      case isTrue hz =>
        have hzb : Relation.EqvGen R z b := (h z b).mp hz
        have hab : Relation.EqvGen (fun x y => R x y ∨ (x = a ∧ y = b)) b a :=
          .symm _ _ (.rel _ _ (.inr ⟨rfl, rfl⟩))
        exact .trans _ _ _ (hold hzb) (.trans _ _ _ hab (hold (h.eqvGen_root a)))
      case isFalse => exact hold (h.eqvGen_root z)
    have hy := hroot y
    rw [← show (uf.union a b).root x = (uf.union a b).root y from hsame] at hy
    exact .trans _ _ _ (hroot x) (.symm _ _ hy)
  · intro hgen
    apply hgen.apply_eq
    rintro u v (huv | ⟨rfl, rfl⟩)
    · rw [root_union, root_union, show uf.root u = uf.root v from (h u v).mpr (.rel _ _ huv)]
    · simp [root_union]

theorem Represents.join {uf : UnionFind α} {R : α → α → Prop} (h : uf.Represents R) (a b : α) :
    (uf.join a b).Represents fun x y => R x y ∨ (x = a ∧ y = b) := by
  intro x y
  have hswap : ∀ {u v a b : α}, Relation.EqvGen (fun x y => R x y ∨ (x = b ∧ y = a)) u v →
      Relation.EqvGen (fun x y => R x y ∨ (x = a ∧ y = b)) u v := by
    intro u v a b huv
    induction huv with
    | rel x y hxy =>
      rcases hxy with hxy | ⟨rfl, rfl⟩
      · exact .rel _ _ (.inl hxy)
      · exact .symm _ _ (.rel _ _ (.inr ⟨rfl, rfl⟩))
    | refl x => exact .refl x
    | symm x y _ ih => exact .symm _ _ ih
    | trans x y z _ _ ihxy ihyz => exact .trans _ _ _ ihxy ihyz
  have hsame : (uf.join a b).Same x y ↔ (uf.union b a).Same x y := by
    rw [Same, Same, root_join, root_join, root_union, root_union]
  rw [hsame, h.union b a x y]
  exact ⟨hswap, hswap⟩

def unions (uf : UnionFind α) (pairs : List (α × α)) : UnionFind α :=
  pairs.foldl (fun uf pair => uf.union pair.1 pair.2) uf

theorem Represents.unions {uf : UnionFind α} {R : α → α → Prop} (h : uf.Represents R)
    (pairs : List (α × α)) :
    (uf.unions pairs).Represents fun x y => R x y ∨ (x, y) ∈ pairs := by
  induction pairs generalizing uf R with
  | nil => simpa [UnionFind.unions] using h
  | cons pair rest ih =>
    have hrest := ih (h.union pair.1 pair.2)
    have heq : (fun x y => R x y ∨ (x, y) ∈ pair :: rest) =
        fun x y => (R x y ∨ (x = pair.1 ∧ y = pair.2)) ∨ (x, y) ∈ rest := by
      funext x y
      simp only [List.mem_cons, Prod.ext_iff, eq_iff_iff]
      tauto
    rw [heq]
    exact hrest

/-- Two elements end up together exactly when the pairs connect them. -/
theorem same_unions_new (pairs : List (α × α)) (x y : α) :
    ((new α).unions pairs).Same x y ↔ Relation.EqvGen (fun a b => (a, b) ∈ pairs) x y := by
  have h := (represents_new (α := α)).unions pairs x y
  simpa using h

end UnionFind
