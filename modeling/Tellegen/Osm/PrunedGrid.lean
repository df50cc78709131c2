import Tellegen.Lib.Classes
import Tellegen.Lib.Peeling
import Tellegen.Osm.DeadEnds
import Tellegen.Osm.SnapIndex

/-!
What pruning removes. The degree of a bus counts the ends of its live corridors, so the worklist removes
dead ends until none is left; whatever the order, the same buses go. A dead end hangs on one corridor, so
the others stay connected as they were.
-/

set_option linter.unusedSectionVars false

open Binary64 Peeling

namespace Tellegen.Osm

variable {F : Type} [Drafting F]

structure WellFormed (grid : MappedGrid F) : Prop where
  corridors : ∀ c ∈ grid.corridors, c.a < grid.buses.length ∧ c.b < grid.buses.length
  ids : grid.ids.length = grid.corridors.length
  sites : ∀ site ∈ grid.sites, ∀ i ∈ site, i < grid.buses.length
  hvdc : ∀ h ∈ grid.hvdc, h.source < grid.buses.length ∧ h.target < grid.buses.length

/-! ### Dead ends -/

def endCount (c : Corridor F) (i : ℕ) : ℕ := (if c.a = i then 1 else 0) + if c.b = i then 1 else 0

/-- The corridor remains when these buses are gone. -/
def Stays (gone : List ℕ) (c : Corridor F) : Prop := c.a ∉ gone ∧ c.b ∉ gone

instance (gone : List ℕ) (c : Corridor F) : Decidable (Stays gone c) := by
  unfold Stays
  infer_instance

/-- The ends of the remaining corridors at a bus. -/
def endsAt (corridors : List (Corridor F)) (gone : List ℕ) (i : ℕ) : ℕ :=
  (corridors.map fun c => if Stays gone c then endCount c i else 0).sum

/-- An unloaded tap or line end with at most one remaining corridor and no HVDC link. -/
structure DeadEnd (grid : MappedGrid F) (gone : List ℕ) (i : ℕ) : Prop where
  removable : removableAt grid i = true
  ends_le : endsAt grid.corridors gone i ≤ 1
  hvdc : ∀ h ∈ grid.hvdc, h.source ≠ i ∧ h.target ≠ i

theorem endsAt_mono (corridors : List (Corridor F)) {gone more : List ℕ} (h : gone ⊆ more) (i : ℕ) :
    endsAt corridors more i ≤ endsAt corridors gone i := by
  apply List.sum_le_sum
  intro c _
  split
  case isTrue hstays =>
    rw [if_pos ⟨fun ha => hstays.1 (h ha), fun hb => hstays.2 (h hb)⟩]
  case isFalse => exact Nat.zero_le _

theorem deadEnd_mono (grid : MappedGrid F) (gone more : List ℕ) (i : ℕ) (h : gone ⊆ more)
    (hdead : DeadEnd grid gone i) : DeadEnd grid more i where
  removable := hdead.removable
  ends_le := (endsAt_mono grid.corridors h i).trans hdead.ends_le
  hvdc := hdead.hvdc

theorem endsAt_eq_countP {corridors : List (Corridor F)} (hloop : ∀ c ∈ corridors, c.a ≠ c.b)
    (gone : List ℕ) (i : ℕ) :
    endsAt corridors gone i =
      corridors.countP fun c => Stays gone c ∧ (c.a = i ∨ c.b = i) := by
  induction corridors with
  | nil => rfl
  | cons c rest ih =>
    have hrest := ih fun d hd => hloop d (List.mem_cons_of_mem _ hd)
    have hne := hloop c List.mem_cons_self
    rw [List.countP_cons, ← hrest, Nat.add_comm]
    change (if Stays gone c then endCount c i else 0) + _ = _
    congr 1
    simp only [decide_eq_true_eq]
    by_cases hstays : Stays gone c
    · rw [if_pos hstays, endCount]
      by_cases ha : c.a = i
      · have hb : c.b ≠ i := fun hb => hne (ha.trans hb.symm)
        rw [if_pos ha, if_neg hb, if_pos ⟨hstays, .inl ha⟩]
      · by_cases hb : c.b = i
        · rw [if_neg ha, if_pos hb, if_pos ⟨hstays, .inr hb⟩]
        · rw [if_neg ha, if_neg hb, if_neg fun h => h.2.elim ha hb]
    · rw [if_neg hstays, if_neg fun h => hstays h.1]

/-! ### Degrees -/

/-- The ends at a bus of the corridors that are live. -/
def endsLive (corridors : List (Corridor F)) (live : ℕ → Bool) (i : ℕ) : ℕ :=
  (corridors.zipIdx.map fun (c, k) => if live k then endCount c i else 0).sum

/-- An HVDC link counts twice at each end. -/
def hvdcAt (grid : MappedGrid F) (i : ℕ) : ℕ :=
  (grid.hvdc.map fun h => (if h.source = i then 2 else 0) + if h.target = i then 2 else 0).sum

theorem endsLive_eq_endsAt {corridors : List (Corridor F)} {live : ℕ → Bool} (gone : List ℕ)
    (hlive : ∀ k c, corridors[k]? = some c → (live k = true ↔ Stays gone c)) (i : ℕ) :
    endsLive corridors live i = endsAt corridors gone i := by
  have hfirst : endsAt corridors gone i =
      (corridors.zipIdx.map fun x => if Stays gone x.1 then endCount x.1 i else 0).sum := by
    have hmap : corridors = corridors.zipIdx.map Prod.fst := (List.zipIdx_map_fst 0 corridors).symm
    rw [endsAt]
    conv_lhs => rw [hmap]
    rw [List.map_map]
    rfl
  rw [hfirst, endsLive]
  congr 1
  apply List.map_congr_left
  rintro ⟨c, k⟩ hmem
  have hiff := hlive k c (List.mk_mem_zipIdx_iff_getElem?.mp hmem)
  dsimp only
  by_cases hk : live k = true
  · rw [if_pos hk, if_pos (hiff.mp hk)]
  · rw [if_neg hk, if_neg fun h => hk (hiff.mpr h)]

theorem sum_zipIdx_update {α : Type} (weight : α → ℕ) {live : ℕ → Bool} {k : ℕ} (hk : live k = true)
    {a : α} (list : List α) (start : ℕ) (hmem : (a, k) ∈ list.zipIdx start) :
    ((list.zipIdx start).map fun x => if live x.2 then weight x.1 else 0).sum =
      ((list.zipIdx start).map fun x =>
        if Function.update live k false x.2 then weight x.1 else 0).sum + weight a := by
  induction list generalizing start with
  | nil => cases hmem
  | cons b rest ih =>
    rw [List.zipIdx_cons, List.map_cons, List.map_cons, List.sum_cons, List.sum_cons]
    by_cases hstart : start = k
    · have hrest : (rest.zipIdx (start + 1)).map (fun x => if live x.2 then weight x.1 else 0) =
          (rest.zipIdx (start + 1)).map fun x =>
            if Function.update live k false x.2 then weight x.1 else 0 := by
        apply List.map_congr_left
        intro x hx
        have hle := List.le_snd_of_mem_zipIdx hx
        rw [Function.update_of_ne (by omega)]
      have hhead : a = b := by
        rw [List.zipIdx_cons] at hmem
        rcases List.mem_cons.mp hmem with heq | hmem
        · exact congrArg Prod.fst heq
        · have hle := List.le_snd_of_mem_zipIdx hmem
          dsimp only at hle
          omega
      dsimp only
      rw [hrest, hstart, hk, if_pos rfl, Function.update_self, if_neg Bool.false_ne_true, hhead]
      omega
    · have hmem : (a, k) ∈ rest.zipIdx (start + 1) := by
        rw [List.zipIdx_cons] at hmem
        rcases List.mem_cons.mp hmem with heq | hmem
        · exact absurd (congrArg Prod.snd heq).symm hstart
        · exact hmem
      dsimp only
      rw [ih (start + 1) hmem, Function.update_of_ne hstart, Nat.add_assoc]

theorem endsLive_update {corridors : List (Corridor F)} {live : ℕ → Bool} {k : ℕ} {c : Corridor F}
    (hc : corridors[k]? = some c) (hk : live k = true) (i : ℕ) :
    endsLive corridors live i =
      endsLive corridors (Function.update live k false) i + endCount c i :=
  sum_zipIdx_update (fun c => endCount c i) hk corridors 0 (List.mk_mem_zipIdx_iff_getElem?.mpr hc)

theorem startDegree_eq (grid : MappedGrid F) (i : ℕ) :
    startDegree grid i = endsLive grid.corridors (fun _ => true) i + hvdcAt grid i := by
  have hupdate : ∀ (degree : ℕ → ℕ) (a b d : ℕ),
      Function.update (Function.update degree a (degree a + d)) b
        (Function.update degree a (degree a + d) b + d) i =
      degree i + ((if a = i then d else 0) + if b = i then d else 0) := by
    intro degree a b d
    by_cases hb : b = i
    · subst hb
      rw [Function.update_self, if_pos rfl]
      by_cases ha : a = b
      · subst ha
        rw [Function.update_self, if_pos rfl]
        omega
      · rw [Function.update_of_ne (Ne.symm ha), if_neg ha]
        omega
    · rw [Function.update_of_ne (Ne.symm hb), if_neg hb]
      by_cases ha : a = i
      · subst ha
        rw [Function.update_self, if_pos rfl]
        omega
      · rw [Function.update_of_ne (Ne.symm ha), if_neg ha]
        omega
  have hcorridors : ∀ (corridors : List (Corridor F)) (degree : ℕ → ℕ),
      corridors.foldl (fun degree c =>
        let degree := Function.update degree c.a (degree c.a + 1)
        Function.update degree c.b (degree c.b + 1)) degree i =
      degree i + (corridors.map fun c => endCount c i).sum := by
    intro corridors
    induction corridors with
    | nil => exact fun _ => rfl
    | cons c rest ih =>
      intro degree
      rw [List.foldl_cons, ih, List.map_cons, List.sum_cons, hupdate, endCount, Nat.add_assoc]
  have hhvdc : ∀ (links : List (DraftHvdc F)) (degree : ℕ → ℕ),
      links.foldl (fun degree h =>
        let degree := Function.update degree h.source (degree h.source + 2)
        Function.update degree h.target (degree h.target + 2)) degree i =
      degree i + (links.map fun h =>
        (if h.source = i then 2 else 0) + if h.target = i then 2 else 0).sum := by
    intro links
    induction links with
    | nil => exact fun _ => rfl
    | cons h rest ih =>
      intro degree
      rw [List.foldl_cons, ih, List.map_cons, List.sum_cons, hupdate, Nat.add_assoc]
  have hlive : endsLive grid.corridors (fun _ => true) i =
      (grid.corridors.map fun c => endCount c i).sum := by
    have hstays : ∀ c : Corridor F, Stays [] c := fun _ => ⟨List.not_mem_nil, List.not_mem_nil⟩
    rw [endsLive_eq_endsAt [] fun k c _ => iff_of_true rfl (hstays c), endsAt]
    simp only [hstays, if_true]
  rw [startDegree]
  dsimp only
  rw [hhvdc, hcorridors, hlive, hvdcAt, Nat.zero_add]

/-! ### The worklist -/

section Worklist

variable (grid : MappedGrid F)

/-- Degrees are counts, and every dead end is waiting on the stack. -/
structure Counted (state : Pruning) : Prop where
  degree : ∀ i, state.degree i = endsLive grid.corridors state.live i + hvdcAt grid i
  waiting : ∀ i, state.alive i = true → state.degree i ≤ 1 → removableAt grid i = true → i ∈ state.stack
  removable : ∀ i ∈ state.stack, removableAt grid i = true

/-- What the loop has left to do at most. -/
def work (state : Pruning) : ℕ :=
  state.stack.length + (List.range grid.corridors.length).countP state.live

variable {grid}

theorem countP_update {live : ℕ → Bool} {k m : ℕ} (hk : live k = true) (hm : k < m) :
    (List.range m).countP (Function.update live k false) + 1 = (List.range m).countP live := by
  induction m with
  | zero => omega
  | succ m ih =>
    rw [List.range_succ, List.countP_append, List.countP_append, List.countP_singleton,
      List.countP_singleton]
    by_cases hkm : k = m
    · subst hkm
      have hsame : (List.range k).countP (Function.update live k false) =
          (List.range k).countP live := by
        apply List.countP_congr
        intro x hx
        rw [Function.update_of_ne (Nat.ne_of_lt (List.mem_range.mp hx))]
      rw [hsame, Function.update_self, hk, if_pos rfl, if_neg Bool.false_ne_true]
    · have hrest := ih (by omega)
      rw [Function.update_of_ne (Ne.symm hkm)]
      omega

theorem endCount_other {c : Corridor F} {i : ℕ} (hat : c.a = i ∨ c.b = i) (j : ℕ) :
    endCount c j = (if (if c.a = i then c.b else c.a) = j then 1 else 0) + if i = j then 1 else 0 := by
  by_cases ha : c.a = i
  · rw [if_pos ha, endCount, ha, Nat.add_comm]
  · rw [if_neg ha, endCount, hat.resolve_left ha]

theorem degree_dropped (degree : ℕ → ℕ) (other i j : ℕ) :
    Function.update (Function.update degree other (degree other - 1)) i
      (Function.update degree other (degree other - 1) i - 1) j =
    degree j - ((if other = j then 1 else 0) + if i = j then 1 else 0) := by
  by_cases hi : i = j
  · subst hi
    rw [Function.update_self, if_pos rfl]
    by_cases hother : other = i
    · subst hother
      rw [Function.update_self, if_pos rfl]
      omega
    · rw [Function.update_of_ne (Ne.symm hother), if_neg hother]
  · rw [Function.update_of_ne (Ne.symm hi), if_neg hi]
    by_cases hother : other = j
    · subst hother
      rw [Function.update_self, if_pos rfl]
    · rw [Function.update_of_ne (Ne.symm hother), if_neg hother]
      rfl

theorem Counted.dropCorridor {state : Pruning} (h : Counted grid state) {i k : ℕ}
    (hi : state.alive i = false) {c : Corridor F} (hc : grid.corridors[k]? = some c)
    (hat : c.a = i ∨ c.b = i) :
    Counted grid (dropCorridor grid i state k) ∧
      (dropCorridor grid i state k).alive = state.alive ∧
      (dropCorridor grid i state k).live = Function.update state.live k false ∧
      work grid (dropCorridor grid i state k) ≤ work grid state := by
  have hends := endCount_other hat
  rw [Osm.dropCorridor]
  split
  case isTrue hdead =>
    rw [Bool.not_eq_true'] at hdead
    refine ⟨h, rfl, ?_, Nat.le_refl _⟩
    rw [← hdead, Function.update_eq_self]
  case isFalse hlive =>
    rw [Bool.not_eq_true, Bool.not_eq_false'] at hlive
    rw [hc]
    dsimp only
    generalize (if c.a = i then c.b else c.a) = other at hends ⊢
    generalize hdegree : Function.update (Function.update state.degree other (state.degree other - 1)) i
      (Function.update state.degree other (state.degree other - 1) i - 1) = degree
    have hdropped : ∀ j, degree j = state.degree j - endCount c j := by
      intro j
      rw [← hdegree, degree_dropped, hends]
    have hless := countP_update hlive (List.getElem?_eq_some_iff.mp hc).1
    refine ⟨⟨?_, ?_, ?_⟩, rfl, rfl, ?_⟩
    · intro j
      have hold := h.degree j
      have hsplit := endsLive_update hc hlive j
      dsimp only
      rw [hdropped]
      omega
    · intro j hj hle hremovable
      dsimp only at hj hle ⊢
      by_cases hother : j = other
      · subst hother
        rw [hj, decide_eq_true hle, hremovable]
        exact List.mem_cons_self
      · have hij : i ≠ j := fun hij => by
          rw [hij, hj] at hi
          cases hi
        have hsame : degree j = state.degree j := by
          rw [hdropped, hends, if_neg (Ne.symm hother), if_neg hij]
          rfl
        have hmem := h.waiting j hj (hsame ▸ hle) hremovable
        split
        case isTrue => exact List.mem_cons_of_mem _ hmem
        case isFalse => exact hmem
    · intro j hj
      dsimp only at hj
      split at hj
      case isTrue hpush =>
        rcases List.mem_cons.mp hj with rfl | hj
        · exact (Bool.and_eq_true_iff.mp hpush).2
        · exact h.removable j hj
      case isFalse => exact h.removable j hj
    · rw [work, work]
      dsimp only
      split
      case isTrue =>
        rw [List.length_cons]
        omega
      case isFalse => omega

theorem mem_incident {i k : ℕ} :
    k ∈ incident grid i ↔ ∃ c, grid.corridors[k]? = some c ∧ (c.a = i ∨ c.b = i) := by
  rw [incident, List.mem_flatMap]
  constructor
  · rintro ⟨⟨c, l⟩, hmem, hk⟩
    have hc := List.mk_mem_zipIdx_iff_getElem?.mp hmem
    rcases List.mem_append.mp hk with hk | hk
    · split at hk
      case isTrue ha =>
        cases List.mem_singleton.mp hk
        exact ⟨c, hc, .inl ha⟩
      case isFalse => cases hk
    · split at hk
      case isTrue hb =>
        cases List.mem_singleton.mp hk
        exact ⟨c, hc, .inr hb⟩
      case isFalse => cases hk
  · rintro ⟨c, hc, hat⟩
    refine ⟨(c, k), List.mk_mem_zipIdx_iff_getElem?.mpr hc, ?_⟩
    dsimp only
    rcases hat with ha | hb
    · rw [if_pos ha]
      exact List.mem_append_left _ (List.mem_singleton_self k)
    · rw [if_pos hb]
      exact List.mem_append_right _ (List.mem_singleton_self k)

theorem Counted.dropCorridors {i : ℕ} (ks : List ℕ) {state : Pruning} (h : Counted grid state)
    (hi : state.alive i = false) (hks : ∀ k ∈ ks, k ∈ incident grid i) :
    Counted grid (ks.foldl (Osm.dropCorridor grid i) state) ∧
      (ks.foldl (Osm.dropCorridor grid i) state).alive = state.alive ∧
      (∀ k, (ks.foldl (Osm.dropCorridor grid i) state).live k = true ↔ state.live k = true ∧ k ∉ ks) ∧
      work grid (ks.foldl (Osm.dropCorridor grid i) state) ≤ work grid state := by
  induction ks generalizing state with
  | nil =>
    refine ⟨h, rfl, ?_, Nat.le_refl _⟩
    intro k
    exact (and_iff_left List.not_mem_nil).symm
  | cons k rest ih =>
    obtain ⟨c, hc, hat⟩ := mem_incident.mp (hks k List.mem_cons_self)
    obtain ⟨hcounted, halive, hlive, hwork⟩ := h.dropCorridor hi hc hat
    obtain ⟨hcounted', halive', hlive', hwork'⟩ := ih hcounted (by rw [halive]; exact hi)
      fun l hl => hks l (List.mem_cons_of_mem _ hl)
    refine ⟨hcounted', halive'.trans halive, ?_, hwork'.trans hwork⟩
    intro l
    rw [List.foldl_cons, hlive', hlive, List.mem_cons]
    by_cases hl : l = k
    · subst hl
      rw [Function.update_self]
      exact iff_of_false (fun h => nomatch h.1) fun h => h.2 (.inl rfl)
    · rw [Function.update_of_ne hl]
      simp only [hl, false_or]

structure Removed (grid : MappedGrid F) (order : List ℕ) (state : Pruning) : Prop where
  alive : ∀ i, state.alive i = true ↔ i ∉ order
  live : ∀ k c, grid.corridors[k]? = some c → (state.live k = true ↔ Stays order c)
  peels : Peels (DeadEnd grid) order

theorem hvdcAt_pos {h : DraftHvdc F} (hmem : h ∈ grid.hvdc) {i : ℕ}
    (hat : h.source = i ∨ h.target = i) : 2 ≤ hvdcAt grid i := by
  have hle : (if h.source = i then 2 else 0) + (if h.target = i then 2 else 0) ≤ hvdcAt grid i :=
    List.single_le_sum (fun _ _ => Nat.zero_le _) _ (List.mem_map.mpr ⟨h, hmem, rfl⟩)
  refine le_trans ?_ hle
  rcases hat with hat | hat
  · rw [if_pos hat]
    exact Nat.le_add_right 2 _
  · rw [if_pos hat]
    exact Nat.le_add_left 2 _

theorem hvdcAt_eq_zero {i : ℕ} (h : ∀ link ∈ grid.hvdc, link.source ≠ i ∧ link.target ≠ i) :
    hvdcAt grid i = 0 := by
  rw [hvdcAt, List.sum_eq_zero_iff]
  intro x hx
  obtain ⟨link, hlink, rfl⟩ := List.mem_map.mp hx
  rw [if_neg (h link hlink).1, if_neg (h link hlink).2, Nat.add_zero]

theorem deadEnd_iff {order : List ℕ} {state : Pruning} (hcounted : Counted grid state)
    (hremoved : Removed grid order state) {i : ℕ} :
    DeadEnd grid order i ↔ state.degree i ≤ 1 ∧ removableAt grid i = true := by
  rw [hcounted.degree, endsLive_eq_endsAt order hremoved.live]
  constructor
  · rintro ⟨hremovable, hends, hhvdc⟩
    rw [hvdcAt_eq_zero hhvdc]
    exact ⟨hends, hremovable⟩
  · rintro ⟨hdegree, hremovable⟩
    refine ⟨hremovable, by omega, ?_⟩
    intro link hlink
    constructor
    · intro hat
      have hpos := hvdcAt_pos hlink (.inl hat)
      omega
    · intro hat
      have hpos := hvdcAt_pos hlink (.inr hat)
      omega

theorem prune_spec (fuel : ℕ) (order : List ℕ) {state : Pruning} (hcounted : Counted grid state)
    (hremoved : Removed grid order state) (hfuel : work grid state ≤ fuel) :
    (prune grid fuel state).stack = [] ∧ Counted grid (prune grid fuel state) ∧
      ∃ order', Removed grid order' (prune grid fuel state) := by
  induction fuel generalizing order state with
  | zero =>
    have hstack : state.stack = [] := List.eq_nil_of_length_eq_zero (by rw [work] at hfuel; omega)
    exact ⟨hstack, hcounted, order, hremoved⟩
  | succ fuel ih =>
    rw [prune]
    split
    case h_1 hstack => exact ⟨hstack, hcounted, order, hremoved⟩
    case h_2 i rest hstack =>
      have hlength : state.stack.length = rest.length + 1 := by
        rw [hstack]
        rfl
      dsimp only
      split
      case isTrue hskip =>
        refine ih order ⟨hcounted.degree, ?_, ?_⟩ ⟨hremoved.alive, hremoved.live, hremoved.peels⟩ ?_
        · intro j hj hle hremovable
          have hmem := hcounted.waiting j hj hle hremovable
          rw [hstack] at hmem
          rcases List.mem_cons.mp hmem with rfl | hmem
          · rw [hj, Bool.not_true, Bool.false_or, decide_eq_true_iff] at hskip
            dsimp only at hle
            omega
          · exact hmem
        · intro j hj
          apply hcounted.removable
          rw [hstack]
          exact List.mem_cons_of_mem _ hj
        · rw [work] at hfuel ⊢
          dsimp only
          omega
      case isFalse hremove =>
        rw [Bool.or_eq_true, not_or, Bool.not_eq_true, Bool.not_eq_false', decide_eq_true_iff,
          Nat.not_lt] at hremove
        obtain ⟨halive, hdegree⟩ := hremove
        have hremovable : removableAt grid i = true := by
          apply hcounted.removable
          rw [hstack]
          exact List.mem_cons_self
        have hdead := (deadEnd_iff hcounted hremoved).mpr ⟨hdegree, hremovable⟩
        let gone : Pruning := { state with
          stack := rest
          alive := Function.update state.alive i false }
        have hgone : gone.alive i = false := Function.update_self i false state.alive
        have hstart : Counted grid gone := by
          refine ⟨hcounted.degree, ?_, ?_⟩
          · intro j hj hle hremovable
            have hji : j ≠ i := fun hji => by
              rw [hji, hgone] at hj
              cases hj
            have hj : state.alive j = true := by
              rw [← hj]
              exact (Function.update_of_ne hji false state.alive).symm
            have hmem := hcounted.waiting j hj hle hremovable
            rw [hstack] at hmem
            exact (List.mem_cons.mp hmem).resolve_left hji
          · intro j hj
            apply hcounted.removable
            rw [hstack]
            exact List.mem_cons_of_mem _ hj
        obtain ⟨hnext, hnextAlive, hnextLive, hwork⟩ :=
          hstart.dropCorridors (incident grid i) hgone fun k hk => hk
        have hnew : i ∉ order := (hremoved.alive i).mp halive
        refine ih (order ++ [i]) hnext ⟨?_, ?_, ?_⟩ ?_
        · intro j
          have hj : (removeBus grid { state with stack := rest } i).alive j =
              Function.update state.alive i false j := congrFun hnextAlive j
          rw [hj, List.mem_append, List.mem_singleton, not_or]
          by_cases hji : j = i
          · rw [hji, Function.update_self]
            exact iff_of_false Bool.false_ne_true fun h => h.2 rfl
          · rw [Function.update_of_ne hji, hremoved.alive]
            exact (and_iff_left hji).symm
        · intro k c hc
          have hk : (removeBus grid { state with stack := rest } i).live k = true ↔
              state.live k = true ∧ k ∉ incident grid i := hnextLive k
          rw [hk, hremoved.live k c hc, mem_incident, Stays, Stays]
          simp only [List.mem_append, List.mem_singleton, not_or, hc, Option.some.injEq,
            exists_eq_left']
          tauto
        · exact .snoc hremoved.peels hnew hdead
        · have hbefore : work grid gone + 1 ≤ work grid state := by
            rw [work, work]
            simp only [gone]
            omega
          have hafter : work grid (removeBus grid { state with stack := rest } i) ≤
              work grid gone := hwork
          omega

variable (grid)

theorem counted_start : Counted grid (startPruning grid) where
  degree := startDegree_eq grid
  waiting := by
    intro i _ hle hremovable
    rw [startPruning, List.mem_reverse, List.mem_filter, List.mem_range]
    constructor
    · have hremovable : grid.buses[i]?.any removable = true := hremovable
      obtain ⟨b, hb, _⟩ := (Option.any_eq_true ..).mp hremovable
      exact (List.getElem?_eq_some_iff.mp hb).1
    · rw [hremovable, Bool.and_true]
      exact decide_eq_true hle
  removable := by
    intro i hi
    rw [startPruning, List.mem_reverse, List.mem_filter] at hi
    exact (Bool.and_eq_true_iff.mp hi.2).2

theorem removed_start : Removed grid [] (startPruning grid) where
  alive := fun _ => iff_of_true rfl List.not_mem_nil
  live := fun _ _ _ => iff_of_true rfl ⟨List.not_mem_nil, List.not_mem_nil⟩
  peels := .nil

theorem pruned_spec : ∃ order, Removed grid order (pruned grid) ∧
    Exhausted (DeadEnd grid) order := by
  have hwork : work grid (startPruning grid) ≤
      (startPruning grid).stack.length + grid.corridors.length := by
    have hle := List.countP_le_length (l := List.range grid.corridors.length)
      (p := (startPruning grid).live)
    rw [List.length_range] at hle
    rw [work]
    omega
  obtain ⟨hstack, hcounted, order, hremoved⟩ :=
    prune_spec _ [] (counted_start grid) (removed_start grid) hwork
  refine ⟨order, hremoved, ?_⟩
  intro i hi hdead
  obtain ⟨hdegree, hremovable⟩ := (deadEnd_iff hcounted hremoved).mp hdead
  have hmem := hcounted.waiting i ((hremoved.alive i).mpr hi) hdegree hremovable
  rw [hstack] at hmem
  cases hmem

end Worklist

/-! ### Connections -/

/-- A corridor joins the two buses. -/
def Meets (corridors : List (Corridor F)) (u v : ℕ) : Prop := ∃ c ∈ corridors, c.a = u ∧ c.b = v

def Reaches (corridors : List (Corridor F)) : ℕ → ℕ → Prop := Relation.EqvGen (Meets corridors)

def staying (gone : List ℕ) (corridors : List (Corridor F)) : List (Corridor F) :=
  corridors.filter fun c => Stays gone c

theorem mem_staying {gone : List ℕ} {corridors : List (Corridor F)} {c : Corridor F} :
    c ∈ staying gone corridors ↔ c ∈ corridors ∧ Stays gone c := by
  rw [staying, List.mem_filter, decide_eq_true_iff]

theorem eq_of_ends_le {corridors : List (Corridor F)} {gone : List ℕ} {i : ℕ}
    (h : endsAt corridors gone i ≤ 1) {c d : Corridor F} (hc : c ∈ staying gone corridors)
    (hd : d ∈ staying gone corridors) (hci : 1 ≤ endCount c i) (hdi : 1 ≤ endCount d i) : c = d := by
  by_contra hne
  induction corridors with
  | nil => cases (mem_staying.mp hc).1
  | cons e rest ih =>
    have hsum : endsAt (e :: rest) gone i =
        (if Stays gone e then endCount e i else 0) + endsAt rest gone i := by
      rw [endsAt, List.map_cons, List.sum_cons]
      rfl
    have hone : ∀ f, f ∈ rest → Stays gone f → endCount f i ≤ endsAt rest gone i := by
      intro f hf hstays
      apply List.single_le_sum fun _ _ => Nat.zero_le _
      exact List.mem_map.mpr ⟨f, hf, if_pos hstays⟩
    obtain ⟨hcmem, hcstays⟩ := mem_staying.mp hc
    obtain ⟨hdmem, hdstays⟩ := mem_staying.mp hd
    rcases List.mem_cons.mp hcmem with rfl | hcrest
    · rcases List.mem_cons.mp hdmem with rfl | hdrest
      · exact hne rfl
      · have hle := hone d hdrest hdstays
        rw [if_pos hcstays] at hsum
        omega
    · rcases List.mem_cons.mp hdmem with rfl | hdrest
      · have hle := hone c hcrest hcstays
        rw [if_pos hdstays] at hsum
        omega
      · exact ih (by omega) (mem_staying.mpr ⟨hcrest, hcstays⟩) (mem_staying.mpr ⟨hdrest, hdstays⟩)

theorem endCount_le_endsAt {corridors : List (Corridor F)} {gone : List ℕ} {c : Corridor F}
    (hc : c ∈ staying gone corridors) (i : ℕ) : endCount c i ≤ endsAt corridors gone i := by
  obtain ⟨hmem, hstays⟩ := mem_staying.mp hc
  apply List.single_le_sum fun _ _ => Nat.zero_le _
  exact List.mem_map.mpr ⟨c, hmem, if_pos hstays⟩

/-- The others stay connected as they were when a bus with at most one corridor goes. -/
theorem reaches_without {corridors : List (Corridor F)} {gone : List ℕ} {i : ℕ}
    (h : endsAt corridors gone i ≤ 1) {u v : ℕ} (hu : u ≠ i) (hv : v ≠ i) :
    Reaches (staying gone corridors) u v ↔ Reaches (staying (gone ++ [i]) corridors) u v := by
  constructor
  · intro hpath
    -- the bus is drawn to the other end of its corridor
    let other := fun c : Corridor F => if c.a = i then c.b else c.a
    obtain ⟨hub, hhub⟩ : ∃ hub, ∀ c ∈ staying gone corridors, 1 ≤ endCount c i → other c = hub := by
      by_cases hsome : ∃ c ∈ staying gone corridors, 1 ≤ endCount c i
      · obtain ⟨c, hc, hci⟩ := hsome
        refine ⟨other c, ?_⟩
        intro d hd hdi
        rw [eq_of_ends_le h hd hc hdi hci]
      · exact ⟨i, fun c hc hci => absurd ⟨c, hc, hci⟩ hsome⟩
    let draw := fun x => if x = i then hub else x
    have hdraw : Reaches (staying (gone ++ [i]) corridors) (draw u) (draw v) := by
      apply hpath.image
      rintro x y ⟨c, hc, rfl, rfl⟩
      have hends := (endCount_le_endsAt hc i).trans h
      by_cases ha : c.a = i
      · have hb : c.b ≠ i := fun hb => by
          rw [endCount, if_pos ha, if_pos hb] at hends
          omega
        have hto := hhub c hc (by rw [endCount, if_pos ha]; exact Nat.le_add_right 1 _)
        have hother : other c = c.b := if_pos ha
        simp only [draw, if_pos ha, if_neg hb, ← hto, hother]
        exact .refl _
      · by_cases hb : c.b = i
        · have hto := hhub c hc (by rw [endCount, if_pos hb]; exact Nat.le_add_left 1 _)
          have hother : other c = c.a := if_neg ha
          simp only [draw, if_neg ha, if_pos hb, ← hto, hother]
          exact .refl _
        · simp only [draw, if_neg ha, if_neg hb]
          obtain ⟨hmem, hstays⟩ := mem_staying.mp hc
          refine .rel _ _ ⟨c, mem_staying.mpr ⟨hmem, ?_, ?_⟩, rfl, rfl⟩
          · rw [List.mem_append, List.mem_singleton]
            exact fun h => h.elim hstays.1 ha
          · rw [List.mem_append, List.mem_singleton]
            exact fun h => h.elim hstays.2 hb
    simp only [draw, if_neg hu, if_neg hv] at hdraw
    exact hdraw
  · intro hpath
    refine hpath.mono ?_
    rintro x y ⟨c, hc, hends⟩
    obtain ⟨hmem, hstays⟩ := mem_staying.mp hc
    exact ⟨c, mem_staying.mpr ⟨hmem, fun ha => hstays.1 (List.mem_append_left _ ha),
      fun hb => hstays.2 (List.mem_append_left _ hb)⟩, hends⟩

theorem reaches_of_peels {grid : MappedGrid F} {order : List ℕ} (h : Peels (DeadEnd grid) order)
    {u v : ℕ} (hu : u ∉ order) (hv : v ∉ order) :
    Reaches grid.corridors u v ↔ Reaches (staying order grid.corridors) u v := by
  induction h with
  | nil =>
    have hall : staying [] grid.corridors = grid.corridors := by
      rw [staying, List.filter_eq_self]
      intro c _
      exact decide_eq_true ⟨List.not_mem_nil, List.not_mem_nil⟩
    rw [hall]
  | snoc _ _ hdead ih =>
    rw [List.mem_append, List.mem_singleton, not_or] at hu hv
    rw [ih hu.1 hv.1]
    exact reaches_without hdead.ends_le hu.2 hv.2

/-! ### Renumbering -/

theorem length_filter_zipIdx {α : Type} (list : List α) (p : ℕ → Bool) :
    (list.zipIdx.filter fun x => p x.2).length = ((List.range list.length).filter p).length := by
  induction list using List.reverseRecOn with
  | nil => rfl
  | append_singleton list last ih =>
    rw [List.zipIdx_append, List.filter_append, List.length_append, ih, List.length_append,
      List.length_singleton, List.range_succ, List.filter_append, List.length_append, Nat.zero_add]
    congr 1
    cases hp : p list.length with
    | true => simp only [List.zipIdx_singleton, List.filter_cons, hp, if_true, List.filter_nil]; rfl
    | false => simp only [List.zipIdx_singleton, List.filter_cons, hp, Bool.false_eq_true, if_false,
        List.filter_nil]; rfl

theorem getElem?_filter_zipIdx {α : Type} {list : List α} {p : ℕ → Bool} {i : ℕ} {a : α}
    (ha : list[i]? = some a) (hp : p i = true) :
    (list.zipIdx.filter fun x => p x.2)[((List.range i).filter p).length]? = some (a, i) := by
  induction list using List.reverseRecOn with
  | nil => cases ha
  | append_singleton list last ih =>
    rw [List.zipIdx_append, List.filter_append]
    rcases Nat.lt_or_ge i list.length with hi | hi
    · rw [List.getElem?_append_left hi] at ha
      have hat := ih ha
      rw [List.getElem?_append_left (List.getElem?_eq_some_iff.mp hat).1]
      exact hat
    · have hlast : i = list.length := by
        have hlt := (List.getElem?_eq_some_iff.mp ha).1
        rw [List.length_append, List.length_singleton] at hlt
        omega
      subst hlast
      rw [List.getElem?_append_right (Nat.le_refl _), Nat.sub_self, List.getElem?_cons_zero] at ha
      cases ha
      rw [← length_filter_zipIdx, List.getElem?_append_right (Nat.le_refl _), Nat.sub_self,
        List.zipIdx_singleton, List.filter_cons, Nat.zero_add, if_pos hp]
      rfl

section Renumber

variable (grid : MappedGrid F)

def kept (order : List ℕ) (i : ℕ) : Bool := i ∉ order

theorem kept_iff {order : List ℕ} {i : ℕ} : kept order i = true ↔ i ∉ order := decide_eq_true_iff

def without (order : List ℕ) : MappedGrid F :=
  let n := grid.buses.length
  let corridors := (grid.corridors.zip grid.ids).filter fun (c, _) => Stays order c
  { buses := (grid.buses.zipIdx.filter fun x => kept order x.2).map fun x =>
      renumberSite n (kept order) x.1
    corridors := corridors.map fun (c, _) => renumberCorridor (kept order) c
    ids := corridors.map fun (_, id) => id
    sites := grid.sites.map fun site => (site.filter (kept order)).map (newIndex (kept order))
    hvdc := grid.hvdc.map (renumberHvdc (kept order)) }

theorem newIndex_true (i : ℕ) : newIndex (fun _ => true) i = i := by
  rw [newIndex, if_pos rfl, List.filter_true, List.length_range]

variable {grid}

theorem without_nil (h : WellFormed grid) : without grid [] = grid := by
  have hkept : kept [] = fun _ => true := funext fun _ => rfl
  have hsite : ∀ (n : ℕ) (b : DraftBus F), renumberSite n (fun _ => true) b = b := by
    intro n b
    rw [renumberSite]
    split
    case isTrue => rw [newIndex_true]
    case isFalse => rfl
  have hcorridor : ∀ c : Corridor F, renumberCorridor (fun _ => true) c = c := by
    intro c
    rw [renumberCorridor, newIndex_true, newIndex_true]
  have hlink : (renumberHvdc fun _ => true) = (id : DraftHvdc F → DraftHvdc F) := by
    funext link
    rw [renumberHvdc, newIndex_true, newIndex_true]
    rfl
  have hindex : (newIndex fun _ => true) = id := funext newIndex_true
  have hstays : ∀ c : Corridor F, Stays [] c := fun _ => ⟨List.not_mem_nil, List.not_mem_nil⟩
  obtain ⟨buses, corridors, ids, sites, hvdc⟩ := grid
  have hids : ids.length = corridors.length := h.ids
  simp only [without, hkept, hsite, hcorridor, hstays, decide_true, List.filter_true, hindex, hlink]
  congr 1
  · exact List.zipIdx_map_fst 0 buses
  · exact List.map_fst_zip hids.ge
  · exact List.map_snd_zip hids.le
  · simp only [List.map_id_fun, id, List.map_id']
  · exact List.map_id hvdc

theorem lt_of_peels {order : List ℕ} (h : Peels (DeadEnd grid) order) {i : ℕ} (hi : i ∈ order) :
    i < grid.buses.length := by
  induction h with
  | nil => cases hi
  | snoc _ _ hdead ih =>
    rcases List.mem_append.mp hi with hi | hi
    · exact ih hi
    · rw [List.mem_singleton.mp hi]
      have hremovable := hdead.removable
      rw [removableAt] at hremovable
      obtain ⟨b, hb, _⟩ := (Option.any_eq_true ..).mp hremovable
      exact (List.getElem?_eq_some_iff.mp hb).1

theorem alive_eq {order : List ℕ} {state : Pruning} (h : Removed grid order state) :
    state.alive = kept order := by
  funext i
  rw [Bool.eq_iff_iff, h.alive, kept_iff]

theorem countP_removed {order : List ℕ} (h : Peels (DeadEnd grid) order) :
    ((List.range grid.buses.length).countP fun i => !kept order i) = order.length := by
  rw [List.countP_eq_length_filter]
  apply List.Perm.length_eq
  rw [List.perm_ext_iff_of_nodup (List.nodup_range.filter _) h.nodup]
  intro i
  rw [List.mem_filter, List.mem_range, Bool.not_eq_true', Bool.eq_false_iff, ne_eq, kept_iff, not_not]
  exact and_iff_right_of_imp fun hi => lt_of_peels h hi

theorem filter_zipIdx_fst {α β : Type} (list : List α) (p : α → Bool) (f : α → β) :
    (list.zipIdx.filter fun x => p x.1).map (fun x => f x.1) = (list.filter p).map f := by
  conv_rhs => rw [← List.zipIdx_map_fst 0 list]
  rw [List.filter_map, List.map_map]
  rfl

theorem kept_corridors {order : List ℕ} {state : Pruning} (h : Removed grid order state) {β : Type}
    (f : Corridor F × List ℤ → β) :
    ((grid.corridors.zip grid.ids).zipIdx.filter fun ((c, _), k) =>
        state.live k && kept order c.a && kept order c.b).map (fun x => f x.1) =
      ((grid.corridors.zip grid.ids).filter fun x => decide (Stays order x.1)).map f := by
  refine Eq.trans ?_ (filter_zipIdx_fst _ (fun x => decide (Stays order x.1)) f)
  congr 1
  apply List.filter_congr
  rintro ⟨⟨c, id⟩, k⟩ hmem
  have hat := List.mk_mem_zipIdx_iff_getElem?.mp hmem
  have hc : grid.corridors[k]? = some c := by
    obtain ⟨hlt, heq⟩ := List.getElem?_eq_some_iff.mp hat
    rw [List.getElem_zip] at heq
    rw [List.getElem?_eq_getElem (by rw [List.length_zip] at hlt; omega)]
    exact congrArg some (congrArg Prod.fst heq)
  dsimp only
  rw [Bool.eq_iff_iff, Bool.and_eq_true_iff, Bool.and_eq_true_iff, h.live k c hc, kept_iff, kept_iff,
    decide_eq_true_iff]
  exact ⟨fun hstays => hstays.1.1, fun hstays => ⟨⟨hstays, hstays.1⟩, hstays.2⟩⟩

theorem pruneDeadEnds_eq (h : WellFormed grid) {order : List ℕ}
    (hremoved : Removed grid order (pruned grid)) :
    pruneDeadEnds grid = (without grid order, order.length) := by
  have halive := alive_eq hremoved
  rw [pruneDeadEnds]
  dsimp only
  rw [halive, countP_removed hremoved.peels]
  split
  case isTrue hnone =>
    rw [List.eq_nil_of_length_eq_zero hnone, without_nil h]
    rfl
  case isFalse =>
    rw [without]
    dsimp only
    congr 2
    · exact kept_corridors hremoved fun x => renumberCorridor (kept order) x.1
    · exact kept_corridors hremoved fun x => x.2

/-! ### What is named -/

theorem getElem?_without {order : List ℕ} {i : ℕ} {b : DraftBus F} (hb : grid.buses[i]? = some b)
    (hi : i ∉ order) : (without grid order).buses[newIndex (kept order) i]? =
      some (renumberSite grid.buses.length (kept order) b) := by
  have hkept := kept_iff.mpr hi
  rw [without, newIndex, if_pos hkept, List.getElem?_map, getElem?_filter_zipIdx hb hkept]
  rfl

theorem newIndex_injective {order : List ℕ} {i j : ℕ} (hi : i ∉ order) (hj : j ∉ order)
    (h : newIndex (kept order) i = newIndex (kept order) j) : i = j := by
  -- of two that stay, the later one counts the earlier one
  have hless : ∀ {x y : ℕ}, x < y → x ∉ order → y ∉ order →
      newIndex (kept order) x < newIndex (kept order) y := by
    intro x y hxy hx hy
    rw [newIndex, newIndex, if_pos (kept_iff.mpr hx), if_pos (kept_iff.mpr hy)]
    have hsplit : List.range y = List.range x ++ (List.range (y - x)).map (x + ·) := by
      rw [← List.range_add, Nat.add_sub_cancel' hxy.le]
    rw [hsplit, List.filter_append, List.length_append]
    apply Nat.lt_add_of_pos_right
    apply List.length_pos_of_mem (a := x)
    apply List.mem_filter.mpr
    refine ⟨List.mem_map.mpr ⟨0, List.mem_range.mpr (by omega), Nat.add_zero x⟩, kept_iff.mpr hx⟩
  rcases Nat.lt_trichotomy i j with hij | hij | hij
  · exact absurd h (hless hij hi hj).ne
  · exact hij
  · exact absurd h (hless hij hj hi).ne'

theorem length_without {order : List ℕ} (h : Peels (DeadEnd grid) order) :
    (without grid order).buses.length + order.length = grid.buses.length := by
  have hremoved := countP_removed h
  rw [List.countP_eq_length_filter] at hremoved
  have hsplit := List.length_eq_length_filter_add (l := List.range grid.buses.length) (kept order)
  rw [List.length_range] at hsplit
  rw [without, List.length_map, length_filter_zipIdx, ← hremoved]
  exact hsplit.symm

theorem reaches_without_iff (hwell : WellFormed grid) {order : List ℕ} (h : Peels (DeadEnd grid) order)
    {u v : ℕ} (hu : u ∉ order) (hv : v ∉ order) :
    Reaches (without grid order).corridors (newIndex (kept order) u) (newIndex (kept order) v) ↔
      Reaches grid.corridors u v := by
  rw [reaches_of_peels h hu hv]
  have hcorridors : (without grid order).corridors =
      (staying order grid.corridors).map (renumberCorridor (kept order)) := by
    have hfirst := congrArg (List.map (renumberCorridor (kept order)))
      (List.filter_map (f := Prod.fst) (l := grid.corridors.zip grid.ids)
        (p := fun c => decide (Stays order c)))
    rw [List.map_fst_zip hwell.ids.ge, List.map_map] at hfirst
    exact hfirst.symm
  rw [hcorridors]
  constructor
  · intro hpath
    classical
    -- back from the new indices
    let back := fun k =>
      if h : ∃ w, w ∉ order ∧ newIndex (kept order) w = k then h.choose else 0
    have hback : ∀ w, w ∉ order → back (newIndex (kept order) w) = w := by
      intro w hw
      have hsome : ∃ x, x ∉ order ∧ newIndex (kept order) x = newIndex (kept order) w := ⟨w, hw, rfl⟩
      have hchoose : back (newIndex (kept order) w) = hsome.choose := dif_pos hsome
      rw [hchoose]
      exact newIndex_injective hsome.choose_spec.1 hw hsome.choose_spec.2
    have himage : Reaches (staying order grid.corridors) (back (newIndex (kept order) u))
        (back (newIndex (kept order) v)) := by
      apply hpath.image
      rintro x y ⟨c', hc', rfl, rfl⟩
      obtain ⟨c, hc, rfl⟩ := List.mem_map.mp hc'
      obtain ⟨_, hstays⟩ := mem_staying.mp hc
      rw [renumberCorridor, hback c.a hstays.1, hback c.b hstays.2]
      exact .rel _ _ ⟨c, hc, rfl, rfl⟩
    rw [hback u hu, hback v hv] at himage
    exact himage
  · intro hpath
    apply hpath.image
    rintro x y ⟨c, hc, rfl, rfl⟩
    exact .rel _ _ ⟨renumberCorridor (kept order) c, List.mem_map_of_mem hc, rfl, rfl⟩

theorem zip_without (order : List ℕ) :
    (without grid order).corridors.zip (without grid order).ids =
      ((grid.corridors.zip grid.ids).filter fun x => decide (Stays order x.1)).map fun x =>
        (renumberCorridor (kept order) x.1, x.2) := by
  rw [without, List.zip_map']

theorem hvdc_stays {order : List ℕ} (h : Peels (DeadEnd grid) order) {link : DraftHvdc F}
    (hlink : link ∈ grid.hvdc) : link.source ∉ order ∧ link.target ∉ order := by
  induction h with
  | nil => exact ⟨List.not_mem_nil, List.not_mem_nil⟩
  | snoc _ _ hdead ih =>
    obtain ⟨hsource, htarget⟩ := hdead.hvdc link hlink
    rw [List.mem_append, List.mem_append, List.mem_singleton, List.mem_singleton, not_or, not_or]
    exact ⟨⟨ih.1, hsource⟩, ih.2, htarget⟩

theorem site_renumbered {order : List ℕ} (n : ℕ) {b : DraftBus F} (hsite : b.site < n)
    (hnamed : b.site ≠ noSite) :
    (renumberSite n (kept order) b).site =
      if b.site ∈ order then noSite else newIndex (kept order) b.site := by
  rw [renumberSite, if_pos ⟨hnamed, hsite⟩]
  dsimp only
  split
  case isTrue hgone =>
    rw [newIndex, if_neg fun h => kept_iff.mp h hgone]
  case isFalse => rfl

/-- The pruned buses are those that any order of removals takes away that runs to its end, and no order
takes others. The rest stays connected as it was, and every corridor, way list, site, bus site and HVDC
link names the same buses at their new indices. -/
theorem dead_ends_pruned (hwell : WellFormed grid) : ∃ order : List ℕ,
    ((pruneDeadEnds grid).2 = order.length ∧ Peels (DeadEnd grid) order ∧
      Exhausted (DeadEnd grid) order ∧ (∀ other, Peels (DeadEnd grid) other → other ⊆ order) ∧
      ∀ other, Peels (DeadEnd grid) other → Exhausted (DeadEnd grid) other →
        ∀ i, i ∈ other ↔ i ∈ order) ∧
    (∀ u v, u ∉ order → v ∉ order →
      (Reaches (pruneDeadEnds grid).1.corridors (newIndex (kept order) u) (newIndex (kept order) v) ↔
        Reaches grid.corridors u v)) ∧
    ((pruneDeadEnds grid).1.buses.length + order.length = grid.buses.length ∧
      (∀ i b, grid.buses[i]? = some b → i ∉ order →
        (pruneDeadEnds grid).1.buses[newIndex (kept order) i]? =
          some { b with site := (renumberSite grid.buses.length (kept order) b).site } ∧
        (b.site < grid.buses.length → b.site ≠ noSite →
          (renumberSite grid.buses.length (kept order) b).site =
            if b.site ∈ order then noSite else newIndex (kept order) b.site)) ∧
      ∀ i j, i ∉ order → j ∉ order → newIndex (kept order) i = newIndex (kept order) j → i = j) ∧
    (pruneDeadEnds grid).1.corridors.zip (pruneDeadEnds grid).1.ids =
      ((grid.corridors.zip grid.ids).filter fun x => decide (Stays order x.1)).map (fun x =>
        (renumberCorridor (kept order) x.1, x.2)) ∧
    (pruneDeadEnds grid).1.corridors.length = (pruneDeadEnds grid).1.ids.length ∧
    (pruneDeadEnds grid).1.sites = grid.sites.map (fun site =>
      (site.filter (kept order)).map (newIndex (kept order))) ∧
    (pruneDeadEnds grid).1.hvdc = grid.hvdc.map (renumberHvdc (kept order)) ∧
    (∀ link ∈ grid.hvdc, link.source ∉ order ∧ link.target ∉ order) ∧
    ((∀ c ∈ grid.corridors, c.a ≠ c.b) → ∀ gone i, endsAt grid.corridors gone i =
      grid.corridors.countP fun c => Stays gone c ∧ (c.a = i ∨ c.b = i)) := by
  obtain ⟨order, hremoved, hexhausted⟩ := pruned_spec grid
  have hpeels := hremoved.peels
  have hmono := deadEnd_mono grid
  refine ⟨order, ?_⟩
  rw [pruneDeadEnds_eq hwell hremoved]
  refine ⟨⟨rfl, hpeels, hexhausted, ?_, ?_⟩, ?_, ⟨length_without hpeels, ?_, ?_⟩, zip_without order, ?_,
    rfl, rfl, ?_, ?_⟩
  · exact fun other hother => hother.subset hmono hexhausted
  · exact fun other hother hdone i => hother.mem_iff hmono hdone hpeels hexhausted i
  · exact fun u v hu hv => reaches_without_iff hwell hpeels hu hv
  · intro i b hb hi
    refine ⟨?_, site_renumbered grid.buses.length⟩
    rw [getElem?_without hb hi]
    congr 1
    rw [renumberSite]
    split <;> rfl
  · exact fun i j hi hj => newIndex_injective hi hj
  · rw [without, List.length_map, List.length_map]
  · exact fun link hlink => hvdc_stays hpeels hlink
  · exact fun hloop gone i => endsAt_eq_countP hloop gone i

end Renumber

/-! ### A row of taps -/

def spurBus (kind : BusKind) (site : ℕ) : DraftBus Float where
  lon := 0
  lat := 0
  name := ""
  baseKv := 110
  kind
  island := 0
  source := .osm
  loadMw := 0
  annotation := ""
  site

def spur (a b : ℕ) : Corridor Float where
  a
  b
  kv := 110
  lengthKm := 1
  role := .internal
  circuits := 1
  route := []
  isDelaunay := false

/-- Two taps in a row behind the first bus, and one that an HVDC link ends at. -/
def spurGrid : MappedGrid Float where
  buses := [spurBus .substation 0, spurBus .tap 1, spurBus .tap 2, spurBus .tap 3]
  corridors := [spur 0 1, spur 1 2, spur 0 3]
  ids := [[7], [8], [9]]
  sites := [[0], [1, 2]]
  hvdc := [⟨3, 0, 100, 50, 1, []⟩]

theorem wellFormed_spurGrid : WellFormed spurGrid where
  corridors := by decide
  ids := rfl
  sites := by decide
  hvdc := by decide

theorem pruned_spurGrid : (pruneDeadEnds spurGrid).2 = 2 ∧
    ((pruneDeadEnds spurGrid).1.corridors.map fun c => (c.a, c.b)) = [(0, 1)] := by decide +kernel
/-- Both taps of the row go, the second before the first, and the link's end stays. -/
theorem dead_ends_pruned_spur : ∃ order : List ℕ, order.length = 2 ∧
    Peels (DeadEnd spurGrid) order ∧ Exhausted (DeadEnd spurGrid) order ∧ 3 ∉ order ∧
    (pruneDeadEnds spurGrid).1.hvdc = spurGrid.hvdc.map (renumberHvdc (kept order)) ∧
    ((pruneDeadEnds spurGrid).1.corridors.map fun c => (c.a, c.b)) = [(0, 1)] := by
  obtain ⟨order, ⟨hcount, hpeels, hexhausted, -⟩, -, -, -, -, -, hhvdc, hends, -⟩ :=
    dead_ends_pruned wellFormed_spurGrid
  obtain ⟨hremoved, hcorridors⟩ := pruned_spurGrid
  exact ⟨order, hcount.symm.trans hremoved, hpeels, hexhausted,
    (hends _ (List.mem_singleton_self _)).1, hhvdc, hcorridors⟩

end Tellegen.Osm
