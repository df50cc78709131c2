import Tellegen.McSession
import Tellegen.OperatingViews

/-!
Load edits of a session are absolute overlays on its base powers. A call that
fails leaves the session as it was, since what it has changed of the loads is
restored by the powers that they had; a call that succeeds leaves the powers
that its edits ask for, in whatever order they are given.
-/

set_option linter.unusedSectionVars false

open Binary64 Outcome

namespace Tellegen.Multiconductor

variable {F T R : Type} [Libm F] [SparseLu F] {n : ℕ}

/-! ### Loads -/

/-- The nominal admittance of a load is that of its power, and both are finite. -/
structure BranchLoad.Sound (load : BranchLoad F n) : Prop where
  finite : ∀ branch, (load.power branch).isFinite = true
  nominal : ∀ branch, load.nominalAdmittance branch =
    BranchLoad.admittanceOf (load.power branch) (load.nominalVoltage branch)
  nominalFinite : ∀ branch, (load.nominalAdmittance branch).isFinite = true

/-- Another load of the same law, but for its power and the admittance of it. -/
def BranchLoad.SameLaw (load other : BranchLoad F n) : Prop :=
  ∃ power nominalAdmittance, other = { load with power, nominalAdmittance }

theorem BranchLoad.SameLaw.refl (load : BranchLoad F n) : load.SameLaw load :=
  ⟨load.power, load.nominalAdmittance, rfl⟩

theorem BranchLoad.SameLaw.trans {a b c : BranchLoad F n} (hab : a.SameLaw b)
    (hbc : b.SameLaw c) : a.SameLaw c := by
  obtain ⟨_, _, rfl⟩ := hab
  obtain ⟨power, nominal, rfl⟩ := hbc
  exact ⟨power, nominal, rfl⟩

theorem replacePower_eq_ok {load replaced : BranchLoad F n} {power : List (Complex64 F)} :
    load.replacePower power = .ok replaced ↔
      ∃ h : power.length = load.branches, (∀ value ∈ power, value.isFinite = true) ∧
        (∀ branch, (BranchLoad.admittanceOf (power.get (Fin.cast h.symm branch))
          (load.nominalVoltage branch)).isFinite = true) ∧
        replaced =
          { load with
            power := fun branch => power.get (branch.cast h.symm)
            nominalAdmittance := fun branch => BranchLoad.admittanceOf
              (power.get (branch.cast h.symm)) (load.nominalVoltage branch) } := by
  unfold BranchLoad.replacePower
  split
  case isFalse h =>
    constructor
    · intro hok
      cases hok
    · rintro ⟨h', -⟩
      exact absurd h' h
  case isTrue h =>
    simp only [ite_error_eq_ok, Except.ok.injEq, List.any_eq_true, not_exists, not_and,
      Bool.not_eq_true, Bool.not_eq_false', List.mem_finRange, true_implies]
    constructor
    · rintro ⟨hfinite, hnominal, rfl⟩
      exact ⟨h, hfinite, hnominal, rfl⟩
    · rintro ⟨_, hfinite, hnominal, rfl⟩
      exact ⟨hfinite, hnominal, rfl⟩

theorem length_powers (load : BranchLoad F n) : load.powers.length = load.branches := by
  rw [BranchLoad.powers, List.length_map, List.length_finRange]

theorem get_powers (load : BranchLoad F n) (branch : Fin load.branches) :
    load.powers.get (branch.cast (length_powers load).symm) = load.power branch := by
  simp only [BranchLoad.powers, List.get_eq_getElem, List.getElem_map, List.getElem_finRange]
  rfl

theorem replacePower_powers {load replaced : BranchLoad F n} {power : List (Complex64 F)}
    (h : load.replacePower power = .ok replaced) : replaced.powers = power := by
  obtain ⟨hlength, -, -, rfl⟩ := replacePower_eq_ok.mp h
  apply List.ext_get
  · exact (length_powers _).trans hlength.symm
  · intro i hi hi'
    simp [BranchLoad.powers]

theorem replacePower_sound {load replaced : BranchLoad F n} {power : List (Complex64 F)}
    (h : load.replacePower power = .ok replaced) : replaced.Sound ∧ load.SameLaw replaced := by
  obtain ⟨hlength, hfinite, hnominal, rfl⟩ := replacePower_eq_ok.mp h
  exact ⟨⟨fun branch => hfinite _ (List.get_mem _ _), fun _ => rfl, hnominal⟩, _, _, rfl⟩

theorem replacePower_restores {load replaced : BranchLoad F n} {power : List (Complex64 F)}
    (hsound : load.Sound) (h : load.replacePower power = .ok replaced) :
    replaced.replacePower load.powers = .ok load := by
  obtain ⟨-, -, -, rfl⟩ := replacePower_eq_ok.mp h
  rw [replacePower_eq_ok]
  refine ⟨length_powers load, ?_, ?_, ?_⟩
  · intro value hvalue
    obtain ⟨branch, -, rfl⟩ := List.mem_map.mp hvalue
    exact hsound.finite branch
  · intro branch
    change (BranchLoad.admittanceOf (load.powers.get (Fin.cast (length_powers load).symm branch))
      (load.nominalVoltage branch)).isFinite = true
    rw [get_powers, ← hsound.nominal]
    exact hsound.nominalFinite branch
  · have hpower : (fun branch => load.powers.get (Fin.cast (length_powers load).symm branch)) =
        load.power := funext (get_powers load)
    have hnominal : (fun branch => BranchLoad.admittanceOf
        (load.powers.get (Fin.cast (length_powers load).symm branch))
        (load.nominalVoltage branch)) = load.nominalAdmittance := by
      funext branch
      rw [get_powers, hsound.nominal]
    simp only [hpower, hnominal]

theorem prepareLoad_sound {row : DistLoad F T} {terminal : String → Except String (Fin n)}
    {inferred : Option (List F)} {load : BranchLoad F n}
    (h : prepareLoad row terminal inferred = .ok load) : load.Sound := by
  unfold prepareLoad at h
  split at h
  case isFalse => cases h
  case isTrue hq =>
    simp only [ite_error_eq_ok, bind_eq_ok] at h
    obtain ⟨-, hfinite, incidence, -, h⟩ := h
    split at h
    case isFalse => cases h
    case isTrue hi =>
      simp only [bind_eq_ok, ite_error_eq_ok, Except.ok.injEq] at h
      obtain ⟨nominalVoltage, -, -, hnominal, model, -, rfl⟩ := h
      simp only [List.any_eq_true, not_exists, not_and, Bool.not_eq_true, Bool.not_eq_false',
        List.mem_finRange, true_implies, List.mem_append] at hfinite hnominal
      refine ⟨?_, fun _ => rfl, hnominal⟩
      intro branch
      exact Bool.and_eq_true_iff.mpr ⟨hfinite _ (Or.inl (List.get_mem _ _)),
        hfinite _ (Or.inr (List.get_mem _ _))⟩

namespace McPfSession

/-! ### Applying and restoring powers -/

/-- The powers of a load are those asked for, or had been equal to them before. -/
def Holds (load : BranchLoad F n) (power : List (Complex64 F)) : Prop :=
  load.powers = power ∨ powersEq load.powers power = true

/-- What a change of loads leaves, from the position of the first of them. -/
structure Applies (index : ℕ) (loads : List (BranchLoad F n)) (powers : List (List (Complex64 F)))
    (applied : Applied F n) : Prop where
  sameLaw : List.Forall₂ BranchLoad.SameLaw loads applied.loads
  sound : ∀ load ∈ applied.loads, load.Sound
  restores : ∀ before : List (BranchLoad F n), before.length = index →
    rollBack (before ++ applied.loads) applied.previous = some (before ++ loads)
  holds : applied.outcome = .ok () → powers.length = loads.length →
    List.Forall₂ Holds applied.loads powers

theorem forall₂_refl {α : Type} {r : α → α → Prop} (h : ∀ a, r a a) (l : List α) :
    List.Forall₂ r l l := by
  rw [List.forall₂_same]
  exact fun a _ => h a

theorem applies_unchanged {index : ℕ} {loads : List (BranchLoad F n)}
    {powers : List (List (Complex64 F))} {outcome : Except String Unit}
    (hsound : ∀ load ∈ loads, load.Sound)
    (hholds : outcome = .ok () → powers.length = loads.length → loads = []) :
    Applies index loads powers ⟨loads, [], outcome⟩ := by
  refine ⟨forall₂_refl BranchLoad.SameLaw.refl loads, hsound, fun _ _ => rfl, ?_⟩
  intro houtcome hlength
  obtain rfl := hholds houtcome hlength
  obtain rfl := List.length_eq_zero_iff.mp hlength
  exact .nil

theorem applyPowers_applies (index : ℕ) (loads : List (BranchLoad F n))
    (powers : List (List (Complex64 F))) (hsound : ∀ load ∈ loads, load.Sound) :
    Applies index loads powers (applyPowers index loads powers) := by
  induction loads generalizing index powers with
  | nil =>
    unfold applyPowers
    exact applies_unchanged hsound fun _ _ => rfl
  | cons load rest ih =>
    cases powers with
    | nil =>
      unfold applyPowers
      exact applies_unchanged hsound fun _ hlength => by cases hlength
    | cons power powers =>
      have hload := hsound load List.mem_cons_self
      have hrest := ih (index + 1) powers fun other hother =>
        hsound other (List.mem_cons_of_mem _ hother)
      have hbefore : ∀ (before : List (BranchLoad F n)) (a : BranchLoad F n),
          before.length = index → (before ++ [a]).length = index + 1 := by
        intro before a hlength
        rw [List.length_append, hlength, List.length_singleton]
      unfold applyPowers
      split
      case isTrue hequal =>
        refine ⟨.cons (.refl load) hrest.sameLaw, ?_, ?_, ?_⟩
        · intro other hother
          rcases List.mem_cons.mp hother with rfl | hother
          · exact hload
          · exact hrest.sound other hother
        · intro before hlength
          have hrestored := hrest.restores (before ++ [load]) (hbefore before load hlength)
          rw [List.append_assoc, List.append_assoc] at hrestored
          exact hrestored
        · intro houtcome hlength
          exact .cons (Or.inr hequal) (hrest.holds houtcome (Nat.succ.inj hlength))
      case isFalse =>
        cases hreplace : load.replacePower power with
        | error message =>
          exact applies_unchanged hsound fun houtcome _ => by cases houtcome
        | ok replaced =>
          obtain ⟨hreplaced, hlaw⟩ := replacePower_sound hreplace
          refine ⟨.cons hlaw hrest.sameLaw, ?_, ?_, ?_⟩
          · intro other hother
            rcases List.mem_cons.mp hother with rfl | hother
            · exact hreplaced
            · exact hrest.sound other hother
          · intro before hlength
            have hget : (before ++ replaced :: (applyPowers (index + 1) rest powers).loads)[index]? =
                some replaced := by
              rw [← hlength, List.getElem?_append_right (Nat.le_refl _), Nat.sub_self]
              rfl
            have hset : (before ++ replaced :: (applyPowers (index + 1) rest powers).loads).set index
                load = before ++ [load] ++ (applyPowers (index + 1) rest powers).loads := by
              rw [← hlength, List.set_append_right _ _ (Nat.le_refl _), Nat.sub_self,
                List.append_assoc]
              rfl
            have hrestored := hrest.restores (before ++ [load]) (hbefore before load hlength)
            simp only [rollBack, hget, replacePower_restores hload hreplace, hset, hrestored]
            rw [List.append_assoc]
            rfl
          · intro houtcome hlength
            exact .cons (Or.inl (replacePower_powers hreplace))
              (hrest.holds houtcome (Nat.succ.inj hlength))

/-! ### Overlays -/

def powerAt (power : List (List (Complex64 F))) (load branch : ℕ) : Option (Complex64 F) :=
  power[load]?.bind fun row => row[branch]?

theorem place_powerAt (power : List (List (Complex64 F))) (load branch : ℕ) (value : Complex64 F)
    (i j : ℕ) :
    powerAt (place power load branch value) i j =
      if i = load ∧ j = branch then (powerAt power i j).map fun _ => value
      else powerAt power i j := by
  unfold powerAt place
  rw [List.getElem?_modify]
  cases power[i]? with
  | none => simp
  | some row =>
    by_cases hi : load = i
    · subst hi
      by_cases hj : branch = j
      · subst hj
        simp only [Option.map_eq_map, Option.map_some, if_true, Option.bind_some, and_self,
          List.getElem?_set_self']
        rfl
      · simp [List.getElem?_set_ne hj, Ne.symm hj]
    · simp [hi, Ne.symm hi]

theorem place_length (power : List (List (Complex64 F))) (load branch : ℕ) (value : Complex64 F)
    (i : ℕ) : ((place power load branch value).getD i []).length = (power.getD i []).length := by
  unfold place
  rw [List.getD_eq_getElem?_getD, List.getD_eq_getElem?_getD, List.getElem?_modify]
  cases power[i]? with
  | none => rfl
  | some row =>
    by_cases hi : load = i
    · simp [hi]
    · simp [hi]

theorem place_comm (power : List (List (Complex64 F))) {load branch load' branch' : ℕ}
    (h : (load, branch) ≠ (load', branch')) (value value' : Complex64 F) :
    place (place power load branch value) load' branch' value' =
      place (place power load' branch' value') load branch value := by
  apply List.ext_getElem?
  intro i
  unfold place
  simp only [List.getElem?_modify]
  cases power[i]? with
  | none => rfl
  | some row =>
    by_cases hload : load = i
    · by_cases hload' : load' = i
      · have hbranch : branch ≠ branch' := by
          rintro rfl
          exact h (by rw [hload, hload'])
        simp [hload, hload', List.set_comm _ _ hbranch]
      · simp [hload, hload']
    · simp [hload]

def keyOf (index : List (String × ℕ)) (edit : McLoadPowerEdit F) : Option ℕ × ℕ :=
  (index.lookup edit.load, edit.branch)

structure ValidEdit (index : List (String × ℕ)) (base : List (List (Complex64 F)))
    (edit : McLoadPowerEdit F) : Prop where
  named : isBlank edit.load = false
  finiteP : isFinite edit.pW = true
  finiteQ : isFinite edit.qVar = true
  known : ∃ load, index.lookup edit.load = some load ∧
    edit.branch < (base.getD load []).length

structure ValidEdits (index : List (String × ℕ)) (base : List (List (Complex64 F)))
    (edits : List (McLoadPowerEdit F)) : Prop where
  each : ∀ edit ∈ edits, ValidEdit index base edit
  distinct : (edits.map (keyOf index)).Nodup

theorem ValidEdits.perm {index : List (String × ℕ)} {base : List (List (Complex64 F))}
    {edits other : List (McLoadPowerEdit F)} (h : ValidEdits index base edits)
    (hperm : edits.Perm other) : ValidEdits index base other :=
  ⟨fun edit hedit => h.each edit (hperm.mem_iff.mpr hedit), (hperm.map _).nodup h.distinct⟩

def placeEdit (index : List (String × ℕ)) (power : List (List (Complex64 F)))
    (edit : McLoadPowerEdit F) : List (List (Complex64 F)) :=
  (index.lookup edit.load).elim power fun load =>
    place power load edit.branch ⟨edit.pW, edit.qVar⟩

def overridden (index : List (String × ℕ)) (base : List (List (Complex64 F)))
    (edits : List (McLoadPowerEdit F)) : List (List (Complex64 F)) :=
  edits.foldl (placeEdit index) base

theorem placeEdit_length (index : List (String × ℕ)) (power : List (List (Complex64 F)))
    (edit : McLoadPowerEdit F) (i : ℕ) :
    ((placeEdit index power edit).getD i []).length = (power.getD i []).length := by
  unfold placeEdit
  cases index.lookup edit.load with
  | none => rfl
  | some load => exact place_length _ _ _ _ _

theorem validEdit_congr {index : List (String × ℕ)} {base power : List (List (Complex64 F))}
    (h : ∀ i, (power.getD i []).length = (base.getD i []).length) (edit : McLoadPowerEdit F) :
    ValidEdit index power edit ↔ ValidEdit index base edit := by
  constructor
  · rintro ⟨hnamed, hp, hq, load, hload, hbranch⟩
    exact ⟨hnamed, hp, hq, load, hload, h load ▸ hbranch⟩
  · rintro ⟨hnamed, hp, hq, load, hload, hbranch⟩
    exact ⟨hnamed, hp, hq, load, hload, (h load).symm ▸ hbranch⟩

theorem overlayEdit_eq_ok {index : List (String × ℕ)} {overlay next : Overlay F}
    {edit : McLoadPowerEdit F} :
    overlayEdit index overlay edit = .ok next ↔
      ValidEdit index overlay.nextPower edit ∧
      (∀ load, index.lookup edit.load = some load → (load, edit.branch) ∉ overlay.seen) ∧
      next.nextPower = placeEdit index overlay.nextPower edit ∧
      ∀ load, index.lookup edit.load = some load →
        next.seen = (load, edit.branch) :: overlay.seen := by
  unfold overlayEdit
  rw [ite_error_eq_ok, Bool.not_eq_true, Bool.or_eq_false_iff, Bool.or_eq_false_iff,
    Bool.not_eq_false', Bool.not_eq_false']
  cases hload : index.lookup edit.load with
  | none =>
    constructor
    · rintro ⟨-, h⟩
      cases h
    · rintro ⟨⟨-, -, -, load, hsome, -⟩, -⟩
      rw [hload] at hsome
      cases hsome
  | some load =>
    simp only [ite_error_eq_ok, Except.ok.injEq, Option.some.injEq, forall_eq']
    constructor
    · rintro ⟨⟨⟨hnamed, hp⟩, hq⟩, hbranch, hnew, rfl⟩
      refine ⟨⟨hnamed, hp, hq, load, hload, Nat.lt_of_not_le hbranch⟩, hnew, ?_, rfl⟩
      rw [placeEdit, hload, Option.elim_some]
    · rintro ⟨⟨hnamed, hp, hq, load', hload', hbranch⟩, hnew, hpower, hseen⟩
      obtain rfl := Option.some.inj (hload.symm.trans hload')
      refine ⟨⟨⟨hnamed, hp⟩, hq⟩, Nat.not_le_of_lt hbranch, hnew, ?_⟩
      obtain ⟨nextPower, seen⟩ := next
      rw [placeEdit, hload, Option.elim_some] at hpower
      rw [Overlay.mk.injEq]
      exact ⟨hpower.symm, hseen.symm⟩

theorem overlay_eq_ok (index : List (String × ℕ)) {base : List (List (Complex64 F))}
    {overlay : Overlay F} (hlength : ∀ i, (overlay.nextPower.getD i []).length =
      (base.getD i []).length) (edits : List (McLoadPowerEdit F)) :
    (∃ final, edits.foldlM (overlayEdit index) overlay = .ok final) ↔
      ValidEdits index base edits ∧ ∀ edit ∈ edits, ∀ load, index.lookup edit.load = some load →
        (load, edit.branch) ∉ overlay.seen := by
  induction edits generalizing overlay with
  | nil =>
    constructor
    · intro _
      exact ⟨⟨nofun, List.nodup_nil⟩, nofun⟩
    · intro _
      exact ⟨overlay, rfl⟩
  | cons edit rest ih =>
    have hnextLength : ∀ next : Overlay F, next.nextPower = placeEdit index overlay.nextPower edit →
        ∀ i, (next.nextPower.getD i []).length = (base.getD i []).length := by
      intro next hnext i
      rw [hnext, placeEdit_length, hlength]
    simp only [List.foldlM_cons, bind_eq_ok]
    constructor
    · rintro ⟨final, next, hnext, hfinal⟩
      obtain ⟨hvalid, hnew, hpower, hseen⟩ := overlayEdit_eq_ok.mp hnext
      obtain ⟨hrest, hfresh⟩ := (ih (hnextLength next hpower)).mp ⟨final, hfinal⟩
      have hvalid' := (validEdit_congr hlength edit).mp hvalid
      refine ⟨⟨?_, ?_⟩, ?_⟩
      · intro other hother
        rcases List.mem_cons.mp hother with rfl | hother
        · exact hvalid'
        · exact hrest.each other hother
      · rw [List.map_cons, List.nodup_cons]
        refine ⟨?_, hrest.distinct⟩
        intro hmem
        obtain ⟨other, hother, hkey⟩ := List.mem_map.mp hmem
        obtain ⟨load, hload, -⟩ := hvalid.known
        have hsame : index.lookup other.load = some load := (congrArg Prod.fst hkey).trans hload
        have hbranch : other.branch = edit.branch := congrArg Prod.snd hkey
        apply hfresh other hother load hsame
        rw [hseen load hload, hbranch]
        exact List.mem_cons_self
      · intro other hother load hload hmem
        rcases List.mem_cons.mp hother with rfl | hother
        · exact hnew load hload hmem
        · apply hfresh other hother load hload
          obtain ⟨load', hload', -⟩ := hvalid.known
          rw [hseen load' hload']
          exact List.mem_cons_of_mem _ hmem
    · rintro ⟨⟨heach, hdistinct⟩, hfresh⟩
      have hvalid := heach edit List.mem_cons_self
      obtain ⟨load, hload, -⟩ := hvalid.known
      rw [List.map_cons, List.nodup_cons] at hdistinct
      have hnext : overlayEdit index overlay edit = .ok
          ⟨placeEdit index overlay.nextPower edit, (load, edit.branch) :: overlay.seen⟩ := by
        rw [overlayEdit_eq_ok]
        refine ⟨(validEdit_congr hlength edit).mpr hvalid, hfresh edit List.mem_cons_self, rfl, ?_⟩
        intro load' hload'
        obtain rfl := Option.some.inj (hload.symm.trans hload')
        rfl
      have hrest : ∀ other ∈ rest, ∀ load', index.lookup other.load = some load' →
          (load', other.branch) ∉ (load, edit.branch) :: overlay.seen := by
        intro other hother load' hload' hmem
        rcases List.mem_cons.mp hmem with hsame | hold
        · obtain ⟨rfl, hbranch⟩ := Prod.mk.inj hsame
          apply hdistinct.1
          rw [List.mem_map]
          exact ⟨other, hother, Prod.ext (hload'.trans hload.symm) hbranch⟩
        · exact hfresh other (List.mem_cons_of_mem _ hother) load' hload' hold
      obtain ⟨final, hfinal⟩ := (ih (hnextLength ⟨_, (load, edit.branch) :: overlay.seen⟩
        rfl)).mpr ⟨⟨fun other hother => heach other (List.mem_cons_of_mem _ hother),
          hdistinct.2⟩, hrest⟩
      exact ⟨final, _, hnext, hfinal⟩

theorem overlay_nextPower {index : List (String × ℕ)} {overlay final : Overlay F}
    {edits : List (McLoadPowerEdit F)}
    (h : edits.foldlM (overlayEdit index) overlay = .ok final) :
    final.nextPower = overridden index overlay.nextPower edits := by
  induction edits generalizing overlay with
  | nil =>
    obtain rfl := Except.ok.inj h
    rfl
  | cons edit rest ih =>
    simp only [List.foldlM_cons, bind_eq_ok] at h
    obtain ⟨next, hnext, hrest⟩ := h
    obtain ⟨-, -, hpower, -⟩ := overlayEdit_eq_ok.mp hnext
    rw [ih hrest, hpower]
    rfl

theorem overridden_perm {index : List (String × ℕ)} {base : List (List (Complex64 F))}
    {edits other : List (McLoadPowerEdit F)} (hdistinct : (edits.map (keyOf index)).Nodup)
    (hperm : edits.Perm other) : overridden index base edits = overridden index base other := by
  apply hperm.foldl_eq'
  intro a ha b hb power
  unfold placeEdit
  cases hload : index.lookup a.load with
  | none => rfl
  | some load =>
    cases hload' : index.lookup b.load with
    | none => rfl
    | some load' =>
      simp only [Option.elim_some]
      by_cases hkey : (load, a.branch) = (load', b.branch)
      · have hsame : a = b := List.inj_on_of_nodup_map hdistinct ha hb (by
          rw [keyOf, keyOf, hload, hload']
          exact Prod.ext (congrArg some (Prod.mk.inj hkey).1) (Prod.mk.inj hkey).2)
        subst hsame
        rw [Option.some.inj (hload.symm.trans hload')]
      · exact place_comm power hkey _ _

theorem overridden_other {index : List (String × ℕ)} {base : List (List (Complex64 F))}
    {edits : List (McLoadPowerEdit F)} {load branch : ℕ}
    (h : ∀ edit ∈ edits, keyOf index edit ≠ (some load, branch)) :
    powerAt (overridden index base edits) load branch = powerAt base load branch := by
  induction edits generalizing base with
  | nil => rfl
  | cons edit rest ih =>
    change powerAt (overridden index (placeEdit index base edit) rest) load branch = _
    rw [ih fun other hother => h other (List.mem_cons_of_mem _ hother)]
    have hne := h edit List.mem_cons_self
    unfold placeEdit
    cases hload : index.lookup edit.load with
    | none => rfl
    | some load' =>
      rw [Option.elim_some, place_powerAt, if_neg]
      rintro ⟨rfl, rfl⟩
      exact hne (by rw [keyOf, hload])

theorem overridden_edit {index : List (String × ℕ)} {base : List (List (Complex64 F))}
    {edits : List (McLoadPowerEdit F)} (h : ValidEdits index base edits)
    {edit : McLoadPowerEdit F} (hedit : edit ∈ edits) :
    ∃ load, index.lookup edit.load = some load ∧
      powerAt (overridden index base edits) load edit.branch = some ⟨edit.pW, edit.qVar⟩ := by
  obtain ⟨load, hload, hbranch⟩ := (h.each edit hedit).known
  refine ⟨load, hload, ?_⟩
  obtain ⟨before, after, rfl⟩ := List.append_of_mem hedit
  have hperm : (before ++ edit :: after).Perm ((before ++ after) ++ [edit]) :=
    List.perm_middle.trans (List.perm_append_singleton edit (before ++ after)).symm
  have hlength : ∀ (edits : List (McLoadPowerEdit F)) (power : List (List (Complex64 F))) (i : ℕ),
      ((overridden index power edits).getD i []).length = (power.getD i []).length := by
    intro edits
    induction edits with
    | nil => exact fun _ _ => rfl
    | cons edit rest ih =>
      intro power i
      change ((overridden index (placeEdit index power edit) rest).getD i []).length = _
      rw [ih, placeEdit_length]
  have hin := hlength (before ++ after) base load
  rw [overridden_perm h.distinct hperm, overridden, List.foldl_append, List.foldl_cons,
    List.foldl_nil]
  change powerAt (placeEdit index (overridden index base (before ++ after)) edit) load
    edit.branch = _
  rw [← hin] at hbranch
  generalize overridden index base (before ++ after) = power at hbranch
  rw [placeEdit, hload, Option.elim_some, place_powerAt, if_pos ⟨rfl, rfl⟩, powerAt]
  rw [List.getD_eq_getElem?_getD] at hbranch
  cases hrow : power[load]? with
  | none =>
    rw [hrow] at hbranch
    exact absurd hbranch (Nat.not_lt_zero _)
  | some row =>
    rw [hrow, Option.getD_some] at hbranch
    rw [Option.bind_some, List.getElem?_eq_getElem hbranch]
    rfl

/-! ### Calls -/

variable {session first : McPfSession F T R}

theorem overridden_length (index : List (String × ℕ)) (base : List (List (Complex64 F)))
    (edits : List (McLoadPowerEdit F)) : (overridden index base edits).length = base.length := by
  induction edits generalizing base with
  | nil => rfl
  | cons edit rest ih =>
    change (overridden index (placeEdit index base edit) rest).length = _
    rw [ih]
    unfold placeEdit
    cases index.lookup edit.load with
    | none => rfl
    | some load => exact List.length_modify _ _ _

theorem accepts_iff (index : List (String × ℕ)) (base : List (List (Complex64 F)))
    (edits : List (McLoadPowerEdit F)) :
    (∃ final, edits.foldlM (overlayEdit index) ⟨base, []⟩ = .ok final) ↔
      ValidEdits index base edits := by
  rw [overlay_eq_ok index fun _ => rfl]
  exact and_iff_left fun _ _ _ _ => List.not_mem_nil

/-- A session whose loads are sound, and that has a base power for each of them. -/
structure Ready (session : McPfSession F T R) : Prop where
  sound : ∀ load ∈ session.prepared.loads, load.Sound
  length : session.basePower.length = session.prepared.loads.length

/-- A call that succeeds commits loads of the same laws, with the powers that it asks for. -/
structure Commits (session : McPfSession F T R) (edits : List (McLoadPowerEdit F))
    (index : List (String × ℕ)) (loads : List (BranchLoad F session.prepared.index.size)) :
    Prop where
  loadIndex : session.loadIndex = .ok index
  valid : ValidEdits index session.basePower edits
  sameLaw : List.Forall₂ BranchLoad.SameLaw session.prepared.loads loads
  sound : ∀ load ∈ loads, load.Sound
  holds : List.Forall₂ Holds loads (overridden index session.basePower edits)

theorem replaceLoadPowers_eq (session : McPfSession F T R) (edits : List (McLoadPowerEdit F)) :
    (∃ message, session.replaceLoadPowers edits = some (session, .error message)) ∨
    ∃ index overlay, session.loadIndex = .ok index ∧
      edits.foldlM (overlayEdit index) ⟨session.basePower, []⟩ = .ok overlay ∧
      session.replaceLoadPowers edits =
        match (applyPowers 0 session.prepared.loads overlay.nextPower).outcome.bind fun _ =>
            session.solveAgain (applyPowers 0 session.prepared.loads overlay.nextPower).loads with
        | .error message =>
          (rollBack (applyPowers 0 session.prepared.loads overlay.nextPower).loads
            (applyPowers 0 session.prepared.loads overlay.nextPower).previous).map fun loads =>
              (session.restored loads, .error message)
        | .ok (state, summary) =>
          some (session.committed
              (applyPowers 0 session.prepared.loads overlay.nextPower).loads state summary,
            .ok (session.committed
              (applyPowers 0 session.prepared.loads overlay.nextPower).loads state
                summary).summary) := by
  cases hindex : session.loadIndex with
  | error message => exact Or.inl ⟨message, by simp only [replaceLoadPowers, hindex]⟩
  | ok index =>
    cases hfold : edits.foldlM (overlayEdit index) ⟨session.basePower, []⟩ with
    | error message => exact Or.inl ⟨message, by simp only [replaceLoadPowers, hindex, hfold]⟩
    | ok overlay =>
      refine Or.inr ⟨index, overlay, rfl, hfold, ?_⟩
      rw [replaceLoadPowers, hindex]
      dsimp only
      exact hfold ▸ rfl

/-- A call leaves the session as it is, or commits. It never fails to restore a load. -/
theorem replaceLoadPowers_spec (hready : Ready session) (edits : List (McLoadPowerEdit F)) :
    (∃ message, session.replaceLoadPowers edits = some (session, .error message)) ∨
    ∃ index loads state summary, Commits session edits index loads ∧
      session.replaceLoadPowers edits =
        some (session.committed loads state summary,
          .ok (session.committed loads state summary).summary) := by
  rcases replaceLoadPowers_eq session edits with hfailed | ⟨index, overlay, hindex, hfold, heq⟩
  · exact Or.inl hfailed
  · have hvalid := (accepts_iff index session.basePower edits).mp ⟨overlay, hfold⟩
    have hnext : overlay.nextPower = overridden index session.basePower edits :=
      overlay_nextPower hfold
    have happlies := applyPowers_applies 0 session.prepared.loads overlay.nextPower hready.sound
    have hlength : overlay.nextPower.length = session.prepared.loads.length := by
      rw [hnext, overridden_length, hready.length]
    rw [heq]
    generalize applyPowers 0 session.prepared.loads overlay.nextPower = applied at happlies ⊢
    have hrestores : rollBack applied.loads applied.previous = some session.prepared.loads :=
      happlies.restores [] rfl
    cases houtcome : applied.outcome with
    | error message =>
      left
      rw [hrestores]
      exact ⟨message, rfl⟩
    | ok _ =>
      cases hsolve : session.solveAgain applied.loads with
      | error message =>
        left
        simp only [Except.bind, hrestores]
        exact ⟨message, rfl⟩
      | ok solved =>
        refine Or.inr ⟨index, applied.loads, solved.1, solved.2, ?_, ?_⟩
        · exact ⟨hindex, hvalid, happlies.sameLaw, happlies.sound,
            hnext ▸ happlies.holds houtcome hlength⟩
        · simp only [Except.bind]

theorem replaceLoadPowers_perm {edits other : List (McLoadPowerEdit F)}
    (hperm : edits.Perm other) :
    session.replaceLoadPowers other = session.replaceLoadPowers edits ∨
    ∃ message message', session.replaceLoadPowers edits = some (session, .error message) ∧
      session.replaceLoadPowers other = some (session, .error message') := by
  cases hindex : session.loadIndex with
  | error message =>
    left
    simp only [replaceLoadPowers, hindex]
  | ok index =>
    by_cases hvalid : ValidEdits index session.basePower edits
    · obtain ⟨overlay, hfold⟩ := (accepts_iff _ _ _).mpr hvalid
      obtain ⟨overlay', hfold'⟩ := (accepts_iff _ _ _).mpr (hvalid.perm hperm)
      have hpower : overlay'.nextPower = overlay.nextPower := by
        rw [overlay_nextPower hfold, overlay_nextPower hfold', overridden_perm hvalid.distinct hperm]
      left
      simp only [replaceLoadPowers, hindex, hfold, hfold', hpower]
    · right
      have hfails : ∀ edits, ¬ValidEdits index session.basePower edits →
          ∃ message, session.replaceLoadPowers edits = some (session, .error message) := by
        intro edits hvalid
        cases hfold : edits.foldlM (overlayEdit index) ⟨session.basePower, []⟩ with
        | error message => exact ⟨message, by simp only [replaceLoadPowers, hindex, hfold]⟩
        | ok overlay => exact absurd ((accepts_iff _ _ _).mp ⟨overlay, hfold⟩) hvalid
      obtain ⟨message, hfailed⟩ := hfails edits hvalid
      obtain ⟨message', hfailed'⟩ := hfails other fun h => hvalid (h.perm hperm.symm)
      exact ⟨message, message', hfailed, hfailed'⟩

/-! ### Runs -/

/-- The sessions that calls lead to, with the edits of the last successful call. -/
inductive Reaches (first : McPfSession F T R) :
    McPfSession F T R → List (McLoadPowerEdit F) → Prop where
  | start : Reaches first first []
  | success {session next edits edits' summary} : Reaches first session edits →
      session.replaceLoadPowers edits' = some (next, .ok summary) → Reaches first next edits'
  | failure {session next edits edits' message} : Reaches first session edits →
      session.replaceLoadPowers edits' = some (next, .error message) → Reaches first next edits

/-- The base powers of a session overridden by edits. -/
def target (first : McPfSession F T R) (edits : List (McLoadPowerEdit F)) :
    List (List (Complex64 F)) :=
  match first.loadIndex with
  | .ok index => overridden index first.basePower edits
  | .error _ => first.basePower

/-- The session with other loads at another operating point. -/
def moved (first : McPfSession F T R) (loads : List (BranchLoad F first.prepared.index.size))
    (state : FixedPoint F first.prepared.index.size) (summary : McPfSummary F) (solveCount : ℕ) :
    McPfSession F T R :=
  { first with prepared := withLoads first.prepared loads, state, summary, solveCount }

def Accepted (first : McPfSession F T R) (edits : List (McLoadPowerEdit F)) : Prop :=
  match first.loadIndex with
  | .ok index => ValidEdits index first.basePower edits
  | .error _ => edits = []

/-- What every call preserves: the network of the first session with loads of the same laws, whose
powers are those of the last successful edits. -/
structure Follows (first session : McPfSession F T R) (edits : List (McLoadPowerEdit F))
    (loads : List (BranchLoad F first.prepared.index.size)) : Prop where
  moved : ∃ state summary solveCount, session = first.moved loads state summary solveCount
  sameLaw : List.Forall₂ BranchLoad.SameLaw first.prepared.loads loads
  sound : ∀ load ∈ loads, load.Sound
  holds : List.Forall₂ Holds loads (first.target edits)
  accepted : first.Accepted edits

theorem forall₂_trans {α : Type} {r : α → α → Prop} (h : ∀ {a b c}, r a b → r b c → r a c)
    {l₁ l₂ l₃ : List α} (h₁ : List.Forall₂ r l₁ l₂) (h₂ : List.Forall₂ r l₂ l₃) :
    List.Forall₂ r l₁ l₃ := by
  induction h₁ generalizing l₃ with
  | nil => exact h₂
  | cons hhead _ ih =>
    cases h₂ with
    | cons hhead' hrest => exact .cons (h hhead hhead') (ih hrest)

theorem follows_start (hready : Ready first)
    (hbase : first.basePower = first.prepared.loads.map BranchLoad.powers) :
    Follows first first [] first.prepared.loads := by
  have htarget : first.target [] = first.basePower := by
    unfold target
    cases first.loadIndex <;> rfl
  have haccepted : first.Accepted [] := by
    unfold Accepted
    cases first.loadIndex with
    | error message => rfl
    | ok index => exact ⟨nofun, List.nodup_nil⟩
  refine ⟨⟨_, _, _, rfl⟩, forall₂_refl BranchLoad.SameLaw.refl _, hready.sound, ?_, haccepted⟩
  rw [htarget, hbase]
  generalize first.prepared.loads = loads
  induction loads with
  | nil => exact .nil
  | cons load rest ih => exact .cons (Or.inl rfl) ih

theorem follows_ready (hready : Ready first) {edits : List (McLoadPowerEdit F)}
    {loads : List (BranchLoad F first.prepared.index.size)}
    (h : Follows first session edits loads) : Ready session := by
  obtain ⟨state, summary, solveCount, rfl⟩ := h.moved
  refine ⟨h.sound, ?_⟩
  exact hready.length.trans h.sameLaw.length_eq

theorem follows_call (hready : Ready first) {edits edits' : List (McLoadPowerEdit F)}
    {loads : List (BranchLoad F first.prepared.index.size)}
    (h : Follows first session edits loads) {next : McPfSession F T R}
    {outcome : Except String (McPfSummary F)}
    (hcall : session.replaceLoadPowers edits' = some (next, outcome)) :
    ∃ loads', Follows first next (outcome.toOption.elim edits fun _ => edits') loads' := by
  have hsession := follows_ready hready h
  obtain ⟨state, summary, solveCount, rfl⟩ := h.moved
  rcases replaceLoadPowers_spec hsession edits' with ⟨message, hfailed⟩ |
    ⟨index, loads', state', summary', hcommits, hdone⟩
  · rw [hfailed] at hcall
    obtain ⟨rfl, rfl⟩ := Prod.mk.inj (Option.some.inj hcall)
    exact ⟨loads, h⟩
  · rw [hdone] at hcall
    obtain ⟨rfl, rfl⟩ := Prod.mk.inj (Option.some.inj hcall)
    have hindex : first.loadIndex = .ok index := hcommits.loadIndex
    have htarget : first.target edits' = overridden index first.basePower edits' := by
      rw [target, hindex]
    have haccepted : first.Accepted edits' := by
      rw [Accepted, hindex]
      exact hcommits.valid
    refine ⟨loads', ⟨_, _, _, rfl⟩, ?_, hcommits.sound, htarget ▸ hcommits.holds, haccepted⟩
    exact forall₂_trans (r := BranchLoad.SameLaw) (fun hab hbc => hab.trans hbc) h.sameLaw
      hcommits.sameLaw

theorem reaches_follows (hready : Ready first)
    (hbase : first.basePower = first.prepared.loads.map BranchLoad.powers)
    {edits : List (McLoadPowerEdit F)} (h : Reaches first session edits) :
    ∃ loads, Follows first session edits loads := by
  induction h with
  | start => exact ⟨_, follows_start hready hbase⟩
  | success _ hcall ih =>
    obtain ⟨loads, hloads⟩ := ih
    exact follows_call hready hloads hcall
  | failure _ hcall ih =>
    obtain ⟨loads, hloads⟩ := ih
    exact follows_call hready hloads hcall

/-! ### New sessions -/

variable [DeviceModels F T]

theorem prepared_loads_sound {inst : McAcPfInstance F T} {base : PreparedNetwork F}
    (h : prepare inst = .ok base) : ∀ load ∈ base.loads, load.Sound := by
  obtain ⟨index, assembly, terminals, factor, -, hassembly, -, -, rfl⟩ := prepare_eq_ok h
  obtain ⟨parts⟩ := assemble_eq_ok hassembly
  intro load hload
  obtain ⟨row, -, hrow⟩ := forall₂_right (forall₂_of_mapM_ok parts.prepareLoads) hload
  unfold prepareInstanceLoad at hrow
  split at hrow
  case h_1 => cases hrow
  case h_2 => exact prepareLoad_sound hrow

structure New (inst : McAcPfInstance F T) (options : McPfOptions F)
    (first : McPfSession F T R) : Prop where
  prepared : prepare inst = .ok first.prepared
  baseInstance : first.baseInstance = inst
  basePower : first.basePower = first.prepared.loads.map BranchLoad.powers
  loadIndex : first.loadIndex = indexLoads (first.prepared.loads.map BranchLoad.name) 0 []
  fullNetwork : first.fullNetwork = none
  solveCount : first.solveCount = 1

theorem new_eq_ok {inst : McAcPfInstance F T} {options : McPfOptions F}
    (h : McPfSession.new inst options = .ok first) : New inst options first := by
  simp only [McPfSession.new, bind_eq_ok, lift_eq_ok, Except.ok.injEq] at h
  obtain ⟨-, -, base, hbase, state, -, summary, -, rfl⟩ := h
  exact ⟨hbase, rfl, rfl, rfl, rfl, rfl⟩

theorem New.ready {inst : McAcPfInstance F T} {options : McPfOptions F}
    (h : New inst options first) : Ready first :=
  ⟨prepared_loads_sound h.prepared, by rw [h.basePower, List.length_map]⟩

/-- A branch without an edit has its base power, one with an edit the power of it. -/
structure Targets (first : McPfSession F T R) (edits : List (McLoadPowerEdit F)) : Prop where
  none_edited : edits = [] → first.target edits = first.basePower
  edited : ∀ index, first.loadIndex = .ok index → ∀ edit ∈ edits,
    ∃ load, index.lookup edit.load = some load ∧
      powerAt (first.target edits) load edit.branch = some ⟨edit.pW, edit.qVar⟩
  other : ∀ index, first.loadIndex = .ok index → ∀ load branch,
    (∀ edit ∈ edits, keyOf index edit ≠ (some load, branch)) →
      powerAt (first.target edits) load branch = powerAt first.basePower load branch

theorem targets {edits : List (McLoadPowerEdit F)} (h : first.Accepted edits) :
    first.Targets edits := by
  unfold Accepted at h
  constructor
  case none_edited =>
    rintro rfl
    unfold target
    cases first.loadIndex <;> rfl
  case edited =>
    intro index hindex edit hedit
    rw [hindex] at h
    rw [target, hindex]
    exact overridden_edit h hedit
  case other =>
    intro index hindex load branch hother
    rw [target, hindex]
    exact overridden_other hother

/-- What holds in every session that calls lead to from a first one, after the edits of the last
successful call. -/
structure Consistent (first session : McPfSession F T R) (edits : List (McLoadPowerEdit F)) :
    Prop where
  /-- Only the powers of the loads, and the admittances of them, are other than at first, and
  each admittance is that of its power. -/
  network : ∃ loads state summary solveCount,
    session = first.moved loads state summary solveCount ∧
    List.Forall₂ BranchLoad.SameLaw first.prepared.loads loads ∧
    List.Forall₂ Holds loads (first.target edits) ∧
    ∀ load ∈ loads, ∀ branch, load.nominalAdmittance branch =
      BranchLoad.admittanceOf (load.power branch) (load.nominalVoltage branch)
  targets : first.Targets edits
  /-- A call that fails leaves the session as it was. -/
  call : ∀ edits', ∃ next outcome, session.replaceLoadPowers edits' = some (next, outcome) ∧
    ∀ message, outcome = .error message → next = session
  /-- The order of the edits decides at most which error is returned. -/
  order : ∀ edits' other : List (McLoadPowerEdit F), edits'.Perm other →
    session.replaceLoadPowers other = session.replaceLoadPowers edits' ∨
    ∃ message message', session.replaceLoadPowers edits' = some (session, .error message) ∧
      session.replaceLoadPowers other = some (session, .error message')

/-- The sessions of any sequence of calls are consistent, failed calls included. The text of an error may depend
on the order of the edits, and nothing is claimed of it. -/
theorem edits_consistent {inst : McAcPfInstance F T} {options : McPfOptions F}
    (hnew : McPfSession.new inst options = .ok first) {edits : List (McLoadPowerEdit F)}
    (hreach : Reaches first session edits) : Consistent first session edits := by
  have hfirst := new_eq_ok hnew
  obtain ⟨loads, hloads⟩ := reaches_follows hfirst.ready hfirst.basePower hreach
  have hready : Ready session := follows_ready hfirst.ready hloads
  constructor
  case network =>
    obtain ⟨state, summary, solveCount, hmoved⟩ := hloads.moved
    exact ⟨loads, state, summary, solveCount, hmoved, hloads.sameLaw, hloads.holds,
      fun load hload => (hloads.sound load hload).nominal⟩
  case targets => exact McPfSession.targets hloads.accepted
  case call =>
    intro edits'
    rcases replaceLoadPowers_spec hready edits' with ⟨message, hfailed⟩ |
      ⟨index, loads', state, summary, -, hdone⟩
    · exact ⟨session, .error message, hfailed, fun _ _ => rfl⟩
    · exact ⟨_, _, hdone, fun _ hmessage => by cases hmessage⟩
  case order => exact fun _ _ hperm => replaceLoadPowers_perm hperm

end McPfSession

/-! ### A feeder with two lamps -/

section Witness

namespace McPfSession

variable {F T R : Type} [Libm F] [SparseLu F] {first session next : McPfSession F T R}

/-- The session after a call, and the error of one that fails. -/
def called (session : McPfSession F T R) (edits : List (McLoadPowerEdit F)) :
    Option (McPfSession F T R × Option String) :=
  (session.replaceLoadPowers edits).map fun (next, outcome) =>
    (next, match outcome with
      | .ok _ => none
      | .error message => some message)

theorem Reaches.called {edits edits' : List (McLoadPowerEdit F)} {error : Option String}
    (hreach : Reaches first session edits) (h : session.called edits' = some (next, error)) :
    Reaches first next (error.elim edits' fun _ => edits) := by
  simp only [McPfSession.called, Option.map_eq_some_iff, Prod.mk.injEq, Prod.exists] at h
  obtain ⟨next, outcome, hcall, rfl, rfl⟩ := h
  cases outcome with
  | ok summary => exact .success hreach hcall
  | error message => exact .failure hreach hcall

end McPfSession

attribute [local instance] plainDevices denseLu

def twoLamps : McAcPfInstance Float Unit :=
  feederInstance (feederNetwork [] [lamp "spare" "bus" ["b", "n"]])

/-- The errors of three calls: an edit of one lamp, one of an unknown load, and one of the other lamp
alone. -/
def editsRun : Result (Option (List (Option String))) := do
  let first : McPfSession Float Unit Unit ← McPfSession.new twoLamps looseOptions
  .ok do
    let second ← first.called [⟨"lamp", 0, 2, 0⟩]
    let third ← second.1.called [⟨"x", 0, 2, 0⟩]
    let last ← third.1.called [⟨"spare", 0, 3, 1⟩]
    some [second.2, third.2, last.2]

theorem editsRun_eq : editsRun = .ok (some [none, some "unknown load `x`", none]) := by
  decide +kernel

/-- The call that fails leaves nothing behind, and the last call takes the first edit back. -/
theorem edits_consistent_feeder : ∃ first last : McPfSession Float Unit Unit,
    McPfSession.new twoLamps looseOptions = .ok first ∧
      McPfSession.Reaches first last [⟨"spare", 0, 3, 1⟩] ∧
      McPfSession.Consistent first last [⟨"spare", 0, 3, 1⟩] := by
  have hrun := editsRun_eq
  simp only [editsRun, bind_eq_ok, Except.ok.injEq, Option.bind_eq_bind,
    Option.bind_eq_some_iff, Option.some.injEq, List.cons.injEq, and_true] at hrun
  obtain ⟨first, hnew, ⟨second, _⟩, hsecond, ⟨third, _⟩, hthird, ⟨last, _⟩, hlast, rfl, rfl, rfl⟩ :=
    hrun
  have hreach := ((McPfSession.Reaches.start.called hsecond).called hthird).called hlast
  exact ⟨first, last, hnew, hreach, McPfSession.edits_consistent hnew hreach⟩

/-- The errors of two edits of unknown loads, in both orders. -/
def unknownRun : Result (Option (List (Option String))) := do
  let first : McPfSession Float Unit Unit ← McPfSession.new twoLamps looseOptions
  .ok do
    let forth ← first.called [⟨"x", 0, 0, 0⟩, ⟨"y", 0, 0, 0⟩]
    let back ← first.called [⟨"y", 0, 0, 0⟩, ⟨"x", 0, 0, 0⟩]
    some [forth.2, back.2]

theorem unknownRun_eq :
    unknownRun = .ok (some [some "unknown load `x`", some "unknown load `y`"]) := by
  decide +kernel

/-- Two edits of loads that do not exist: the error names the first of them. -/
theorem order_decides_error : ∃ first : McPfSession Float Unit Unit,
    McPfSession.new twoLamps looseOptions = .ok first ∧
    first.replaceLoadPowers [⟨"x", 0, 0, 0⟩, ⟨"y", 0, 0, 0⟩] ≠
      first.replaceLoadPowers [⟨"y", 0, 0, 0⟩, ⟨"x", 0, 0, 0⟩] := by
  have hrun := unknownRun_eq
  simp only [unknownRun, bind_eq_ok, Except.ok.injEq, Option.bind_eq_bind,
    Option.bind_eq_some_iff, Option.some.injEq, List.cons.injEq, and_true] at hrun
  obtain ⟨first, hnew, forth, hforth, back, hback, hx, hy⟩ := hrun
  refine ⟨first, hnew, ?_⟩
  intro h
  rw [McPfSession.called, h, ← McPfSession.called, hback, Option.some.injEq] at hforth
  rw [← hforth, hy] at hx
  exact absurd hx (by decide)

end Witness

end Tellegen.Multiconductor
