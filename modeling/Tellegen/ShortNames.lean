import Mathlib.Algebra.Order.BigOperators.Group.List
import Mathlib.Data.List.NodupEquivFin
import Tellegen.Lib.JsString

/-!
Short display names for long ids. Parts that every id shares at its start or end
are dropped; a longer core keeps its head and tail around an ellipsis, and the
tail grows until no other name is the same.
-/

namespace Tellegen

/-! ### Distinctive cores -/

/-- `_ - . : /` and white space. -/
def isSeparator (u : UInt16) : Bool := u ∈ [95, 45, 46, 58, 47] ∨ JsString.isSpace u

/-- The parts of an id with the position of each, from `position` on; `run` is the part that is being
read. -/
def matchParts : JsString → ℕ → Option (ℕ × JsString) → List (ℕ × JsString)
  | [], _, run => run.toList
  | u :: rest, position, run =>
    if isSeparator u then run.toList ++ matchParts rest (position + 1) none
    else
      match run with
      | some (start, text) => matchParts rest (position + 1) (some (start, text ++ [u]))
      | none => matchParts rest (position + 1) (some (position, [u]))

/-- Whether every id has the part that the first one has. -/
def sharesPart (parts : List (List (ℕ × JsString)))
    (pick : List (ℕ × JsString) → Option (ℕ × JsString)) : Bool :=
  match (parts.head?.bind pick).map (·.2) with
  | some first => parts.all fun p => (pick p).map (·.2) = some first
  | none => false

/-- How often a loop with a rising counter goes on. -/
def countWhile (bound : ℕ) (condition : ℕ → Bool) : ℕ := ((List.range bound).takeWhile condition).length

def distinctiveCores (ids : List JsString) : List JsString :=
  if ids.length < 2 then ids
  else
    let parts := ids.map fun id => matchParts id 0 none
    let shortest := (parts.map List.length).min?.getD 0
    let lead := countWhile (shortest - 1) fun lead => sharesPart parts fun p => p[lead]?
    let trail := countWhile (shortest - 1 - lead) fun trail =>
      sharesPart parts fun p => p[p.length - 1 - trail]?
    if lead = 0 ∧ trail = 0 then ids
    else
      let cores := (ids.zip parts).map fun (id, p) =>
        let start := (p.getD lead (0, [])).1
        let last := p.getD (p.length - 1 - trail) (0, [])
        (id.take (last.1 + last.2.length)).drop start
      if cores.Nodup then cores else ids

/-! ### Short names -/

def ellipsis : UInt16 := 0x2026

/-- The head and the tail of a core around an ellipsis. -/
def headAndTail (head tail : ℕ) (core : JsString) : JsString :=
  core.take head ++ ellipsis :: core.drop (core.length - tail)

def shortName (head tail : ℕ) (core : JsString) : JsString :=
  if core.length ≤ head + tail + 1 then core else headAndTail head tail core

def rename (cores : List JsString) (head tail : ℕ) (pending : List ℕ) (out : List JsString) :
    List JsString :=
  pending.foldl (fun out i => out.set i (shortName head tail (cores.getD i []))) out

/-- The names that are still shared with another. -/
def stillPending (cores out : List JsString) (pending : List ℕ) : List ℕ :=
  pending.filter fun i => 1 < out.count (out.getD i []) ∧ out.getD i [] ≠ cores.getD i []

/-- The loop, for as many rounds as there is fuel. -/
def nameRounds (cores : List JsString) (head : ℕ) :
    ℕ → ℕ → List ℕ → List JsString → Option (List JsString)
  | _, _, [], out => some out
  | 0, _, _ :: _, _ => none
  | fuel + 1, tail, pending@(_ :: _), out =>
    let out := rename cores head tail pending out
    nameRounds cores head fuel (tail + 3) (stillPending cores out pending) out

/-- Names of at most `max` units, where these are distinct. -/
def shortNames (fuel : ℕ) (ids : List JsString) (max : ℕ) : Option (List JsString) :=
  let cores := distinctiveCores ids
  let long := (List.range cores.length).filter fun i => max < (cores.getD i []).length
  nameRounds cores (max - 6) fuel 5 long cores

/-! ### Cores -/

theorem distinctiveCores_length (ids : List JsString) : (distinctiveCores ids).length = ids.length := by
  rw [distinctiveCores]
  split
  · rfl
  · dsimp only
    split
    · rfl
    · split
      · simp
      · rfl

theorem distinctiveCores_nodup {ids : List JsString} (h : ids.Nodup) : (distinctiveCores ids).Nodup := by
  rw [distinctiveCores]
  split
  · exact h
  · dsimp only
    split
    · exact h
    · split
      case isTrue hcores => exact hcores
      case isFalse => exact h

/-! ### One round -/

theorem length_headAndTail {head tail : ℕ} {core : JsString} (h : head + tail + 1 < core.length) :
    (headAndTail head tail core).length = head + tail + 1 := by
  rw [headAndTail, List.length_append, List.length_cons, List.length_take, List.length_drop]
  omega

theorem rename_getElem? (cores : List JsString) (head tail : ℕ) (pending : List ℕ)
    (out : List JsString) (k : ℕ) (hk : k < out.length) :
    (rename cores head tail pending out)[k]? =
      if k ∈ pending then some (shortName head tail (cores.getD k [])) else out[k]? := by
  rw [rename]
  induction pending generalizing out with
  | nil => simp
  | cons i rest ih =>
    rw [List.foldl_cons, ih _ (by rw [List.length_set]; exact hk)]
    by_cases hrest : k ∈ rest
    · rw [if_pos hrest, if_pos (List.mem_cons_of_mem i hrest)]
    · rw [if_neg hrest]
      by_cases hki : k = i
      · subst hki
        rw [if_pos List.mem_cons_self, List.getElem?_set_self hk]
      · have hne : i ≠ k := fun heq => hki heq.symm
        rw [List.getElem?_set_ne hne, if_neg (by simp [hki, hrest])]

theorem length_rename (cores : List JsString) (head tail : ℕ) (pending : List ℕ)
    (out : List JsString) : (rename cores head tail pending out).length = out.length := by
  rw [rename]
  induction pending generalizing out with
  | nil => rfl
  | cons i rest ih => rw [List.foldl_cons, ih, List.length_set]

theorem one_lt_count {out : List JsString} {i j : ℕ} {name : JsString} (hne : i ≠ j)
    (hi : out[i]? = some name) (hj : out[j]? = some name) : 1 < out.count name := by
  have hduplicate : List.Duplicate name out := by
    rw [List.duplicate_iff_exists_distinct_get]
    obtain ⟨hilt, hiname⟩ := List.getElem?_eq_some_iff.mp hi
    obtain ⟨hjlt, hjname⟩ := List.getElem?_eq_some_iff.mp hj
    rcases Nat.lt_or_gt_of_ne hne with hlt | hgt
    · exact ⟨⟨i, hilt⟩, ⟨j, hjlt⟩, hlt, hiname.symm, hjname.symm⟩
    · exact ⟨⟨j, hjlt⟩, ⟨i, hilt⟩, hgt, hjname.symm, hiname.symm⟩
  have htwo : 2 ≤ out.count name := by
    convert List.duplicate_iff_two_le_count.mp hduplicate
  exact htwo

/-- The name is the core, or its head and tail around an ellipsis. -/
def NameOf (head : ℕ) (core name : JsString) : Prop :=
  name = core ∨ ∃ tail, head + tail + 1 < core.length ∧ name = headAndTail head tail core

theorem nameOf_shortName (head tail : ℕ) (core : JsString) :
    NameOf head core (shortName head tail core) := by
  rw [shortName]
  split
  case isTrue => exact .inl rfl
  case isFalse hlong => exact .inr ⟨tail, by omega, rfl⟩

theorem length_shortName_le (head tail : ℕ) (core : JsString) :
    (shortName head tail core).length ≤ head + tail + 1 := by
  rw [shortName]
  split
  case isTrue hshort => exact hshort
  case isFalse hlong => exact (length_headAndTail (by omega)).le

theorem lt_length_of_shortName_ne {head tail : ℕ} {core : JsString}
    (h : shortName head tail core ≠ core) : head + tail + 1 < core.length := by
  rw [shortName] at h
  split at h
  case isTrue => exact absurd rfl h
  case isFalse hlong => omega

theorem lt_length_shortName {head tail length : ℕ} {core : JsString} (hcore : length < core.length)
    (htail : length < head + tail + 1) : length < (shortName head tail core).length := by
  rw [shortName]
  split
  case isTrue => exact hcore
  case isFalse hlong =>
      rw [length_headAndTail (by omega)]
      exact htail

/-- The names between two rounds. A round with `tail` makes no name longer than `head + tail + 1`,
and only cores longer than that stay pending; of two equal names one is pending. -/
structure Named (cores : List JsString) (head tail : ℕ) (pending : List ℕ) (out : List JsString) :
    Prop where
  length : out.length = cores.length
  nameOf : ∀ (i : ℕ) (core name : JsString), cores[i]? = some core → out[i]? = some name →
    NameOf head core name
  short : ∀ (i : ℕ) (name : JsString), out[i]? = some name → i ∉ pending →
    name.length ≤ head + tail + 1
  long : ∀ i ∈ pending, ∃ core, cores[i]? = some core ∧ head + tail + 1 < core.length
  shared : ∀ (i j : ℕ) (name : JsString), i ≠ j → out[i]? = some name → out[j]? = some name →
    i ∈ pending ∨ j ∈ pending

/-- What a round needs: the settled names are no longer than it makes them, and differ from each
other and from the ones that it shortens. -/
structure Ready (cores : List JsString) (head tail : ℕ) (pending : List ℕ) (out : List JsString) :
    Prop where
  length : out.length = cores.length
  nameOf : ∀ (i : ℕ) (core name : JsString), cores[i]? = some core → out[i]? = some name →
    NameOf head core name
  short : ∀ (i : ℕ) (name : JsString), out[i]? = some name → i ∉ pending →
    name.length ≤ head + tail + 1
  core : ∀ i ∈ pending, ∃ core, cores[i]? = some core
  fresh : ∀ (i j : ℕ) (core name : JsString), i ∈ pending → j ∉ pending → cores[i]? = some core →
    out[j]? = some name → shortName head tail core = name → shortName head tail core ≠ core
  settled : ∀ (i j : ℕ) (name : JsString), i ∉ pending → j ∉ pending → i ≠ j →
    out[i]? = some name → out[j]? ≠ some name

theorem ready_cores {cores : List JsString} (hnodup : cores.Nodup) (head : ℕ) :
    Ready cores head 5 ((List.range cores.length).filter fun i => head + 6 < (cores.getD i []).length)
      cores := by
  have hmem : ∀ (i : ℕ) (core : JsString), cores[i]? = some core →
      (i ∈ (List.range cores.length).filter (fun i => head + 6 < (cores.getD i []).length) ↔
        head + 6 < core.length) := by
    intro i core hi
    have hlt := (List.getElem?_eq_some_iff.mp hi).1
    rw [List.mem_filter, List.mem_range, decide_eq_true_eq, List.getD_eq_getElem?_getD, hi,
      Option.getD_some]
    exact and_iff_right hlt
  constructor
  case length => rfl
  case nameOf =>
    intro i core name hcore hname
    rw [hcore] at hname
    exact .inl (Option.some.inj hname).symm
  case short =>
    intro i name hname hi
    rw [hmem i name hname] at hi
    omega
  case core =>
    intro i hi
    have hlt := List.mem_range.mp (List.mem_filter.mp hi).1
    exact ⟨cores[i], List.getElem?_eq_getElem hlt⟩
  case fresh =>
    intro i j core name hi _ hcore _ _ hsame
    have hlong := (hmem i core hcore).mp hi
    have hshort := length_shortName_le head 5 core
    rw [hsame] at hshort
    omega
  case settled =>
    intro i j name _ _ hne hi hj
    have hlt := (List.getElem?_eq_some_iff.mp hi).1
    exact hne ((List.getElem?_inj hlt hnodup).mp (hi.trans hj.symm))

theorem Named.ready {cores out : List JsString} {head tail longer : ℕ} {pending : List ℕ}
    (h : Named cores head tail pending out) (hlonger : tail < longer) :
    Ready cores head longer pending out where
  length := h.length
  nameOf := h.nameOf
  short := fun i name hout hi => by
    have hshort := h.short i name hout hi
    omega
  core := fun i hi => by
    obtain ⟨core, hcore, _⟩ := h.long i hi
    exact ⟨core, hcore⟩
  fresh := fun i j core name hi hj hcore hname hsame => by
    obtain ⟨other, hother, hlong⟩ := h.long i hi
    rw [hcore] at hother
    cases hother
    have hshort := h.short j name hname hj
    have hnew : head + tail + 1 < (shortName head longer core).length :=
      lt_length_shortName hlong (by omega)
    rw [hsame] at hnew
    omega
  settled := fun i j name hi hj hne hout hsame => by
    rcases h.shared i j name hne hout hsame with hpending | hpending
    · exact hi hpending
    · exact hj hpending

theorem named_round {cores : List JsString} (hnodup : cores.Nodup) {head tail : ℕ} {pending : List ℕ}
    {out : List JsString} (h : Ready cores head tail pending out) :
    Named cores head tail (stillPending cores (rename cores head tail pending out) pending)
      (rename cores head tail pending out) := by
  -- a name of the round belongs to a core, and is renamed or kept
  have hcases : ∀ (i : ℕ) (name : JsString), (rename cores head tail pending out)[i]? = some name →
      ∃ core, cores[i]? = some core ∧
        (i ∈ pending ∧ name = shortName head tail core ∨ i ∉ pending ∧ out[i]? = some name) := by
    intro i name hname
    have hlt := (List.getElem?_eq_some_iff.mp hname).1
    rw [length_rename] at hlt
    have hcore : cores[i]? = some (cores.getD i []) := by
      rw [List.getD_eq_getElem?_getD, List.getElem?_eq_getElem (by rw [← h.length]; exact hlt),
        Option.getD_some]
    refine ⟨_, hcore, ?_⟩
    rw [rename_getElem? cores head tail pending out i hlt] at hname
    split at hname
    case isTrue hi => exact .inl ⟨hi, (Option.some.inj hname).symm⟩
    case isFalse hi => exact .inr ⟨hi, hname⟩
  -- a shared name that is not its core stays pending
  have hstill : ∀ (i j : ℕ) (core name : JsString), i ≠ j → i ∈ pending → cores[i]? = some core →
      (rename cores head tail pending out)[i]? = some name →
      (rename cores head tail pending out)[j]? = some name → name ≠ core →
      i ∈ stillPending cores (rename cores head tail pending out) pending := by
    intro i j core name hne hi hcore hname hsame hcut
    have hcount := one_lt_count hne hname hsame
    rw [stillPending, List.mem_filter]
    refine ⟨hi, ?_⟩
    rw [decide_eq_true_eq, List.getD_eq_getElem?_getD, List.getD_eq_getElem?_getD, hname, hcore,
      Option.getD_some, Option.getD_some]
    exact ⟨hcount, hcut⟩
  constructor
  case length => rw [length_rename, h.length]
  case nameOf =>
    intro i core name hi hname
    obtain ⟨other, hcore, ⟨_, hrenamed⟩ | ⟨_, hkept⟩⟩ := hcases i name hname
    · rw [hi] at hcore
      cases hcore
      rw [hrenamed]
      exact nameOf_shortName head tail core
    · exact h.nameOf i core name hi hkept
  case short =>
    intro i name hname _
    obtain ⟨core, _, ⟨_, hrenamed⟩ | ⟨hi, hkept⟩⟩ := hcases i name hname
    · rw [hrenamed]
      exact length_shortName_le head tail core
    · exact h.short i name hkept hi
  case long =>
    intro i hi
    rw [stillPending, List.mem_filter, decide_eq_true_eq] at hi
    obtain ⟨hpending, _, hcut⟩ := hi
    obtain ⟨core, hcore⟩ := h.core i hpending
    have hlt : i < out.length := by
      rw [h.length]
      exact (List.getElem?_eq_some_iff.mp hcore).1
    have hname := rename_getElem? cores head tail pending out i hlt
    rw [if_pos hpending] at hname
    rw [List.getD_eq_getElem?_getD, hname, List.getD_eq_getElem?_getD, hcore, Option.getD_some,
      Option.getD_some] at hcut
    exact ⟨core, hcore, lt_length_of_shortName_ne hcut⟩
  case shared =>
    intro i j name hne hi hj
    obtain ⟨core, hcore, hcasei⟩ := hcases i name hi
    obtain ⟨other, hother, hcasej⟩ := hcases j name hj
    rcases hcasei with ⟨hip, hiname⟩ | ⟨hip, hikept⟩
    · rcases hcasej with ⟨hjp, hjname⟩ | ⟨hjp, hjkept⟩
      · -- both were renamed, and not both are their cores
        by_cases hcut : name = core
        · have hnot : name ≠ other := by
            intro heq
            have hlt := (List.getElem?_eq_some_iff.mp hcore).1
            rw [← hcut] at hcore
            rw [← heq] at hother
            exact hne ((List.getElem?_inj hlt hnodup).mp (hcore.trans hother.symm))
          exact .inr (hstill j i other name hne.symm hjp hother hj hi hnot)
        · exact .inl (hstill i j core name hne hip hcore hi hj hcut)
      · have hcut := h.fresh i j core name hip hjp hcore hjkept hiname.symm
        rw [← hiname] at hcut
        exact .inl (hstill i j core name hne hip hcore hi hj hcut)
    · rcases hcasej with ⟨hjp, hjname⟩ | ⟨hjp, hjkept⟩
      · have hcut := h.fresh j i other name hjp hip hother hikept hjname.symm
        rw [← hjname] at hcut
        exact .inr (hstill j i other name hne.symm hjp hother hj hi hcut)
      · exact absurd hjkept (h.settled i j name hip hjp hne hikept)

/-! ### The loop -/

theorem nameRounds_mono {cores : List JsString} {head fuel : ℕ} :
    ∀ {tail : ℕ} {pending : List ℕ} {out names : List JsString},
      nameRounds cores head fuel tail pending out = some names → ∀ more,
      nameRounds cores head (fuel + more) tail pending out = some names := by
  induction fuel with
  | zero =>
    intro tail pending out names h more
    cases pending with
    | nil =>
      rw [nameRounds] at h ⊢
      exact h
    | cons i rest =>
      rw [nameRounds] at h
      cases h
  | succ fuel ih =>
    intro tail pending out names h more
    cases pending with
    | nil =>
      rw [nameRounds] at h ⊢
      exact h
    | cons i rest =>
      rw [Nat.add_right_comm, nameRounds]
      rw [nameRounds] at h
      exact ih h more

/-- The loop stops once the tail reaches the longest core, and then no name is shared. -/
theorem nameRounds_named {cores : List JsString} (hnodup : cores.Nodup) {head fuel : ℕ} :
    ∀ {tail : ℕ} {pending : List ℕ} {out : List JsString}, Ready cores head tail pending out →
      (∀ core ∈ cores, core.length + 1 < tail + fuel) →
      (∀ i ∈ pending, ∃ core, cores[i]? = some core ∧ tail ≤ core.length + 1) →
      ∃ names, nameRounds cores head fuel tail pending out = some names ∧
        names.length = cores.length ∧ names.Nodup ∧
        ∀ (i : ℕ) (core name : JsString), cores[i]? = some core → names[i]? = some name →
          NameOf head core name := by
  have hdone : ∀ {tail : ℕ} {out : List JsString}, Ready cores head tail [] out →
      out.length = cores.length ∧ out.Nodup ∧
        ∀ (i : ℕ) (core name : JsString), cores[i]? = some core → out[i]? = some name →
          NameOf head core name := by
    intro tail out h
    refine ⟨h.length, ?_, h.nameOf⟩
    rw [List.nodup_iff_getElem?_ne_getElem?]
    intro i j hij hj hsame
    have hname := List.getElem?_eq_getElem hj
    exact h.settled i j _ List.not_mem_nil List.not_mem_nil hij.ne (hsame.trans hname) hname
  induction fuel with
  | zero =>
    intro tail pending out h hbound hlong
    cases pending with
    | nil => exact ⟨out, by rw [nameRounds], hdone h⟩
    | cons i rest =>
      obtain ⟨core, hcore, htail⟩ := hlong i List.mem_cons_self
      have hlt := hbound core (List.mem_of_getElem? hcore)
      omega
  | succ fuel ih =>
    intro tail pending out h hbound hlong
    cases pending with
    | nil => exact ⟨out, by rw [nameRounds], hdone h⟩
    | cons i rest =>
      rw [nameRounds]
      have hround := named_round hnodup h
      apply ih (hround.ready (by omega))
      · intro core hcore
        have hlt := hbound core hcore
        omega
      · intro k hk
        obtain ⟨core, hcore, hlt⟩ := hround.long k hk
        exact ⟨core, hcore, by omega⟩

/-- For distinct ids and any `max` of at least 6 the loop stops, and the names are distinct: each is
the core of its id, or a head and a tail of the core around an ellipsis. -/
theorem shortNames_unique {ids : List JsString} {max : ℕ} (hids : ids.Nodup) (hmax : 6 ≤ max) :
    ∃ names enough, (∀ fuel ≥ enough, shortNames fuel ids max = some names) ∧
      names.length = ids.length ∧ names.Nodup ∧
      ∀ (i : ℕ) (core name : JsString), (distinctiveCores ids)[i]? = some core →
        names[i]? = some name → NameOf (max - 6) core name := by
  have hnodup := distinctiveCores_nodup hids
  have hready := ready_cores hnodup (max - 6)
  rw [Nat.sub_add_cancel hmax] at hready
  let enough := ((distinctiveCores ids).map List.length).sum
  have hbound : ∀ core ∈ distinctiveCores ids, core.length + 1 < 5 + enough := by
    intro core hcore
    have hle : core.length ≤ enough := List.le_sum_of_mem (List.mem_map_of_mem hcore)
    omega
  obtain ⟨names, hrun, hlength, hnames, hnameOf⟩ := nameRounds_named hnodup hready hbound (by
    intro i hi
    rw [List.mem_filter, List.mem_range, decide_eq_true_eq, List.getD_eq_getElem?_getD] at hi
    obtain ⟨hlt, hlong⟩ := hi
    rw [List.getElem?_eq_getElem hlt, Option.getD_some] at hlong
    exact ⟨_, List.getElem?_eq_getElem hlt, by omega⟩)
  refine ⟨names, enough, ?_, by rw [hlength, distinctiveCores_length], hnames, hnameOf⟩
  intro fuel hfuel
  obtain ⟨more, rfl⟩ := Nat.exists_eq_add_of_le hfuel
  exact nameRounds_mono hrun more

def longIds : List JsString := [JsString.js "aaaaaaxbbbbb", JsString.js "aaaaaaybbbbb"]

/-- The ids share their heads and their last five units: a second round with a longer tail tells
them apart. -/
theorem shortNames_unique_longIds :
    longIds.Nodup ∧
      shortNames 2 longIds 6 = some (longIds.map fun id => ellipsis :: id.drop 4) ∧
      ∃ names enough, (∀ fuel ≥ enough, shortNames fuel longIds 6 = some names) ∧
        names.length = 2 ∧ names.Nodup ∧
        ∀ (i : ℕ) (core name : JsString), (distinctiveCores longIds)[i]? = some core →
          names[i]? = some name → NameOf 0 core name :=
  ⟨by decide, by decide, shortNames_unique (by decide) le_rfl⟩

end Tellegen
