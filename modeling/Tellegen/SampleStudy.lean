import Tellegen.Digest
import Tellegen.Opening
import Tellegen.Sample

/-!
Studies of one-bus cases over the small concrete engine, to run the results on.
The load of a case is its first number, and a case above `capacity` cannot be
solved.
-/

open Binary64 Outcome

namespace Tellegen.Sample

theorem faithful : engine.Faithful where
  parse_print value _ := parseJson_printJson value
  contentId_injective := contentId_injective

def request (base : Option Network) (network : Network) : CreateStudy ℚ :=
  { id := "s", title := "", input := caseText network, baseInput := base.map caseText
    formulation := .dcOpf, request := "", interpretation := "", objective := none
    decisions := none, successValue := none, solution := none, view := none, display := none
    modelDetails := none }

def opened (base : Option Network) (network : Network) : Result (StudyBundle ℚ) :=
  StudyBundle.createStudy engine (request base network)

theorem opened_validates {base : Option Network} {network : Network} {bundle : StudyBundle ℚ}
    (h : opened base network = .ok bundle) : bundle.validate engine = .ok () := by
  obtain ⟨root, hopens⟩ := StudyBundle.createStudy_opens h
  exact hopens.validated

theorem exists_opened : ∃ bundle, opened none (oneBus 1 10) = .ok bundle ∧
    bundle.document.version = studyVersion :=
  exists_ok_of (by decide +kernel)

/-- A study of bus 2 whose base case is bus 1, as an imported bundle may be. -/
def rebased : Result (StudyBundle ℚ) := do
  let bundle ← opened none (oneBus 2 10)
  let artifact : StudyArtifact := { kind := .powerioIr, text := caseText (oneBus 1 10) }
  let id := recordId engine (artifact.toJson (F := ℚ))
  return StudyBundle.setBaseInput id (bundle.insertArtifact id artifact)

/-- A study of bus 1 with a goal: place 5 MW there and keep the price low. -/
def planning : CreateStudy ℚ :=
  { request none (oneBus 1 10) with
    objective := some (.weightedObservable (.price .active) [{ element := .id 1, weight := 1 }])
    decisions := some
      { vars := [{ id := "d", element := .id 1, intervention := .activeDemand, lower := 0
                   upper := 10, increment := 1, budgetWeight := 1 }]
        totalBudget := 10, maxChangedElements := 1, demand := some (.placement 5) } }

/-- The same study in a document of the first version. -/
def firstVersion : Result (StudyBundle ℚ) := do
  let bundle ← StudyBundle.createStudy engine planning
  return bundle.atVersion 1

end Tellegen.Sample
