import Tellegen.CaseEdits
import Tellegen.Lib.GreedyPages
import Tellegen.ToolCalls

/-!
The list of cases that the tools show, in pages. A page takes rows for as long as
the response with the next row fits the output budget, measured with the position
after it; the last page then states `null` in its place.
-/

open JsString

namespace Tellegen.CaseListing

/-! ### The rows -/

structure ServerCase where
  id : JsString
  name : JsString
  unavailableReason : Option JsString
  hasNetwork : Bool

structure LocalCase where
  id : JsString
  label : JsString
  placementPending : Bool
  hasStudyInput : Bool
  hasSummary : Bool

structure MultiCase where
  id : JsString
  label : JsString
  placed : Bool
  mcPfSupported : Bool

/-- What the listing reads of the application. `revision` names what is displayed. -/
structure Cases where
  revision : JsString
  studyView : Bool
  activeCaseId : Option JsString
  activeLocalId : Option JsString
  activeMultiId : Option JsString
  cases : List ServerCase
  localCases : List LocalCase
  multiCases : List MultiCase

namespace Cases

def serverRow (app : Cases) (c : ServerCase) : Summary :=
  let reason := c.unavailableReason.filter (· ≠ [])
  [("case_id", .string c.id), ("name", .string (CaseEdits.clipAt 64 c.name)),
    ("kind", .string (js "server")),
    ("availability", .string (if reason.isSome then js "unavailable"
      else if c.hasNetwork then js "ready" else js "load_on_selection"))] ++
  (reason.map fun text => ("reason", Primitive.string (CaseEdits.clipAt 240 text))).toList ++
  [("calculation", .string (js "balanced")),
    ("selected", .boolean (!app.studyView && app.activeCaseId = some c.id))]

def localRow (app : Cases) (c : LocalCase) : Summary :=
  [("case_id", .string c.id), ("name", .string (CaseEdits.clipAt 64 c.label)),
    ("kind", .string (js "local")),
    ("availability", .string (if c.placementPending then js "placement_required" else js "ready")),
    ("calculation", .string (if c.hasStudyInput && c.hasSummary then js "balanced"
      else js "display_only")),
    ("selected", .boolean (!app.studyView && app.activeLocalId = some c.id))]

def multiRow (app : Cases) (c : MultiCase) : Summary :=
  [("case_id", .string c.id), ("name", .string (CaseEdits.clipAt 64 c.label)),
    ("kind", .string (js "distribution")),
    ("availability", .string (if c.placed then js "ready" else js "placement_required")),
    ("calculation", .string (if c.mcPfSupported then js "multiconductor_ac_pf"
      else js "display_only")),
    ("selected", .boolean (!app.studyView && app.activeMultiId = some c.id))]

def rows (app : Cases) : List Summary :=
  app.cases.map app.serverRow ++ app.localCases.map app.localRow ++ app.multiCases.map app.multiRow

end Cases

/-! ### The pages -/

def joinRows : List JsString → JsString
  | [] => []
  | [row] => row
  | row :: other :: rest => row ++ js "," ++ joinRows (other :: rest)

def nextText : Option ℕ → JsString
  | some offset => ofNat offset
  | none => js "null"

/-- The response with these rows of `total` and this next position. -/
def response (revision : JsString) (total : ℕ) (cases : List Summary) (nextOffset : Option ℕ) :
    ToolResponse :=
  .ok (.result
    { json := .text (js "\x7b\"revision\":" ++ quote revision ++ js ",\"total\":" ++ ofNat total ++
        js ",\"cases\":[" ++ joinRows (cases.map summaryText) ++ js "],\"next_offset\":" ++
        nextText nextOffset ++ js "\x7d")
      property := fun key =>
        if key = "revision" then .primitive (.string revision)
        else if key = "total" then .primitive (.number (ofNat total))
        else if key = "cases" then .array cases.length
        else if key = "next_offset" then .primitive (match nextOffset with
          | some offset => .number (ofNat offset)
          | none => .null)
        else .other })

def outputBudget : ℕ := 1450

def fitsBudget (revision : JsString) (total : ℕ) (cases : List Summary) (nextOffset : Option ℕ) :
    Bool :=
  ((response revision total cases nextOffset).serialize.map List.length).getD 0 ≤ outputBudget

/-- The test of a row, with the position after it. -/
def candidateFits (app : Cases) (position : ℕ) (cases : List Summary) : Bool :=
  fitsBudget app.revision app.rows.length cases (some position)

structure Page where
  cases : List Summary
  nextOffset : Option ℕ

def listCases (app : Cases) (offset limit : ℕ) : Page where
  cases := GreedyPages.page (candidateFits app) app.rows offset limit
  nextOffset := GreedyPages.next (candidateFits app) app.rows offset limit

def Page.response (app : Cases) (page : Page) : ToolResponse :=
  CaseListing.response app.revision app.rows.length page.cases page.nextOffset

/-- The rows of the pages from `offset` on, following `next_offset` until it is null. -/
def follow (app : Cases) (limit : ℕ) : ℕ → ℕ → Option (List Summary)
  | 0, _ => none
  | fuel + 1, offset =>
    let page := listCases app offset limit
    match page.nextOffset with
    | none => some page.cases
    | some next =>
      match follow app limit fuel next with
      | none => none
      | some visited => some (page.cases ++ visited)

end Tellegen.CaseListing
