import Tellegen.SampleStudy

/-!
Exporting a study and importing it again. A validated bundle is written in full
and read back as it was, except where the reader of element keys takes a uid
for a number. The imported bundle is one of the current version, whatever the
version of the exported one.
-/

open Binary64 Outcome Std

namespace Tellegen

variable {F : Type} [Binary64 F]

/-- The identity and the revision of a document read back, whatever becomes of
its keys. -/
theorem StudyDocument.read_identity {readKey : Read F ElementKey} {d read : StudyDocument F}
    (h : StudyDocument.read readKey d.toJson = .ok read) :
    read.id = d.id ∧ read.revision = d.revision := by
  have hfields : (d.fields.map Prod.fst).Nodup := by
    simp only [StudyDocument.fields, List.map_cons, List.map_nil]
    decide
  have hlookup := Json.lookup_present hfields
  simp only [StudyDocument.read, StudyDocument.toJson, Json.entries, bind_eq_ok, pure_eq_ok] at h
  obtain ⟨_, hentries, _, -, _, -, _, -, id, hid, _, -, revision, hrevision, _, -, _, -, _, -, _, -,
    _, -, _, -, _, -, _, -, _, -, _, -, _, -, _, -, rfl⟩ := h
  cases hentries
  rw [Json.field, hlookup] at hid hrevision
  exact ⟨Except.ok.inj hid.symm, Except.ok.inj hrevision.symm⟩

namespace StudyBundle

variable {engine : Engine F}

/-- The numbers of a validated document are finite, except that validation does
not look at the details of its cost model. -/
theorem writable_of_validate {bundle : StudyBundle F} (h : bundle.validate engine = .ok ())
    (hdetails : ∀ m ∈ bundle.document.modelDetails, m.Finite) : bundle.document.Writable := by
  have hvalid := valid_of_validate h
  have hdisplay : bundle.validateDisplay = .ok () := by
    simp only [validate, bind_eq_ok] at h
    obtain ⟨_, -, _, -, _, -, _, hdisplay, -⟩ := h
    exact hdisplay
  constructor
  case goals => exact fun id g hg => (hvalid.goals id g hg).valid
  case trials =>
    intro id e he t ht
    have hmem : id ∈ bundle.document.experimentOrder :=
      (hvalid.orderMem id).mpr ((Records.mem_iff _ _).mpr ⟨e, he⟩)
    obtain ⟨position, hposition⟩ := List.getElem?_of_mem hmem
    obtain ⟨found, hfound⟩ := hvalid.experiments position id hposition
    have hsame : found = e := Option.some.inj (hfound.found.symm.trans he)
    subst hsame
    exact hfound.trials t ht
  case display => exact fun c hc => validateDisplay_ok hdisplay c hc
  case modelDetails => exact hdetails

theorem exportText_eq_ok {bundle : StudyBundle F} {text : String} :
    exportText engine bundle = .ok text ↔ bundle.validate engine = .ok () ∧
      text = engine.printJson bundle.toJson ∧ ¬ text.utf8ByteSize > maxBundleBytes := by
  simp only [exportText, bind_eq_ok, refuse_eq_ok, pure_eq_ok]
  constructor
  · rintro ⟨_, hvalidate, _, hsize, rfl⟩
    exact ⟨hvalidate, rfl, hsize⟩
  · rintro ⟨hvalidate, rfl, hsize⟩
    exact ⟨⟨⟩, hvalidate, ⟨⟩, hsize, rfl⟩

/-- An exported text parses to the value it was printed from, and holds no
schema of its own. -/
theorem importText_exportText (hfaithful : engine.Faithful) {bundle : StudyBundle F} {text : String}
    (h : exportText engine bundle = .ok text) :
    importText engine text = (do
      let read ← lift (describe "invalid Study bundle: "
        (StudyBundle.read ElementKey.read bundle.toJson))
      read.validate engine
      return read.atVersion studyVersion) := by
  obtain ⟨hvalidate, rfl, hsize⟩ := exportText_eq_ok.mp h
  have hvalid := valid_of_validate hvalidate
  have hparse : engine.parseJson (engine.printJson bundle.toJson) = .ok bundle.toJson :=
    hfaithful.parse_print _ (StudyBundle.wellFormed (n := 88) fun id g hg =>
      (hvalid.goals id g hg).valid)
  have hsmall : refuse ((engine.printJson bundle.toJson).utf8ByteSize > maxBundleBytes)
      "Study bundle exceeds the 512 MiB import limit" = .ok () :=
    (refuse_eq_ok _ _ _).mpr hsize
  have hschema : readSchema (bundle.toJson : Json F) = .ok none := rfl
  simp only [importText, hsmall, hparse, hschema, describe, lift, bind, Except.bind, reduceCtorEq,
    if_false]

theorem importText_identity (hfaithful : engine.Faithful) {bundle imported : StudyBundle F}
    {text : String} (hexport : exportText engine bundle = .ok text)
    (himport : importText engine text = .ok imported) :
    imported.document.id = bundle.document.id ∧
      imported.document.revision = bundle.document.revision := by
  rw [importText_exportText hfaithful hexport] at himport
  simp only [bind_eq_ok, lift_eq_ok, describe_eq_ok, pure_eq_ok] at himport
  obtain ⟨read, hread, _, -, rfl⟩ := himport
  simp only [StudyBundle.read, StudyBundle.toJson, Json.entries, bind_eq_ok, pure_eq_ok] at hread
  obtain ⟨_, hentries, _, -, document, hdocument, _, -, rfl⟩ := hread
  cases hentries
  have hread : StudyDocument.read ElementKey.read bundle.document.toJson = .ok document := by
    simpa [Json.field, List.lookup_cons] using hdocument
  obtain ⟨hid, hrevision⟩ := StudyDocument.read_identity hread
  exact ⟨hid, hrevision⟩

/-- What a validated bundle exports reads back as the bundle at the current
version, when no uid of its goals spells an integer and the details of its cost
model are numbers that JSON can hold. -/
theorem import_undoes_export (hfaithful : engine.Faithful) {bundle : StudyBundle F} {text : String}
    (h : exportText engine bundle = .ok text)
    (hkeys : ∀ key, bundle.document.Names key → key.Portable)
    (hdetails : ∀ m ∈ bundle.document.modelDetails, m.Finite) :
    importText engine text = .ok (bundle.atVersion studyVersion) := by
  have hvalidate := (exportText_eq_ok.mp h).1
  have hread := StudyBundle.read_toJson ElementKey.read (writable_of_validate hvalidate hdetails)
    fun key hkey => (ElementKey.read_toJson key).mpr (hkeys key hkey)
  rw [importText_exportText hfaithful h, hread]
  simp only [describe, lift, hvalidate, bind, Except.bind]
  rfl

end StudyBundle

/-! ### On the sample engine -/

namespace Sample

/-- A study whose goal names its bus by a uid that is the bus's number. -/
def numeral : CreateStudy ℚ :=
  { request none { oneBus 1 10 with buses := [{ id := 1, uid := some "1", kind := .connected }] } with
    objective := some
      (.weightedObservable (.price .active) [{ element := .uid "1", weight := 1 }])
    decisions := some
      { vars := [{ id := "d", element := .uid "1", intervention := .activeDemand, lower := 0
                   upper := 10, increment := 1, budgetWeight := 1 }]
        totalBudget := 10, maxChangedElements := 1, demand := some (.placement 5) } }

/-- An empty study in a document of the first version. -/
def firstEmpty : Except String (StudyBundle ℚ) :=
  (StudyBundle.empty "s" "").map (·.atVersion 1)

/-- Two buses, one of which is known by its uid. -/
def labelledBuses : Network :=
  { oneBus 1 10 with
    buses := [{ id := 1, uid := none, kind := .connected },
      { id := 2, uid := some "north", kind := .connected }] }

def cost (coeffs : List ℚ) : GenCost ℚ :=
  { model := 2, startup := 0, shutdown := 0, ncost := coeffs.length, coeffs }

/-- A study whose goal names a bus by its number and one by its uid, with the fit of a cost. -/
def labelled : CreateStudy ℚ :=
  { request none labelledBuses with
    objective := some (.weightedObservable (.price .active)
      [{ element := .id 1, weight := 1 }, { element := .uid "north", weight := 2 }])
    decisions := some
      { vars := [{ id := "d", element := .uid "north", intervention := .activeDemand, lower := 0
                   upper := 10, increment := 1, budgetWeight := 1 }]
        totalBudget := 10, maxChangedElements := 1, demand := some (.placement 5) }
    modelDetails := some
      { method := .convexQuadraticFit, source := "piecewise", model := "quadratic"
        quantity := "cost", units := "$/h"
        approximations :=
          [{ generator := 0, bus := 1, sourceCost := cost [1, 2], modelCost := cost [1, 2, 3]
             rmsBreakpointError := 1 / 2, maxBreakpointError := 1 }] } }

theorem import_undoes_export_labelled : ∃ bundle text,
    StudyBundle.createStudy engine labelled = .ok bundle ∧
      bundle.document.goals.size = 1 ∧ bundle.document.modelDetails = labelled.modelDetails ∧
      StudyBundle.exportText engine bundle = .ok text ∧
      StudyBundle.importText engine text = .ok (bundle.atVersion studyVersion) := by
  obtain ⟨bundle, hopened, hexports, hgoals, hportable, hdetails⟩ := exists_ok_of
    (x := StudyBundle.createStudy engine labelled)
    (p := fun bundle => (StudyBundle.exportText engine bundle).isOk ∧
      bundle.document.goals.size = 1 ∧
      (∀ goal ∈ bundle.document.goals.toList, ∀ key ∈ goal.2.keys, key.Portable) ∧
      bundle.document.modelDetails = labelled.modelDetails)
    (by decide +kernel)
  obtain ⟨text, htext⟩ := exists_ok hexports
  refine ⟨bundle, text, hopened, hgoals, hdetails, htext,
    StudyBundle.import_undoes_export faithful htext ?_ ?_⟩
  · rintro key ⟨id, g, hg, hkey⟩
    exact hportable (id, g) (ExtTreeMap.mem_toList_iff_getElem?_eq_some.mpr hg) key hkey
  · intro m _ a _
    exact ⟨⟨rfl, rfl, fun _ _ => rfl⟩, ⟨rfl, rfl, fun _ _ => rfl⟩, rfl, rfl⟩

/-- A document of the first version does not come back as it was, and neither
does a goal that names its bus by a numeral: the name reads as a number, and
the goal's digest is another. -/
theorem import_does_not_undo_export :
    (∃ bundle text, firstEmpty = .ok bundle ∧ bundle.validate engine = .ok () ∧
      StudyBundle.exportText engine bundle = .ok text ∧
      StudyBundle.importText engine text ≠ .ok bundle) ∧
    ∃ bundle text, StudyBundle.createStudy engine numeral = .ok bundle ∧
      bundle.validate engine = .ok () ∧ StudyBundle.exportText engine bundle = .ok text ∧
      StudyBundle.importText engine text ≠ .ok bundle := by
  constructor
  · obtain ⟨bundle, hbundle, hexports, hversion⟩ := exists_ok_of (x := firstEmpty)
      (p := fun bundle => (StudyBundle.exportText engine bundle).isOk ∧
        bundle.document.version = 1) (by decide +kernel)
    obtain ⟨text, htext⟩ := exists_ok hexports
    refine ⟨bundle, text, hbundle, (StudyBundle.exportText_eq_ok.mp htext).1, htext, ?_⟩
    intro himported
    rw [StudyBundle.importText_exportText faithful htext] at himported
    simp only [bind_eq_ok, pure_eq_ok] at himported
    obtain ⟨read, -, _, -, rfl⟩ := himported
    cases hversion
  · obtain ⟨bundle, hcreated, hexports, hrefused⟩ := exists_ok_of
      (x := StudyBundle.createStudy engine numeral)
      (p := fun bundle => (StudyBundle.exportText engine bundle).isOk ∧
        (StudyBundle.read ElementKey.read (bundle.toJson (F := ℚ))).toOption.all
          (fun read => decide (read.validate engine ≠ .ok ())) = true) (by decide +kernel)
    obtain ⟨text, htext⟩ := exists_ok hexports
    refine ⟨bundle, text, hcreated, (StudyBundle.exportText_eq_ok.mp htext).1, htext, ?_⟩
    intro himported
    rw [StudyBundle.importText_exportText faithful htext] at himported
    simp only [bind_eq_ok, lift_eq_ok, describe_eq_ok] at himported
    obtain ⟨read, hread, _, hvalidate, -⟩ := himported
    rw [hread] at hrefused
    exact of_decide_eq_true hrefused hvalidate

end Sample

end Tellegen
