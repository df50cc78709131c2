import Mathlib.Data.List.Induction
import Mathlib.Data.List.Nodup
import Tellegen.Lib.Machine

/-!
The diagnostic log: a finding reported again counts up in its row. The index of a call is rebuilt from the
stored rows, which were cleaned of empty fields, while a report is looked up as it was spelled.
-/

namespace Tellegen.DiagnosticLog

inductive LogSeverity where
  | error
  | warning
  | note
  deriving DecidableEq

/-- A finding to record. `α` is the type of the values in its details. -/
structure LogEntryInput (α : Type) where
  severity : LogSeverity
  stage : String
  source : String
  message : String
  code : Option String
  subject : Option String
  target : Option String
  buses : Option (List ℕ)
  hint : Option String
  details : Option (List (String × α))

structure LogEntry (α : Type) extends LogEntryInput α where
  id : ℕ
  count : ℕ
  first : ℕ
  last : ℕ

def maxEntries : ℕ := 500

/-- `JSON.stringify` spells different lists of these fields differently, an absent field as `null`. -/
structure Key where
  severity : LogSeverity
  stage : String
  source : String
  code : Option String
  subject : Option String
  target : Option String
  message : String
  deriving DecidableEq

variable {α : Type}

def keyOf (e : LogEntryInput α) : Key :=
  ⟨e.severity, e.stage, e.source, e.code, e.subject, e.target, e.message⟩

abbrev LogEntry.key (e : LogEntry α) : Key := keyOf e.toLogEntryInput

def clean (input : LogEntryInput α) : LogEntryInput α :=
  { input with
    code := input.code.filter (· ≠ "")
    subject := input.subject.filter (· ≠ "")
    target := input.target.filter (· ≠ "")
    buses := input.buses.filter (· ≠ [])
    hint := input.hint.filter (· ≠ "")
    details := input.details.filter fun details => !details.isEmpty }

/-- A row with the fields that a report has, and its own where the report has none. -/
def refresh (previous : LogEntry α) (input : LogEntryInput α) : LogEntry α :=
  { previous with
    severity := input.severity
    stage := input.stage
    source := input.source
    message := input.message
    code := input.code.or previous.code
    subject := input.subject.or previous.subject
    target := input.target.or previous.target
    buses := input.buses.or previous.buses
    hint := input.hint.or previous.hint
    details := input.details.or previous.details }

/-- What a report does with the row of its finding. -/
def restate (again : Bool) (now : ℕ) (item : LogEntryInput α) (previous : LogEntry α) : LogEntry α :=
  if again then { previous with count := previous.count + 1, last := now }
  else { refresh previous (clean item) with last := now }

structure Writing (α : Type) where
  next : List (LogEntry α)
  index : Key → Option ℕ
  nextId : ℕ

def indexOf (entries : List (LogEntry α)) : Key → Option ℕ :=
  entries.zipIdx.foldl (fun index (e, i) => Function.update index e.key (some i))
    fun _ => none

def Writing.report (again : Bool) (now : ℕ) (w : Writing α) (item : LogEntryInput α) : Writing α :=
  if item.message = "" then w
  else match w.index (keyOf item) with
    | some place => { w with next := w.next.modify place (restate again now item) }
    | none =>
      { next := w.next ++ [{ clean item with id := w.nextId + 1, count := 1, first := now, last := now }]
        index := Function.update w.index (keyOf item) (some w.next.length)
        nextId := w.nextId + 1 }

def latest (entries : List (LogEntry α)) : List (LogEntry α) :=
  if maxEntries < entries.length then entries.drop (entries.length - maxEntries) else entries

structure Log (α : Type) where
  entries : List (LogEntry α)
  revision : ℕ
  nextId : ℕ

def Log.record (log : Log α) (inputs : List (LogEntryInput α)) (again : Bool) (now : ℕ) : Log α :=
  if inputs.isEmpty then log
  else
    let written := inputs.foldl (Writing.report again now)
      { next := log.entries, index := indexOf log.entries, nextId := log.nextId }
    { entries := latest written.next, revision := log.revision + 1, nextId := written.nextId }

def Log.clear (log : Log α) : Log α := { log with entries := [], revision := log.revision + 1 }

/-- `again` is the option `repeat`. -/
inductive Call (α : Type) where
  | record (inputs : List (LogEntryInput α)) (again : Bool) (now : ℕ)
  | clear

def Log.call (log : Log α) : Call α → Log α
  | .record inputs again now => log.record inputs again now
  | .clear => log.clear

def run (calls : List (Call α)) : Log α :=
  Machine.run Log.call { entries := [], revision := 0, nextId := 0 } calls

/-! ### Single reports -/

inductive Step (α : Type) where
  | start
  | report (item : LogEntryInput α) (again : Bool) (now : ℕ)
  | finish
  | clear

def Writing.step (w : Writing α) : Step α → Writing α
  | .start => { w with index := indexOf w.next }
  | .report item again now => w.report again now item
  | .finish => { w with next := latest w.next }
  | .clear => { w with next := [] }

def Call.steps : Call α → List (Step α)
  | .record inputs again now =>
    if inputs.isEmpty then []
    else .start :: (inputs.map fun item => Step.report item again now) ++ [.finish]
  | .clear => [.clear]

def written (steps : List (Step α)) : Writing α :=
  Machine.run Writing.step { next := [], index := fun _ => none, nextId := 0 } steps

/-- The key as it reads: an absent field and an empty one are alike. -/
def Key.clean (key : Key) : Key :=
  { key with
    code := key.code.filter (· ≠ "")
    subject := key.subject.filter (· ≠ "")
    target := key.target.filter (· ≠ "") }

def finding (e : LogEntryInput α) : Key := (keyOf e).clean

abbrev LogEntry.finding (e : LogEntry α) : Key := DiagnosticLog.finding e.toLogEntryInput

def repeats (key : Key) : Step α → Bool
  | .report item again _ => again && item.message ≠ "" && finding item = key
  | _ => false

/-- One report added the row, and its count is one and the repeats of its finding since. -/
def Counted (steps : List (Step α)) (e : LogEntry α) : Prop :=
  ∃ before item again now after, steps = before ++ Step.report item again now :: after ∧
    finding item = e.finding ∧ (written before).nextId + 1 = e.id ∧
    (written (before ++ [.report item again now])).nextId = e.id ∧
    e.count = 1 + after.countP (repeats e.finding)

structure OneRowEach (calls : List (Call α)) (log : Log α) : Prop where
  findings : (log.entries.map LogEntry.finding).Nodup
  bounded : log.entries.length ≤ 500
  ids : log.entries.Pairwise fun e e' => e.id < e'.id
  counted : ∀ e ∈ log.entries, Counted (calls.flatMap Call.steps) e

/-- No field of the key is spelled as the empty text. -/
def Plain (item : LogEntryInput α) : Prop :=
  item.message ≠ "" → item.code ≠ some "" ∧ item.subject ≠ some "" ∧ item.target ≠ some ""

def Call.Plain : Call α → Prop
  | .record inputs _ _ => ∀ item ∈ inputs, DiagnosticLog.Plain item
  | .clear => True

/-! ### Rows -/

theorem filter_plain {s : Option String} (h : s ≠ some "") : s.filter (· ≠ "") = s := by
  cases s with
  | none => rfl
  | some text => exact Option.filter_some_pos (by simpa using h)

theorem finding_of_plain {item : LogEntryInput α} (h : Plain item) (hmessage : item.message ≠ "") :
    finding item = keyOf item := by
  obtain ⟨hcode, hsubject, htarget⟩ := h hmessage
  simp only [finding, keyOf, Key.clean, filter_plain hcode, filter_plain hsubject, filter_plain htarget]

theorem restate_same (again : Bool) (now : ℕ) {item : LogEntryInput α} {previous : LogEntry α}
    (hkey : previous.key = keyOf item) :
    (restate again now item previous).key = keyOf item ∧
      (restate again now item previous).id = previous.id ∧
      (restate again now item previous).count = previous.count + if again then 1 else 0 := by
  have hor : ∀ (p : String → Bool) (s : Option String), (s.filter p).or s = s := by
    intro p s
    cases s with
    | none => rfl
    | some text => by_cases h : p text <;> simp [Option.filter, h]
  cases again with
  | true => exact ⟨hkey, rfl, rfl⟩
  | false =>
    simp only [keyOf, Key.mk.injEq] at hkey
    obtain ⟨-, -, -, hcode, hsubject, htarget, -⟩ := hkey
    refine ⟨?_, rfl, rfl⟩
    simp [keyOf, restate, refresh, clean, hcode, hsubject, htarget, hor]

/-! ### The index -/

def Indexed (index : Key → Option ℕ) (keys : List Key) : Prop :=
  ∀ key i, index key = some i ↔ keys[i]? = some key

theorem Indexed.concat {index : Key → Option ℕ} {keys : List Key} (h : Indexed index keys) {key : Key}
    (hnew : key ∉ keys) : Indexed (Function.update index key (some keys.length)) (keys ++ [key]) := by
  intro key' i
  by_cases hkey : key' = key
  · subst hkey
    rw [Function.update_self, Option.some.injEq]
    constructor
    · rintro rfl
      exact List.getElem?_concat_length
    · intro hi
      rw [List.getElem?_append] at hi
      split at hi
      · exact absurd (List.mem_of_getElem? hi) hnew
      · have := (List.getElem?_eq_some_iff.mp hi).1
        rw [List.length_singleton] at this
        omega
  · rw [Function.update_of_ne hkey, h key' i, List.getElem?_append]
    split
    · exact Iff.rfl
    case isFalse hlt =>
      rw [List.getElem?_eq_none (Nat.le_of_not_lt hlt)]
      constructor
      · intro hnone
        exact nomatch hnone
      · intro hlast
        exact absurd (List.mem_singleton.mp (List.mem_of_getElem? hlast)) hkey

theorem indexed_indexOf {entries : List (LogEntry α)} (h : (entries.map LogEntry.key).Nodup) :
    Indexed (indexOf entries) (entries.map LogEntry.key) := by
  induction entries using List.reverseRecOn with
  | nil =>
    intro key i
    simp [indexOf]
  | append_singleton entries e ih =>
    rw [List.map_append, List.map_singleton] at h ⊢
    have hindex : indexOf (entries ++ [e]) =
        Function.update (indexOf entries) e.key (some (entries.map LogEntry.key).length) := by
      rw [indexOf, List.zipIdx_append, List.foldl_append, indexOf]
      simp
    rw [hindex]
    apply (ih (List.nodup_append.mp h).1).concat
    intro hmem
    exact (List.nodup_append.mp h).2.2 _ hmem _ (List.mem_singleton_self _) rfl

/-! ### Runs -/

structure Row (steps : List (Step α)) (nextId : ℕ) (e : LogEntry α) : Prop where
  message : e.message ≠ ""
  plain : e.finding = e.key
  recent : e.id ≤ nextId
  counted : Counted steps e

structure Kept (steps : List (Step α)) : Prop where
  rows : ∀ e ∈ (written steps).next, Row steps (written steps).nextId e
  distinct : ((written steps).next.map LogEntry.key).Nodup
  ids : ((written steps).next.map fun e => e.id).Pairwise (· < ·)

theorem written_concat (steps : List (Step α)) (s : Step α) :
    written (steps ++ [s]) = (written steps).step s :=
  Machine.run_append ..

theorem Counted.concat {steps : List (Step α)} {e e' : LogEntry α} (h : Counted steps e) (s : Step α)
    (hfinding : e'.finding = e.finding) (hid : e'.id = e.id)
    (hcount : e'.count = e.count + [s].countP (repeats e.finding)) :
    Counted (steps ++ [s]) e' := by
  obtain ⟨before, item, again, now, after, rfl, hitem, hbefore, hadded, hsum⟩ := h
  refine ⟨before, item, again, now, after ++ [s], by simp, hitem.trans hfinding.symm, by omega, by omega, ?_⟩
  rw [hfinding, List.countP_append, hcount, hsum, Nat.add_assoc]

theorem Kept.concat {steps : List (Step α)} (h : Kept steps) {s : Step α}
    (hsilent : ∀ key, repeats key s = false) (hrows : ((written steps).step s).next.Sublist (written steps).next)
    (hid : ((written steps).step s).nextId = (written steps).nextId) : Kept (steps ++ [s]) := by
  constructor
  case rows =>
    rw [written_concat, hid]
    intro e he
    have hrow := h.rows e (hrows.subset he)
    exact { hrow with counted := hrow.counted.concat s rfl rfl (by simp [hsilent]) }
  case distinct =>
    rw [written_concat]
    exact h.distinct.sublist (hrows.map _)
  case ids =>
    rw [written_concat]
    exact h.ids.sublist (hrows.map _)

theorem latest_sublist (entries : List (LogEntry α)) : (latest entries).Sublist entries := by
  rw [latest]
  split
  · exact List.drop_sublist _ _
  · exact List.Sublist.refl _

theorem length_latest (entries : List (LogEntry α)) : (latest entries).length ≤ maxEntries := by
  rw [latest]
  split
  · rw [List.length_drop]
    omega
  · omega

theorem mem_modify {β : Type} {list : List β} {i : ℕ} {f : β → β} {b : β} (h : b ∈ list.modify i f) :
    ∃ j a, list[j]? = some a ∧ b = if i = j then f a else a := by
  obtain ⟨j, hj⟩ := List.mem_iff_getElem?.mp h
  rw [List.getElem?_modify] at hj
  obtain ⟨a, ha, rfl⟩ := Option.map_eq_some_iff.mp hj
  exact ⟨j, a, ha, rfl⟩

theorem map_modify {β γ : Type} {list : List β} {i : ℕ} {f : β → β} {g : β → γ}
    (h : ∀ a, list[i]? = some a → g (f a) = g a) : (list.modify i f).map g = list.map g := by
  apply List.ext_getElem?
  intro j
  rw [List.getElem?_map, List.getElem?_map, List.getElem?_modify]
  cases hj : list[j]? with
  | none => rfl
  | some a =>
    by_cases hij : i = j
    · subst hij
      simp [h a hj]
    · simp [hij]

theorem repeats_report {item : LogEntryInput α} (hitem : Plain item) (hmessage : item.message ≠ "")
    (again : Bool) (now : ℕ) (key : Key) :
    [Step.report item again now].countP (repeats key) = if again ∧ keyOf item = key then 1 else 0 := by
  simp [repeats, hmessage, finding_of_plain hitem hmessage, List.countP_singleton]

theorem Kept.report {steps : List (Step α)} (h : Kept steps)
    (hindex : Indexed (written steps).index ((written steps).next.map LogEntry.key)) {item : LogEntryInput α}
    (hitem : Plain item) (again : Bool) (now : ℕ) :
    Kept (steps ++ [.report item again now]) ∧
      Indexed (written (steps ++ [.report item again now])).index
        ((written (steps ++ [.report item again now])).next.map LogEntry.key) := by
  have hstep := written_concat steps (.report item again now)
  by_cases hmessage : item.message = ""
  · have hsame : (written steps).step (.report item again now) = written steps := if_pos hmessage
    rw [hsame] at hstep
    refine ⟨h.concat (by simp [repeats, hmessage]) ?_ (congrArg _ hsame), hstep ▸ hindex⟩
    rw [hsame]
  rw [Writing.step, Writing.report] at hstep
  rw [if_neg hmessage] at hstep
  have hrepeats := repeats_report hitem hmessage again now
  have hother : ∀ e ∈ (written steps).next, keyOf item ≠ e.key → ∀ nextId, (written steps).nextId ≤ nextId →
      Row (steps ++ [.report item again now]) nextId e := by
    intro e he hkey nextId hle
    have hrow := h.rows e he
    have hsilent : e.count = e.count + [Step.report item again now].countP (repeats e.finding) := by
      rw [hrepeats, hrow.plain, if_neg fun hsame => hkey hsame.2, Nat.add_zero]
    exact
      { message := hrow.message
        plain := hrow.plain
        recent := Nat.le_trans hrow.recent hle
        counted := hrow.counted.concat _ rfl rfl hsilent }
  cases hfound : (written steps).index (keyOf item) with
  | some place =>
    rw [hfound] at hstep
    have hsame : ∀ e, (written steps).next[place]? = some e → e.key = keyOf item := by
      intro e he
      have hkey := (hindex _ _).mp hfound
      rw [List.getElem?_map, he] at hkey
      exact Option.some.inj hkey
    have hkeys : ((written steps).next.modify place (restate again now item)).map LogEntry.key =
        (written steps).next.map LogEntry.key :=
      map_modify fun e he => (restate_same again now (hsame e he)).1.trans (hsame e he).symm
    have hids : ((written steps).next.modify place (restate again now item)).map (fun e => e.id) =
        (written steps).next.map fun e => e.id :=
      map_modify fun e he => (restate_same again now (hsame e he)).2.1
    rw [hstep]
    refine ⟨⟨?_, hstep ▸ hkeys ▸ h.distinct, hstep ▸ hids ▸ h.ids⟩, hkeys ▸ hindex⟩
    · rw [hstep]
      intro e' he'
      obtain ⟨j, e, he, rfl⟩ := mem_modify he'
      by_cases hplace : place = j
      · subst hplace
        have hrow := h.rows e (List.mem_of_getElem? he)
        obtain ⟨hkey, hid, hcount⟩ := restate_same again now (hsame e he)
        rw [← hsame e he] at hkey
        rw [if_pos rfl]
        exact
          { message := (congrArg Key.message hkey).trans_ne hrow.message
            plain := (congrArg Key.clean hkey).trans (hrow.plain.trans hkey.symm)
            recent := hid ▸ hrow.recent
            counted := hrow.counted.concat _ (congrArg Key.clean hkey) hid
              (by rw [hrepeats, hrow.plain, hsame e he, hcount]; simp) }
      · rw [if_neg hplace]
        apply hother e (List.mem_of_getElem? he) _ _ (Nat.le_refl _)
        intro hkey
        have hfound' := (hindex (keyOf item) j).mpr (by rw [List.getElem?_map, he, hkey]; rfl)
        exact hplace (Option.some.inj (hfound.symm.trans hfound'))
  | none =>
    rw [hfound] at hstep
    have hnew : keyOf item ∉ (written steps).next.map LogEntry.key := by
      intro hmem
      obtain ⟨i, hi⟩ := List.mem_iff_getElem?.mp hmem
      exact nomatch hfound.symm.trans ((hindex (keyOf item) i).mpr hi)
    have hrow : keyOf (clean item) = keyOf item := finding_of_plain hitem hmessage
    refine ⟨⟨?_, ?_, ?_⟩, ?_⟩ <;> rw [hstep]
    · intro e he
      rcases List.mem_append.mp he with hold | hlast
      · exact hother e hold (fun hkey => hnew (hkey ▸ List.mem_map_of_mem hold)) _ (Nat.le_succ _)
      · obtain rfl := List.mem_singleton.mp hlast
        exact
          { message := hmessage
            plain := congrArg Key.clean hrow
            recent := Nat.le_refl _
            counted := ⟨steps, item, again, now, [], rfl, congrArg Key.clean hrow.symm, rfl,
              congrArg Writing.nextId hstep, rfl⟩ }
    · rw [List.map_append, List.map_singleton, List.nodup_append]
      refine ⟨h.distinct, List.nodup_singleton _, fun key hkey key' hlast => ?_⟩
      rw [List.mem_singleton.mp hlast]
      rintro rfl
      exact hnew (hrow ▸ hkey)
    · rw [List.map_append, List.map_singleton, List.pairwise_append]
      refine ⟨h.ids, List.pairwise_singleton _ _, fun id hid id' hlast => ?_⟩
      obtain ⟨e, he, rfl⟩ := List.mem_map.mp hid
      rw [List.mem_singleton.mp hlast]
      exact Nat.lt_succ_of_le (h.rows e he).recent
    · have hconcat := hindex.concat hnew
      rw [List.length_map, ← hrow] at hconcat
      rw [List.map_append, List.map_singleton, ← hrow]
      exact hconcat

theorem Kept.reports {steps : List (Step α)} (h : Kept steps)
    (hindex : Indexed (written steps).index ((written steps).next.map LogEntry.key))
    {inputs : List (LogEntryInput α)} (hinputs : ∀ item ∈ inputs, Plain item) (again : Bool) (now : ℕ) :
    Kept (steps ++ inputs.map fun item => Step.report item again now) := by
  induction inputs generalizing steps with
  | nil => rwa [List.map_nil, List.append_nil]
  | cons item rest ih =>
    obtain ⟨hkept, hindexed⟩ := h.report hindex (hinputs item List.mem_cons_self) again now
    have hrest := ih hkept hindexed fun other hother => hinputs other (List.mem_cons_of_mem _ hother)
    rwa [List.append_assoc, List.singleton_append] at hrest

theorem Kept.call {steps : List (Step α)} (h : Kept steps) {call : Call α} (hcall : call.Plain) :
    Kept (steps ++ call.steps) := by
  cases call with
  | clear => exact h.concat (fun _ => rfl) (List.nil_sublist _) rfl
  | record inputs again now =>
    rw [Call.steps]
    split
    · rwa [List.append_nil]
    · have hstart := h.concat (s := .start) (fun _ => rfl) (List.Sublist.refl _) rfl
      have hindex := indexed_indexOf h.distinct
      have hreports := hstart.reports (by rw [written_concat]; exact hindex) hcall again now
      have hfinish := hreports.concat (s := .finish) (fun _ => rfl) (latest_sublist _) rfl
      rwa [List.append_assoc, List.append_assoc, List.singleton_append] at hfinish

/-- The log holds the rows that are written, and the last id. -/
def Holds (log : Log α) (w : Writing α) : Prop := log.entries = w.next ∧ log.nextId = w.nextId

theorem Holds.call {log : Log α} {w : Writing α} (h : Holds log w) (call : Call α) :
    Holds (log.call call) (Machine.run Writing.step w call.steps) := by
  cases call with
  | clear => exact ⟨rfl, h.2⟩
  | record inputs again now =>
    rw [Log.call, Log.record, Call.steps]
    split
    · exact h
    · have hreports : ∀ w : Writing α,
          Machine.run Writing.step w (inputs.map fun item => Step.report item again now) =
            inputs.foldl (Writing.report again now) w := by
        intro w
        rw [Machine.run, List.foldl_map]
        rfl
      rw [List.cons_append, Machine.run_cons, Machine.run_append, hreports, h.1, h.2]
      exact ⟨rfl, rfl⟩

theorem holds_run (calls : List (Call α)) : Holds (run calls) (written (calls.flatMap Call.steps)) := by
  induction calls using List.reverseRecOn with
  | nil => exact ⟨rfl, rfl⟩
  | append_singleton calls call ih =>
    rw [run, written, List.flatMap_append, List.flatMap_singleton, Machine.run_append, Machine.run_append]
    exact ih.call call

theorem kept_run {calls : List (Call α)} (hcalls : ∀ call ∈ calls, call.Plain) : Kept (calls.flatMap Call.steps) := by
  induction calls using List.reverseRecOn with
  | nil =>
    exact
      { rows := fun e he => nomatch he
        distinct := List.nodup_nil
        ids := List.Pairwise.nil }
  | append_singleton calls call ih =>
    rw [List.flatMap_append, List.flatMap_singleton]
    apply (ih fun other hother => hcalls other (List.mem_append_left _ hother)).call
    exact hcalls call (List.mem_append_right _ (List.mem_singleton_self _))

theorem length_call {log : Log α} (h : log.entries.length ≤ maxEntries) (call : Call α) :
    (log.call call).entries.length ≤ maxEntries := by
  cases call with
  | clear => exact Nat.zero_le _
  | record inputs again now =>
    rw [Log.call, Log.record]
    split
    · exact h
    · exact length_latest _

/-- Where no reported field of the key is empty text, there is one row for each finding and at most 500 of them,
and a row counts the reports of its finding since it was added. -/
theorem run_one_row_each {calls : List (Call α)} (hcalls : ∀ call ∈ calls, call.Plain) :
    OneRowEach calls (run calls) := by
  obtain ⟨hentries, hid⟩ := holds_run calls
  have h := kept_run hcalls
  constructor
  case findings =>
    rw [hentries, List.map_congr_left fun e he => (h.rows e he).plain]
    exact h.distinct
  case bounded =>
    exact Machine.run_invariant (I := fun log : Log α => log.entries.length ≤ maxEntries)
      (fun _ call hlog => length_call hlog call) (Nat.zero_le _) calls
  case ids =>
    rw [hentries]
    exact List.pairwise_map.mp h.ids
  case counted => exact fun e he => (h.rows e (hentries ▸ he)).counted

/-! ### A finding with an empty code -/

namespace Sample

def uncoded : LogEntryInput ℕ :=
  { severity := .note, stage := "Open", source := "PowerIO", message := "field dropped", code := some "",
    subject := none, target := none, buses := none, hint := none, details := none }

theorem uncoded_twice :
    ¬ OneRowEach [.record [uncoded] true 0, .record [uncoded] true 1]
      (run [.record [uncoded] true 0, .record [uncoded] true 1]) := by
  intro h
  have hrows := h.findings
  revert hrows
  decide

def coded : LogEntryInput ℕ := { uncoded with code := some "EMIT.FIELD_DROPPED" }

theorem run_one_row_each_coded : OneRowEach [.record [coded] true 0, .record [coded] true 1]
    (run [.record [coded] true 0, .record [coded] true 1]) := by
  apply run_one_row_each
  have hplain : ∀ item ∈ [coded], Plain item := by
    intro item hitem _
    rw [List.mem_singleton.mp hitem]
    decide
  intro call hcall
  rcases List.mem_pair.mp hcall with rfl | rfl
  · exact hplain
  · exact hplain

end Sample

end Tellegen.DiagnosticLog
