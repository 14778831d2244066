import MongoSyncAgent.Cycle
import MongoSyncAgent.IsoFormat
import MongoSyncAgent.JsonText
import MongoSyncAgent.StateWrites

/-!
The history of runs that the state store keeps.

`record_run` writes the units of a run as a JSON text, and a query that reads the text gets them
back. Each run of the agent has one session with the store, and any statement of it may fail.
-/

namespace MongoSyncAgent.RunHistory

open MongoSyncAgent.Timestamps MongoSyncAgent.Config MongoSyncAgent.State MongoSyncAgent.JsonText
open MongoSyncAgent.IsoFormat MongoSyncAgent.Transactions MongoSyncAgent.StateWrites
open MongoSyncAgent.Cycle (exitCode)
open MongoSyncAgent.Runtime (sampleNow)

/-! ### The columns of a row -/

/-- The text of `u.status`. -/
def statusText : Status → String
  | .ok => "ok"
  | .skipped => "skipped"
  | .failed => "failed"
  | .empty => "empty"

def errorJson : Option String → Json
  | none => .null
  | some text => .str text

def unitJson (u : UnitResult) : Json :=
  .obj [("unit", .str u.unit), ("status", .str (statusText u.status)),
    ("docs", .num (.ofNat u.docs)), ("bytes_uploaded", .num (.ofNat u.bytesUploaded)),
    ("error", errorJson u.error)]

/-- `json.dumps([... for u in summary.units])`. -/
def unitsJson (units : List UnitResult) : String :=
  String.ofList (dumps (.arr (units.map unitJson)))

/-- A row of `runs`, as it is in the file. -/
structure RunColumns where
  runId : String
  runDt : String
  durationS : Rat
  peakRssBytes : ℕ
  unitsJson : String
  recordedAt : String
  deriving DecidableEq

/-- The parameters of the `INSERT`. -/
def columnsOf (row : RunRow) : RunColumns where
  runId := row.summary.runId
  runDt := row.summary.runDt
  durationS := row.summary.durationS
  peakRssBytes := row.summary.peakRssBytes
  unitsJson := unitsJson row.summary.units
  recordedAt := isoformat row.recordedAt

/-! ### Reading them -/

def readStatus : String → Option Status
  | "ok" => some .ok
  | "skipped" => some .skipped
  | "failed" => some .failed
  | "empty" => some .empty
  | _ => none

def readText : Json → Option String
  | .str s => some s
  | _ => none

def readCount : Json → Option ℕ
  | .num n => n.toNat?
  | _ => none

def readError : Json → Option (Option String)
  | .null => some none
  | .str s => some (some s)
  | _ => none

def readUnit (v : Json) : Option UnitResult := do
  return {
    unit := ← readText (← v.get "unit")
    status := ← readStatus (← readText (← v.get "status"))
    docs := ← readCount (← v.get "docs")
    bytesUploaded := ← readCount (← v.get "bytes_uploaded")
    error := ← readError (← v.get "error") }

def readUnits (text : String) : Option (List UnitResult) :=
  match loads text.toList with
  | some (.arr xs) => xs.mapM readUnit
  | _ => none

/-- The run that a row is about. -/
def readRow (c : RunColumns) : Option RunRow := do
  return {
    summary := {
      runId := c.runId
      runDt := c.runDt
      durationS := c.durationS
      peakRssBytes := c.peakRssBytes
      units := ← readUnits c.unitsJson }
    recordedAt := ← fromisoformat c.recordedAt }

lemma readStatus_text (s : Status) : readStatus (statusText s) = some s := by
  cases s <;> rfl

lemma readError_json (e : Option String) : readError (errorJson e) = some e := by
  cases e <;> rfl

lemma readUnit_json (u : UnitResult) : readUnit (unitJson u) = some u := by
  have hfield : ∀ key, (unitJson u).get key = [("unit", Json.str u.unit),
      ("status", .str (statusText u.status)), ("docs", .num (.ofNat u.docs)),
      ("bytes_uploaded", .num (.ofNat u.bytesUploaded)),
      ("error", errorJson u.error)].lookup key := fun _ => rfl
  simp [readUnit, hfield, List.lookup_cons, readText, readCount, readStatus_text, readError_json]

lemma mapM_readUnit (units : List UnitResult) :
    (units.map unitJson).mapM readUnit = some units := by
  induction units with
  | nil => rfl
  | cons u units ih => simp [List.mapM_cons, readUnit_json, ih]

/-- **What a run reports can be read back**, whatever its names and errors hold. -/
theorem readUnits_json (units : List UnitResult) : readUnits (unitsJson units) = some units := by
  have hloads : loads (unitsJson units).toList = some (.arr (units.map unitJson)) := by
    rw [unitsJson, String.toList_ofList]
    have hnone : ∀ c ∈ ([] : List Char), isBlank c := by simp
    simpa using loads_dumps (.arr (units.map unitJson)) hnone
  unfold readUnits
  rw [hloads]
  exact mapM_readUnit units

lemma readRow_columns {row : RunRow} (h : Zoned row.recordedAt) :
    readRow (columnsOf row) = some row := by
  simp [readRow, columnsOf, readUnits_json, fromisoformat_isoformat row.recordedAt h]

/-! ### Sessions with the store -/

/-- One session after another, each with its mutations: those that returned normally, and what
the file holds at the end. -/
def sessions : List (List Write) → Tables → List Mutation × Tables
  | [], t => ([], t)
  | ws :: rest, t =>
    let later := sessions rest (performAll ws (idle t)).2.committed
    ((performAll ws (idle t)).1 ++ later.1, later.2)

/-- A new database. -/
def newTables : Tables := ⟨.empty, fun _ => none⟩

/-- The text of a row of `runs`, if the table has one with that id. -/
def columnsAt (t : Tables) (runId : String) : Option RunColumns := (t.runs runId).map columnsOf

/-- The last run with an id that some mutations record. -/
def lastRun (runId : String) : List Mutation → Option RunRow
  | [] => none
  | .recordRun row :: ms =>
    (lastRun runId ms).or (if runId = row.summary.runId then some row else none)
  | _ :: ms => lastRun runId ms

lemma replayAll_append (ms ns : List Mutation) (t : Tables) :
    replayAll (ms ++ ns) t = replayAll ns (replayAll ms t) := List.foldl_append

/-- Sessions with the store are sessions of attempts. -/
lemma sessions_eq (wss : List (List Write)) (t : Tables) :
    (sessions wss t).2 = (Transactions.sessions (wss.map (·.map Write.attempt)) t).2 ∧
      replayAll (sessions wss t).1 t =
        applyAll (Transactions.sessions (wss.map (·.map Write.attempt)) t).1 t := by
  induction wss generalizing t with
  | nil => exact ⟨rfl, rfl⟩
  | cons ws wss ih =>
    obtain ⟨hconn, hreplay⟩ := performAll_eq ws (idle t) t
    obtain ⟨working, hcommitted⟩ := runAll_committed (ws.map Write.attempt) t
    rw [hcommitted] at hconn
    obtain ⟨hlater, hall⟩ := ih (applyAll (runAll (ws.map Write.attempt) (idle t)).1 t)
    simp only [sessions, Transactions.sessions, List.map_cons, hconn, hcommitted]
    refine ⟨hlater, ?_⟩
    rw [replayAll_append, applyAll_append, hreplay, hall]

lemma runs_replayAll (ms : List Mutation) (t : Tables) (runId : String) :
    (replayAll ms t).runs runId = (lastRun runId ms).or (t.runs runId) := by
  induction ms generalizing t with
  | nil => rfl
  | cons m ms ih =>
    rw [replayAll, List.foldl_cons, ← replayAll, ih]
    cases m with
    | recordRun row =>
      rw [lastRun, Option.or_assoc]
      congr 1
      show (if runId = row.summary.runId then some row else t.runs runId) = _
      split_ifs <;> rfl
    | _ => rfl

/-- What is recorded has been asked for. -/
lemma mem_performAll {ws : List Write} {c : Connection Tables} {m : Mutation}
    (h : m ∈ (performAll ws c).1) : ∃ w ∈ ws, w.mutation = m := by
  induction ws generalizing c with
  | nil => cases h
  | cons w ws ih =>
    have hrest : m ∈ (performAll ws (w.attempt.run c).2).1 → ∃ w' ∈ w :: ws, w'.mutation = m := by
      intro hmem
      obtain ⟨w', hw', hm⟩ := ih hmem
      exact ⟨w', List.mem_cons_of_mem _ hw', hm⟩
    rw [performAll] at h
    simp only at h
    split_ifs at h
    · rcases List.mem_cons.mp h with rfl | h
      · exact ⟨w, List.mem_cons_self, rfl⟩
      · exact hrest h
    · exact hrest h

lemma mem_sessions {wss : List (List Write)} {t : Tables} {m : Mutation}
    (h : m ∈ (sessions wss t).1) : ∃ ws ∈ wss, ∃ w ∈ ws, w.mutation = m := by
  induction wss generalizing t with
  | nil => cases h
  | cons ws wss ih =>
    rcases List.mem_append.mp h with h | h
    · exact ⟨ws, List.mem_cons_self, mem_performAll h⟩
    · obtain ⟨ws', hws', hw⟩ := ih h
      exact ⟨ws', List.mem_cons_of_mem _ hws', hw⟩

lemma mem_lastRun {runId : String} {ms : List Mutation} {row : RunRow}
    (h : lastRun runId ms = some row) : .recordRun row ∈ ms := by
  induction ms with
  | nil => cases h
  | cons m ms ih =>
    cases m with
    | recordRun row' =>
      rw [lastRun] at h
      rcases hlast : lastRun runId ms with _ | last
      · rw [hlast, Option.none_or] at h
        split_ifs at h
        obtain rfl := Option.some.inj h
        exact List.mem_cons_self
      · rw [hlast] at h
        obtain rfl := Option.some.inj h
        exact List.mem_cons_of_mem _ (ih hlast)
    | _ => exact List.mem_cons_of_mem _ (ih h)

/-- **The run history is what was recorded.** Over any sessions with a new store, in which any
statements fail, the file holds what the mutations have done that returned normally, and no trace
of another; and the row of a run can be read back as the last one that was recorded for it. -/
theorem run_history_kept {wss : List (List Write)}
    (hclock : ∀ ws ∈ wss, ∀ w ∈ ws, ∀ row, w.mutation = .recordRun row → Zoned row.recordedAt) :
    (sessions wss newTables).2 = replayAll (sessions wss newTables).1 newTables ∧
    ∀ runId, (columnsAt (sessions wss newTables).2 runId).bind readRow =
      lastRun runId (sessions wss newTables).1 := by
  obtain ⟨hconn, hreplay⟩ := sessions_eq wss newTables
  have hfile : (sessions wss newTables).2 = replayAll (sessions wss newTables).1 newTables := by
    rw [hconn, hreplay, sessions_committed]
  refine ⟨hfile, fun runId => ?_⟩
  rw [hfile, columnsAt, runs_replayAll]
  rcases hlast : lastRun runId (sessions wss newTables).1 with _ | row
  · rfl
  · obtain ⟨ws, hws, w, hw, hm⟩ := mem_sessions (mem_lastRun hlast)
    exact readRow_columns (hclock ws hws w hw row hm)

/-- A run of one unit is recorded, and of the statements only the `COMMIT` may fail. -/
def sampleRecord (u : UnitResult) (commitFails : Bool) : Write where
  mutation := .recordRun ⟨⟨"r1", "2024-06-21T12:00:00+00:00", 3/2, 1048576, [u]⟩, sampleNow⟩
  faults := ⟨false, fun _ => false, commitFails⟩

/-- A run is recorded with one unit that is fine, and then, by a session whose `COMMIT` fails, with
one that failed: the row is that of the first, and says so. -/
theorem run_history_sample :
    ((columnsAt (sessions [[sampleRecord { unit := "web", status := .ok, docs := 3 } false],
      [sampleRecord (Cycle.failedUnit "web" "disk \"full\"") true]] newTables).2 "r1").bind
        readRow).map (exitCode ·.summary.units) = some 0 := by
  rw [(run_history_kept fun ws hws w hw row hrow => ?_).2 "r1"]
  · rfl
  simp only [List.mem_cons, List.not_mem_nil, or_false] at hws
  rcases hws with rfl | rfl <;>
  · obtain rfl := List.mem_singleton.mp hw
    obtain rfl := Mutation.recordRun.inj hrow
    intro off hoff
    obtain rfl := Option.some.inj hoff
    decide

end MongoSyncAgent.RunHistory
