import MongoSyncAgent.Runtime
import MongoSyncAgent.Transactions

/-!
The mutations of the state store, statement by statement.

Each runs between a `BEGIN IMMEDIATE` and a `COMMIT` on the one connection of the run. A failure
of the first or of a statement between the two leaves the store as it was. A `COMMIT` that fails
leaves its transaction open, and no later mutation of the run can begin one.
-/

namespace MongoSyncAgent.StateWrites

open MongoSyncAgent.Timestamps MongoSyncAgent.State MongoSyncAgent.Config
open MongoSyncAgent.Runtime MongoSyncAgent.Transactions

structure RunSummary where
  runId : String
  runDt : String
  durationS : Rat
  peakRssBytes : ℕ
  units : List UnitResult

/-- A row of `runs`. -/
structure RunRow where
  summary : RunSummary
  recordedAt : Datetime

structure Tables where
  store : StateStore
  runs : String → Option RunRow

/-! ### Statements -/

def upsertWatermark (namespace_ : String) (wm : Watermark) (t : Tables) : Tables :=
  { t with store := t.store.setWatermark namespace_ wm }

def upsertOffset (source : String) (updatedAt : Datetime) (fo : FileOffset) (t : Tables) :
    Tables :=
  { t with store := t.store.setOffsets source [fo] updatedAt }

def deleteOffsetRow (source fingerprint : String) (t : Tables) : Tables :=
  { t with store := t.store.deleteOffset source fingerprint }

def upsertRun (row : RunRow) (t : Tables) : Tables :=
  { t with runs := fun runId => if runId = row.summary.runId then some row else t.runs runId }

/-! ### Mutations -/

inductive Mutation
  | setWatermark (namespace_ : String) (wm : Watermark)
  | setOffsets (source : String) (offsets : List FileOffset) (updatedAt : Datetime)
  | deleteOffset (source fingerprint : String)
  | recordRun (row : RunRow)

namespace Mutation

/-- The statements inside the transaction; `executemany` runs one for each row of the batch. -/
def statements : Mutation → List (Tables → Tables)
  | .setWatermark namespace_ wm => [upsertWatermark namespace_ wm]
  | .setOffsets source offsets updatedAt => offsets.map (upsertOffset source updatedAt)
  | .deleteOffset source fingerprint => [deleteOffsetRow source fingerprint]
  | .recordRun row => [upsertRun row]

/-- What a mutation does as a whole: an effect on the store, or a row of `runs`. -/
def apply (t : Tables) : Mutation → Tables
  | .setWatermark namespace_ wm =>
    { t with store := Runtime.apply t.store (.setWatermark namespace_ wm) }
  | .setOffsets source offsets updatedAt =>
    { t with store := Runtime.apply t.store (.setOffsets source offsets updatedAt) }
  | .deleteOffset source fingerprint =>
    { t with store := Runtime.apply t.store (.deleteOffset source fingerprint) }
  | .recordRun row => upsertRun row t

end Mutation

/-- Which statements of a mutation fail, the inner ones by their position. -/
structure Faults where
  beginImmediate : Bool
  inner : ℕ → Bool
  commit : Bool

/-- A mutation that is called, and what fails in it. -/
structure Write where
  mutation : Mutation
  faults : Faults

namespace Write

/-- `with self._transaction() as cur`. -/
def attempt (w : Write) : Attempt Tables where
  beginFails := w.faults.beginImmediate
  inner := w.mutation.statements.zipIdx.map fun step => (step.1, w.faults.inner step.2)
  commitFails := w.faults.commit

/-- No statement before the `COMMIT` fails. -/
def ReachesCommit (w : Write) : Prop :=
  w.faults.beginImmediate = false ∧
    ∀ i < w.mutation.statements.length, w.faults.inner i = false

/-- None of its own statements fails. -/
def Unfailing (w : Write) : Prop := w.ReachesCommit ∧ w.faults.commit = false

end Write

/-- One mutation after the other: those that returned normally, and the connection. -/
def performAll : List Write → Connection Tables → List Mutation × Connection Tables
  | [], c => ([], c)
  | w :: ws, c =>
    let rest := performAll ws (w.attempt.run c).2
    (if (w.attempt.run c).1 then w.mutation :: rest.1 else rest.1, rest.2)

def replayAll (ms : List Mutation) (t : Tables) : Tables := ms.foldl Mutation.apply t

/-! ### Mutations as attempts -/

lemma setOffsets_nil (s : StateStore) (source : String) (updatedAt : Datetime) :
    s.setOffsets source [] updatedAt = s := by
  simp [StateStore.setOffsets, StateStore.upserts]

lemma setOffsets_cons (s : StateStore) (source : String) (fo : FileOffset)
    (offsets : List FileOffset) (updatedAt : Datetime) :
    (s.setOffsets source [fo] updatedAt).setOffsets source offsets updatedAt =
      s.setOffsets source (fo :: offsets) updatedAt := by
  simp only [StateStore.setOffsets, StateStore.mk.injEq, true_and]
  funext n
  by_cases h : n = source <;> simp [h, StateStore.upserts]

/-- The statements of a mutation add up to the mutation. -/
lemma foldl_statements (m : Mutation) (t : Tables) :
    m.statements.foldl (fun t f => f t) t = m.apply t := by
  cases m with
  | setWatermark | deleteOffset | recordRun => rfl
  | setOffsets source offsets updatedAt =>
    show (offsets.map (upsertOffset source updatedAt)).foldl (fun t f => f t) t =
      { t with store := t.store.setOffsets source offsets updatedAt }
    induction offsets generalizing t with
    | nil => rw [setOffsets_nil]; rfl
    | cons fo offsets ih =>
      rw [List.map_cons, List.foldl_cons, ih, ← setOffsets_cons]
      rfl

lemma effect_attempt (w : Write) (t : Tables) : w.attempt.effect t = w.mutation.apply t := by
  rw [← foldl_statements]
  unfold Attempt.effect Write.attempt
  rw [List.foldl_map]
  conv_rhs => rw [← List.zipIdx_map_fst 0 w.mutation.statements, List.foldl_map]

lemma attempt_reachesCommit (w : Write) : w.attempt.ReachesCommit ↔ w.ReachesCommit := by
  refine and_congr_right fun _ => ?_
  simp only [Write.attempt, List.forall_mem_map]
  constructor
  · intro h i hi
    exact h (w.mutation.statements[i], i) (List.mk_mem_zipIdx_iff_getElem?.mpr (by simp [hi]))
  · intro h step hstep
    exact h step.2 (by simpa using List.snd_lt_of_mem_zipIdx hstep)

lemma performAll_eq (ws : List Write) (c : Connection Tables) (t : Tables) :
    (performAll ws c).2 = (runAll (ws.map Write.attempt) c).2 ∧
      replayAll (performAll ws c).1 t = applyAll (runAll (ws.map Write.attempt) c).1 t := by
  induction ws generalizing c t with
  | nil => exact ⟨rfl, rfl⟩
  | cons w ws ih =>
    obtain ⟨hconn, -⟩ := ih (w.attempt.run c).2 t
    refine ⟨hconn, ?_⟩
    rw [List.map_cons, performAll, runAll]
    cases (w.attempt.run c).1 with
    | false => exact (ih _ t).2
    | true =>
      show replayAll (performAll ws _).1 (w.mutation.apply t) =
        applyAll (runAll (ws.map Write.attempt) _).1 (w.attempt.effect t)
      rw [effect_attempt]
      exact (ih _ _).2

/-- **When a failed write does not disturb later ones**: where every mutation that gets to its
`COMMIT` gets through it. Then after each mutation the connection is outside a transaction, the
tables are those of the mutations that returned normally, and a mutation whose own statements do
not fail returns normally. -/
theorem writes_undisturbed_iff (t : Tables) (ws : List Write) :
    (∀ done w rest, ws = done ++ w :: rest →
      (performAll (done ++ [w]) (idle t)).2.working = none ∧
      (performAll (done ++ [w]) (idle t)).2.visible =
        replayAll (performAll (done ++ [w]) (idle t)).1 t ∧
      (w.Unfailing → (w.attempt.run (performAll done (idle t)).2).1 = true)) ↔
    ∀ w ∈ ws, w.ReachesCommit → w.faults.commit = false := by
  have hcond : (∀ w ∈ ws, w.ReachesCommit → w.faults.commit = false) ↔
      ∀ a ∈ ws.map Write.attempt, a.ReachesCommit → a.commitFails = false := by
    simp only [List.forall_mem_map, attempt_reachesCommit]
    rfl
  rw [hcond, ← undisturbed_iff t]
  have hstep : ∀ done w,
      ((performAll (done ++ [w]) (idle t)).2.working = none ∧
        (performAll (done ++ [w]) (idle t)).2.visible =
          replayAll (performAll (done ++ [w]) (idle t)).1 t ∧
        (w.Unfailing → (w.attempt.run (performAll done (idle t)).2).1 = true)) ↔
      Clean t (done.map Write.attempt ++ [w.attempt]) ∧ (w.attempt.Unfailing →
        (w.attempt.run (runAll (done.map Write.attempt) (idle t)).2).1 = true) := by
    intro done w
    have hown : w.attempt.Unfailing ↔ w.Unfailing := and_congr_left' (attempt_reachesCommit w)
    rw [hown, (performAll_eq (done ++ [w]) _ t).1, (performAll_eq (done ++ [w]) _ t).2,
      (performAll_eq done _ t).1, List.map_append, ← and_assoc]
    rfl
  constructor
  · intro h done a rest hsplit
    obtain ⟨done', ws', rfl, rfl, hws'⟩ := List.map_eq_append_iff.mp hsplit
    obtain ⟨w, rest', rfl, rfl, rfl⟩ := List.map_eq_cons_iff.mp hws'
    exact (hstep done' w).mp (h done' w rest' rfl)
  · rintro h done w rest rfl
    exact (hstep done w).mpr (h _ _ (rest.map Write.attempt) (by simp))

/-! ### A failed commit -/

lemma performAll_open (ws : List Write) (s t : Tables) :
    performAll ws ⟨s, some t⟩ = ([], ⟨s, some t⟩) := by
  induction ws with
  | nil => rfl
  | cons w ws ih => rw [performAll, run_open, ih]; rfl

/-- A commit that failed is the last thing that happens to the store in a run: every later
mutation raises, and the file stays as it was before. -/
theorem failed_commit_wedges {w : Write} (hreach : w.ReachesCommit)
    (hfails : w.faults.commit = true) (ws : List Write) (t : Tables) :
    performAll (w :: ws) (idle t) = ([], ⟨t, some (w.mutation.apply t)⟩) := by
  have hrun : w.attempt.run (idle t) = (false, ⟨t, some (w.mutation.apply t)⟩) := by
    rw [run_commits ((attempt_reachesCommit w).mpr hreach), effect_attempt]
    exact if_pos hfails
  rw [performAll, hrun, performAll_open]
  rfl

def sampleTables : Tables := ⟨.empty, fun _ => none⟩

def sampleWatermark : Watermark := ⟨"objectid", "6675c0de0000000000000000", sampleNow, "r1"⟩

/-- A watermark is set, and of its statements only the `COMMIT` may fail. -/
def sampleWrite (commitFails : Bool) : Write where
  mutation := .setWatermark "mongo:db.coll" sampleWatermark
  faults := ⟨false, fun _ => false, commitFails⟩

/-- A batch of two offsets, whose second row fails. -/
def failingBatch : Write where
  mutation := .setOffsets "web" [⟨"path:a.log", "a.log", 4, 5, none⟩,
    ⟨"path:b.log", "b.log", 2, 2, none⟩] sampleNow
  faults := ⟨false, fun i => i == 1, false⟩

/-- The batch is rolled back, and the watermark is set after it. -/
theorem writes_undisturbed_sample :
    (performAll [failingBatch, sampleWrite false] (idle sampleTables)).1 =
      [(sampleWrite false).mutation] ∧
    (performAll [failingBatch, sampleWrite false] (idle sampleTables)).2.working = none ∧
    (performAll [failingBatch, sampleWrite false] (idle sampleTables)).2.visible =
      (sampleWrite false).mutation.apply sampleTables := by
  have hcommits : ∀ w ∈ [failingBatch, sampleWrite false],
      w.ReachesCommit → w.faults.commit = false := by
    intro w hw _
    rcases List.mem_cons.mp hw with rfl | hw
    · rfl
    · rw [List.mem_singleton.mp hw]
      rfl
  have hundisturbed := (writes_undisturbed_iff sampleTables _).mpr hcommits
  obtain ⟨hidle, hvisible, -⟩ := hundisturbed [failingBatch] (sampleWrite false) [] rfl
  exact ⟨rfl, hidle, hvisible⟩

/-- Two watermarks are set, and the first `COMMIT` fails: the second mutation, of which nothing
fails, cannot begin. -/
theorem failed_commit_disturbs :
    ¬ ∀ (t : Tables) (ws done : List Write) (w : Write) (rest : List Write),
      ws = done ++ w :: rest →
      (performAll (done ++ [w]) (idle t)).2.working = none ∧
      (performAll (done ++ [w]) (idle t)).2.visible =
        replayAll (performAll (done ++ [w]) (idle t)).1 t ∧
      (w.Unfailing → (w.attempt.run (performAll done (idle t)).2).1 = true) := by
  intro h
  have hsecond := (h sampleTables _ [sampleWrite true] (sampleWrite false) [] rfl).2.2
    ⟨⟨rfl, fun _ _ => rfl⟩, rfl⟩
  cases hsecond

end MongoSyncAgent.StateWrites
