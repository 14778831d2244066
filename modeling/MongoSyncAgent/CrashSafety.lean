import MongoSyncAgent.ExitCodes
import MongoSyncAgent.Ledgers
import MongoSyncAgent.LogRuns

/-!
Crash safety of the agent as a whole: nothing is committed that is not uploaded.

The protocol is that of a ledger, which has the state store and the uploads. An object may be
uploaded at any time, if it is what its key says. A watermark may be committed if the rows of a
read are uploaded that an invocation made of the collection, by the watermark before; an offset, if
the lines of a read are uploaded that an invocation made of the file, from the offset before. Every
invocation keeps to the protocol, whatever its configuration and wherever it ends.
-/

namespace MongoSyncAgent.CrashSafety

open MongoSyncAgent.Py MongoSyncAgent.Bson MongoSyncAgent.Config MongoSyncAgent.State
open MongoSyncAgent.Runtime MongoSyncAgent.Outcomes MongoSyncAgent.Sinks MongoSyncAgent.Watermarks
open MongoSyncAgent.Extract MongoSyncAgent.Sources MongoSyncAgent.Ship MongoSyncAgent.Keys
open MongoSyncAgent.Systems MongoSyncAgent.Protocols MongoSyncAgent.Protocols.Protocol
open MongoSyncAgent.Cycle MongoSyncAgent.Timestamps MongoSyncAgent.Invocations
open MongoSyncAgent.Ledgers

/-! ### The ledger -/

/-- An object is what its key says: its content is of the kind of the key, and all of it is of
one run. -/
inductive Typed : Put → Prop
  | rows {pre db coll host runDt groups}
    (h : ∀ row ∈ groups.flatten, row.host = host ∧ row.extractedAt = runDt) :
    Typed ⟨mongoKey pre db coll runDt, .parquet groups⟩
  | lines {pre source host runDt records} (hne : records ≠ [])
    (h : ∀ r ∈ records, r.host = host ∧ r.source = source) :
    Typed ⟨logsKey pre source runDt, .ndjson records⟩
  | metrics {pre runDt records} (hne : records ≠ []) :
    Typed ⟨hostmetricsKey pre runDt, .metrics records⟩

variable (lib : Libs)

/-- One of the invocations that were run extracts the collection: what it meets, the run, the
prefix of its keys and its database. -/
inductive Extracts (ran : Invocation → Prop) :
    CollectionConfig → Env → RunContext → String → String → Prop
  | mk {i host c} (hi : ran i) (hc : c ∈ collectionsOf i.agent i.out i.only i.collection) :
    Extracts ran c.1 c.2 { i.ctx with host } (S3Uploader.make i.agent.s3.bucket i.agent.s3.pre).pre
      (databaseOf i.agent)

/-- One of the invocations that were run ships the source: what it meets, the run, and the prefix
of its keys. -/
inductive Ships (ran : Invocation → Prop) : LogSourceConfig → Env → RunContext → String → Prop
  | mk {i host x} (hi : ran i) (hx : x ∈ sourcesOf i.agent i.out i.only) :
    Ships ran x.1 x.2 { i.ctx with host } (S3Uploader.make i.agent.s3.bucket i.agent.s3.pre).pre

variable (ran : Invocation → Prop)

/-- The rows of all documents are uploaded that an invocation has read of its collection by a
stored watermark, and the read came to this one. -/
inductive Backs (uploads : List Put) (ns : String) (stored : Option Watermark) : Watermark → Prop
  | mk {cfg dbName pre groups strategy value at_} {env : Env} {ctx : RunContext} {filter : Filter}
    (hrun : Extracts ran cfg env ctx pre dbName)
    (hns : ns = namespaceOf cfg dbName) (hf : filterFor cfg stored = .ok filter)
    (hput : ⟨mongoKey pre dbName cfg.name ctx.runDt, .parquet groups⟩ ∈ uploads)
    (hrows : RowsOf lib cfg ctx (env.find filter (makeStrategy cfg).sortSpec) groups.flatten)
    (hobs : (makeStrategy cfg).observeAll lib.text
      (env.find filter (makeStrategy cfg).sortSpec) = .ok strategy)
    (hwm : strategy.newWatermark lib.text = .ok (some value)) :
    Backs uploads ns stored ⟨(makeStrategy cfg).kind, value, at_, ctx.runId⟩

/-- The lines are uploaded that an invocation has read of a file, from one offset to another. -/
inductive Reads (uploads : List Put) (source key : String) : ℕ → ℕ → Prop
  | mk {env : Env} {src : LogSourceConfig} {ctx : RunContext} {pre records} {part : Part}
    (hrun : Ships ran src env ctx pre)
    (hname : src.name = source) (hkey : part.plan.key = key)
    (hdrain : drainPlan lib env src part.plan = .ok part.chunks)
    (hput : ⟨logsKey pre source ctx.runDt, .ndjson records⟩ ∈ uploads)
    (hlines : ∀ r ∈ part.records env src ctx, r ∈ records) :
    Reads uploads source key part.plan.startOffset part.endOffset

/-- An offset that a read may go on from: the start of the file, or what is stored. -/
def ResumesAt (store : StateStore) (source key : String) (start : ℕ) : Prop :=
  start = 0 ∨ ∃ fo, (store.fileOffsets source).lookup key = some fo ∧ start = fo.offset

/-- What an agent may do to its ledger: upload first, then commit. -/
def Permits (s : Ledger) : Effect → Prop
  | .put p => Typed p
  | .setWatermark ns wm => Backs lib ran s.uploads ns (s.store.watermarks ns) wm
  | .setOffsets source offsets _ => ∀ fo ∈ offsets, ∃ start,
      ResumesAt s.store source fo.fingerprint start ∧
        Reads lib ran s.uploads source fo.fingerprint start fo.offset
  | .deleteOffset .. => True

def commits : Protocol Ledger Effect := ledgers (fun s => s = ⟨.empty, []⟩) (Permits lib ran)

/-! ### What the protocol guarantees -/

/-- A watermark that an unbroken chain of uploads leads to, from the first read on. -/
inductive Traced (uploads : List Put) (ns : String) : Option Watermark → Prop
  | none : Traced uploads ns none
  | round {stored wm} (h : Traced uploads ns stored) (hback : Backs lib ran uploads ns stored wm) :
    Traced uploads ns (some wm)

/-- An offset that an unbroken chain of uploads leads to, from the start of the file on. -/
inductive Chained (uploads : List Put) (source key : String) : ℕ → Prop
  | zero : Chained uploads source key 0
  | read {start stop} (h : Chained uploads source key start)
    (hread : Reads lib ran uploads source key start stop) : Chained uploads source key stop

/-- Nothing is stored that is not uploaded. -/
structure Backed (s : Ledger) : Prop where
  typed : ∀ p ∈ s.uploads, Typed p
  watermarks : ∀ ns, Traced lib ran s.uploads ns (s.store.watermarks ns)
  offsets : ∀ source key fo, (s.store.fileOffsets source).lookup key = some fo →
    Chained lib ran s.uploads source key fo.offset

variable {lib ran} {s : Ledger} {uploads uploads' : List Put} {ns source key : String}

lemma Backs.mono (hsub : uploads ⊆ uploads') {stored : Option Watermark} {wm : Watermark}
    (h : Backs lib ran uploads ns stored wm) : Backs lib ran uploads' ns stored wm := by
  obtain ⟨hrun, hns, hf, hput, hrows, hobs, hwm⟩ := h
  exact ⟨hrun, hns, hf, hsub hput, hrows, hobs, hwm⟩

lemma Reads.mono (hsub : uploads ⊆ uploads') {start stop : ℕ}
    (h : Reads lib ran uploads source key start stop) :
    Reads lib ran uploads' source key start stop := by
  obtain ⟨hrun, hname, hkey, hdrain, hput, hlines⟩ := h
  exact ⟨hrun, hname, hkey, hdrain, hsub hput, hlines⟩

lemma Traced.mono (hsub : uploads ⊆ uploads') {stored : Option Watermark}
    (h : Traced lib ran uploads ns stored) : Traced lib ran uploads' ns stored := by
  induction h with
  | none => exact .none
  | round _ hback ih => exact .round ih (hback.mono hsub)

lemma Chained.mono (hsub : uploads ⊆ uploads') {stop : ℕ}
    (h : Chained lib ran uploads source key stop) : Chained lib ran uploads' source key stop := by
  induction h with
  | zero => exact .zero
  | read _ hread ih => exact .read ih (hread.mono hsub)

/-- A read that goes on from where it may extends the chain. -/
lemma Backed.chained (hb : Backed lib ran s) {start stop : ℕ}
    (hres : ResumesAt s.store source key start)
    (hread : Reads lib ran s.uploads source key start stop) :
    Chained lib ran s.uploads source key stop := by
  rcases hres with rfl | ⟨fo, hfo, rfl⟩
  · exact .read .zero hread
  · exact .read (hb.offsets _ _ _ hfo) hread

/-- **One effect** that is permitted leaves everything backed. -/
theorem Backed.after (hb : Backed lib ran s) {e : Effect} (h : (commits lib ran).permits s e) :
    Backed lib ran (s.after e) := by
  have hsub : s.uploads ⊆ (s.after e).uploads := List.subset_append_left _ _
  refine ⟨fun p hp => ?_, fun n => ?_, fun source key fo hfo => ?_⟩
  · rcases List.mem_append.mp hp with hp | hp
    · exact hb.typed p hp
    · cases e with
      | put =>
        rw [List.mem_singleton.mp hp]
        exact h
      | _ => cases hp
  · refine Traced.mono hsub ?_
    cases e with
    | setWatermark ns wm =>
      show Traced lib ran s.uploads n (if n = ns then some wm else s.store.watermarks n)
      split_ifs with hn
      · rw [hn]
        exact .round (hb.watermarks ns) h
      · exact hb.watermarks n
    | _ => exact hb.watermarks n
  · refine Chained.mono hsub ?_
    rcases lookup_after hfo with ⟨offsets, t, rfl, fo', hmem, rfl, rfl⟩ | ⟨hold, -⟩
    · obtain ⟨start, hres, hread⟩ := h fo' hmem
      exact hb.chained hres hread
    · exact hb.offsets source key fo hold

/-- **The protocol is safe.** -/
theorem backed_of_reachable (h : (commits lib ran).system.Reachable s) : Backed lib ran s :=
  reachable_invariant (by
    rintro s rfl
    exact ⟨fun p hp => (by cases hp), fun ns => .none, fun source key fo hfo => by cases hfo⟩)
    (fun s e hb he => hb.after he) h

/-! ### The units keep to it -/

/-- A program has kept to the protocol. -/
abbrev Committing (lib : Libs) (ran : Invocation → Prop) : World → World → Prop :=
  Keeping (fun s => s = ⟨.empty, []⟩) (Permits lib ran)

variable {env : Env} {u : S3Uploader} {ctx : RunContext} {w : World}

/-- The rows of a run have its host and its time. -/
lemma rowsOf_stamped {cfg : CollectionConfig} {docs : List Doc} {rows : List Row}
    (h : RowsOf lib cfg ctx docs rows) :
    ∀ row ∈ rows, row.host = ctx.host ∧ row.extractedAt = ctx.runDt := by
  intro row hmem
  obtain ⟨doc, -, hrow⟩ := h.doc_of_row hmem
  exact (docToRow_columns hrow).2

/-- **A collection** keeps to the protocol. -/
lemma committing_extractCollection {cfg : CollectionConfig} {dbName : String}
    (hrun : Extracts ran cfg env ctx u.pre dbName) :
    Within (Committing lib ran) (extractCollection lib env cfg u ctx dbName) := by
  intro w
  refine extractCollection_ensures.mono fun r w' h => ?_
  rcases h with ⟨-, hw⟩ | ⟨filter, j, hf, hw, hex⟩
  · exact keeping_quiet hw
  cases hex with
  | nothing => exact keeping_quiet hw
  | empty => exact keeping_quiet hw
  | uploaded _ hrows => exact ⟨_, hw, fun uploads => ⟨.rows (rowsOf_stamped hrows), trivial⟩⟩
  | committed _ hrows hobs hwm =>
    refine ⟨_, hw, fun uploads => ⟨.rows (rowsOf_stamped hrows), ?_, trivial⟩⟩
    exact .mk hrun rfl hf (List.mem_append_right _ List.mem_cons_self) hrows hobs hwm

lemma chunkRecords_stamped {source : LogSourceConfig} {parts : List Part} :
    ∀ r ∈ recordsOf env source ctx parts, r.host = ctx.host ∧ r.source = source.name := by
  intro r hr
  obtain ⟨part, -, hr⟩ := List.mem_flatMap.mp hr
  obtain ⟨chunk, -, hr⟩ := List.mem_flatMap.mp hr
  obtain ⟨line, -, rfl⟩ := List.mem_map.mp hr
  exact ⟨rfl, rfl⟩

/-- A plan starts at the start of its file, or where the store says. -/
lemma planFor_resumes {store : StateStore} {source : String} {p : Path} {plan : TailPlan}
    (h : planFor lib env (store.fileOffsets source) p = some plan) :
    ResumesAt store source plan.key plan.startOffset := by
  have hresume : ∀ {key : String} {existing : FileOffset} (size : ℕ),
      (store.fileOffsets source).lookup key = some existing →
      ResumesAt store source key (resume existing size) := by
    intro key existing size hlookup
    unfold resume
    split_ifs
    · exact .inl rfl
    · exact .inr ⟨existing, hlookup, rfl⟩
  unfold planFor at h
  obtain ⟨fp, -, h⟩ := Option.bind_eq_some_iff.mp h
  rcases fp with _ | digest <;> simp only at h
  · rcases ho : (store.fileOffsets source).lookup (provisionalKey p) with _ | existing <;>
      simp only [ho] at h
    · obtain rfl := Option.some.inj h
      exact .inl rfl
    · obtain ⟨st, -, h⟩ := Option.bind_eq_some_iff.mp h
      obtain rfl := Option.some.inj h
      exact hresume _ ho
  · rcases ho : (store.fileOffsets source).lookup digest.val with _ | existing <;>
      simp only [ho] at h
    · obtain rfl := Option.some.inj h
      exact .inl rfl
    · obtain ⟨st, -, h⟩ := Option.bind_eq_some_iff.mp h
      obtain rfl := Option.some.inj h
      exact hresume _ ho

/-- Every offset that is committed is the end of a part. -/
lemma mem_offsetsToCommit {parts : List Part} {fo : FileOffset}
    (h : fo ∈ offsetsToCommit env parts) :
    ∃ part ∈ parts, part.plan.key = fo.fingerprint ∧ part.endOffset = fo.offset := by
  obtain ⟨item, hitem, rfl⟩ := List.mem_map.mp h
  obtain ⟨part, hpart, rfl⟩ := List.mem_map.mp (mem_dictOf hitem)
  exact ⟨part, hpart, rfl, rfl⟩

/-- **A log source** keeps to the protocol. -/
lemma committing_shipSource {source : LogSourceConfig} {gcDays : ℤ}
    (hrun : Ships ran source env ctx u.pre) :
    Within (Committing lib ran) (shipSource lib env source u ctx gcDays) := by
  intro w
  refine shipSource_ensures.mono fun r w' h => ?_
  rcases h with hw | ⟨parts, j, hparts, hw, hship⟩
  · exact keeping_quiet hw
  cases hship with
  | nothing => exact keeping_quiet hw
  | uploaded hne => exact ⟨_, hw, fun uploads => ⟨.lines hne chunkRecords_stamped, trivial⟩⟩
  | committed hne _ hdel =>
    refine ⟨_, hw, fun uploads => ⟨.lines hne chunkRecords_stamped, ?_, ?_⟩⟩
    · intro fo hfo
      obtain ⟨part, hpart, hkey, hend⟩ := mem_offsetsToCommit hfo
      obtain ⟨hplans, hdrain⟩ := LogRuns.drainPlans_ok hparts
      have hplan : part.plan ∈ discover lib env source (w.store.fileOffsets source.name) := by
        rw [← hplans]
        exact List.mem_map_of_mem hpart
      obtain ⟨entry, -, hentry⟩ := List.mem_filterMap.mp hplan
      refine ⟨part.plan.startOffset, ?_, ?_⟩
      · rw [← hkey]
        exact planFor_resumes hentry
      · rw [← hend]
        refine .mk hrun rfl hkey (hdrain part hpart) (List.mem_append_right _ List.mem_cons_self) ?_
        exact fun r hr => List.mem_flatMap.mpr ⟨part, hpart, hr⟩
    · refine keeps_of_forall fun e he s => ?_
      obtain ⟨key, rfl, -⟩ := hdel e he
      trivial

/-- **What shipping metrics can do**: nothing that lasts, or an upload of all records. -/
lemma shipMetrics_ensures {records : List MetricRecord} :
    Ensures (shipMetrics lib u ctx env records) w fun r w' =>
      Wrote w w' [] ∧ (∀ res, r = .ok res → res.status = .failed ∨ records = [] ∨ ctx.dryRun) ∨
        records ≠ [] ∧ Wrote w w' [.put ⟨hostmetricsKey u.pre ctx.runDt, .metrics records⟩] := by
  have herr : ∀ e : Exc, ∀ res : UnitResult, Except.error e = .ok res →
      res.status = .failed ∨ records = [] ∨ ctx.dryRun := fun e res h => by cases h
  unfold shipMetrics
  by_cases hne : records = []
  · rw [if_pos hne]
    exact .inl ⟨.nil, fun res _ => .inr (.inl hne)⟩
  rw [if_neg hne]
  simp only [writeMetrics_eq]
  refine ensures_filled (fun e w₁ h₁ => .inl ⟨h₁, herr e⟩) fun result w₁ h₁ hspool => ?_
  simp only [spooledMetrics, List.nil_append] at hspool
  by_cases hdry : ctx.dryRun
  · rw [if_pos hdry, ensures_bind]
    refine (quiet_unlink _ w₁).mono fun r w₂ h₂ => ?_
    rcases r with e | _
    · exact .inl ⟨h₁.trans h₂, herr e⟩
    · exact .inl ⟨h₁.trans h₂, fun _ _ => .inr (.inr hdry)⟩
  rw [if_neg hdry]
  refine Ensures.bind (caughtUpload_ensures hspool) ?_ ?_
  · rintro e w₂ (⟨-, h₂⟩ | h₂)
    · exact .inl ⟨h₁.trans h₂, herr e⟩
    · exact .inr ⟨hne, h₁.trans h₂⟩
  rintro (e | uploaded) w₂ h₂
  · refine Ensures.bind (quiet_abort _ w₂) (fun e w₃ h₃ => ?_) fun _ w₃ h₃ => ?_
    · rcases h₂ with ⟨-, h₂⟩ | h₂
      · exact .inl ⟨h₁.trans (h₂.trans h₃), herr e⟩
      · exact .inr ⟨hne, h₁.trans (h₂.trans h₃)⟩
    · rcases h₂ with ⟨-, h₂⟩ | h₂
      · exact .inl ⟨h₁.trans (h₂.trans h₃), fun res hr => .inl (by cases hr; rfl)⟩
      · exact .inr ⟨hne, h₁.trans (h₂.trans h₃)⟩
  · have hput := h₂.resolve_left fun h => h.1 uploaded rfl
    refine Ensures.bind (quiet_unlink _ w₂) (fun e w₃ h₃ => ?_) fun _ w₃ h₃ => ?_
    · exact .inr ⟨hne, h₁.trans (hput.trans h₃)⟩
    · exact .inr ⟨hne, h₁.trans (hput.trans h₃)⟩

/-- **The metrics of the host** keep to the protocol. -/
lemma committing_shipMetrics {records : List MetricRecord} :
    Within (Committing lib ran) (shipMetrics lib u ctx env records) := by
  intro w
  refine shipMetrics_ensures.mono fun r w' h => ?_
  rcases h with ⟨h, -⟩ | ⟨hne, h⟩
  · exact keeping_quiet h
  · exact ⟨_, h, fun uploads => ⟨.metrics hne, trivial⟩⟩

/-! ### The agent keeps to it -/

/-- What invocations of the agent, on one state store and one bucket, have left, and which they
were. -/
structure Past where
  ledger : Ledger
  ran : List Invocation

/-- Invocations one after the other, from a new state store on. -/
def agentRuns (lib : Libs) : System Past Invocation where
  init s := s = ⟨⟨.empty, []⟩, []⟩
  step s i s' := s' = ⟨⟨replay s.ledger.store (i.journal lib s.ledger.store),
    s.ledger.uploads ++ puts (i.journal lib s.ledger.store)⟩, s.ran ++ [i]⟩

/-- **An invocation** keeps to the protocol, wherever it ends. -/
theorem invocation_keeps {i : Invocation} (hi : ran i) (s : Ledger) :
    (commits lib ran).Keeps s (i.journal lib s.store) :=
  journal_keeps (onWorld_runCycle fun _ =>
    ⟨fun _ hc => committing_extractCollection (.mk hi hc),
      fun _ hx => committing_shipSource (.mk hi hx), committing_shipMetrics⟩) s

/-- **Nothing is committed that is not uploaded**, after any number of invocations of the agent,
with any configurations, that fail or are killed anywhere. -/
theorem agent_crash_safe {s : Past} (h : (agentRuns lib).Reachable s) :
    Backed lib (· ∈ s.ran) s.ledger := by
  -- the protocol is that of all invocations there will have been
  have hreach : ∀ ran : Invocation → Prop, (∀ i ∈ s.ran, ran i) →
      (commits lib ran).system.Reachable s.ledger := by
    refine h.invariant (P := fun s => ∀ ran : Invocation → Prop, (∀ i ∈ s.ran, ran i) →
      (commits lib ran).system.Reachable s.ledger) ?_ ?_
    · rintro s rfl ran -
      exact .init rfl
    · rintro s i s' - ih rfl ran hran
      have hi : ran i := hran i (List.mem_append_right _ (List.mem_singleton_self i))
      have hkeeps := (invocation_keeps hi s.ledger).reachable
        (ih ran fun i hi => hran i (List.mem_append_left _ hi))
      rw [commits, run_ledgers] at hkeeps
      exact hkeeps
  exact backed_of_reachable (hreach _ fun _ hi => hi)

/-- A run over one log file with one line, which is gone after so many effects. -/
def sampleInvocation (lifetime : ℕ) : Invocation where
  env := ExitCodes.calmSurroundings
  ctx := sampleCtx
  agent := DryRun.sampleAgent 30
  out := DryRun.sampleOutside
  only := none
  collection := none
  spoolDir := some none
  lifetime := lifetime

/-- What the sample leaves of what it finds. -/
def sampleAfter (lifetime : ℕ) (s : Past) : Past :=
  ⟨⟨replay s.ledger.store ((sampleInvocation lifetime).journal plainLibs s.ledger.store),
    s.ledger.uploads ++ puts ((sampleInvocation lifetime).journal plainLibs s.ledger.store)⟩,
    s.ran ++ [sampleInvocation lifetime]⟩

def samplePast : Past := sampleAfter 2 (sampleAfter 1 ⟨⟨.empty, []⟩, []⟩)

/-- A run is killed between its upload and its commit; the next one uploads and commits. -/
theorem agent_crash_safe_sample :
    samplePast.ledger.uploads.length = 2 ∧
    ((samplePast.ledger.store.fileOffsets "web").lookup "path:a.log").map (·.offset) = some 2 ∧
    Backed plainLibs (· ∈ [sampleInvocation 1, sampleInvocation 2]) samplePast.ledger := by
  refine ⟨by decide +kernel, by decide +kernel, ?_⟩
  have hfirst : (agentRuns plainLibs).Reachable (sampleAfter 1 ⟨⟨.empty, []⟩, []⟩) :=
    .step (.init rfl) (e := sampleInvocation 1) rfl
  exact agent_crash_safe (hfirst.step (e := sampleInvocation 2) rfl)

end MongoSyncAgent.CrashSafety
