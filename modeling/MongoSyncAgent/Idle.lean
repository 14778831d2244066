import MongoSyncAgent.Delivery

/-!
Sources that are caught up.

Once a run of a source has gone well there is nothing more to read of its files. As long as they
stay as they are, no later run uploads a line of the source again or touches its offsets, whatever
else happens at the site, and however the runs end.
-/

namespace MongoSyncAgent.Idle

open MongoSyncAgent.Py MongoSyncAgent.Config MongoSyncAgent.State MongoSyncAgent.Runtime
open MongoSyncAgent.Outcomes MongoSyncAgent.Sinks MongoSyncAgent.Extract MongoSyncAgent.Sources
open MongoSyncAgent.Keys
open MongoSyncAgent.Ship MongoSyncAgent.Systems MongoSyncAgent.Protocols
open MongoSyncAgent.Protocols.Protocol MongoSyncAgent.Ledgers MongoSyncAgent.UnitKeys
open MongoSyncAgent.WholeCycle MongoSyncAgent.Invocations MongoSyncAgent.LogRuns
open MongoSyncAgent.Lines MongoSyncAgent.Windows MongoSyncAgent.Codecs MongoSyncAgent.LongLines
open MongoSyncAgent.Obligations MongoSyncAgent.EveryUnit MongoSyncAgent.Delivery
open MongoSyncAgent.CrashSafety hiding sampleInvocation
open MongoSyncAgent.Cycle hiding runCycle

/-- Where a poll goes on in a file, it ends. -/
structure AtEnd (source : LogSourceConfig) (data : Codecs.Bytes) (start : ℕ) : Prop where
  boundary : Boundary source.encoding data start
  stuck : ∀ e, ¬ CanRead source.encoding source.maxBytesPerPoll data start e

/-- There is nothing more to read of any file. -/
def CaughtUp (lib : Libs) (source : LogSourceConfig) (fs : FS) (store : StateStore) : Prop :=
  ∀ p node, fs.lookup p = some node → node.regular →
    AtEnd source node.data (startAt lib source store p node)

/-- An effect that delivers lines of the source, or that is on its offsets. -/
def OfSource (name : String) : Effect → Prop
  | .put p => ∃ records, p.content = .ndjson records ∧ ∃ r ∈ records, r.source = name
  | .setOffsets source _ _ | .deleteOffset source _ => source = name
  | .setWatermark .. => False

variable {lib : Libs} {source : LogSourceConfig} {fs : FS} {env : Env} {u : S3Uploader}
  {ctx : RunContext} {gcDays : ℤ} {w w' : World} {store : StateStore} {uploads : List Put}
  {p : Path} {node : Node}

/-! ### How a source is caught up -/

/-- **A run that goes well** has caught up. -/
lemma ship_catches_up {res : UnitResult} (hsup : Supported source.encoding)
    (hsha : Function.Injective lib.sha256) (hd : DistinctPrefixes fs) (hsees : Sees env source fs)
    (hos : ∀ c, env.osError c = false) (hreal : ctx.dryRun = false)
    (hs : Settled lib u.pre source fs ⟨w.store, uploads⟩)
    (h : exec (shipSource lib env source u ctx gcDays) w = (.ok res, w'))
    (hgood : res.status ≠ .failed) :
    ∃ j, Wrote w w' j ∧ CaughtUp lib source fs w'.store := by
  obtain ⟨parts, hparts, hup⟩ := ship_commits hreal h hgood
  obtain ⟨j, hj⟩ : ∃ j, Wrote w w' j := hup.elim (fun h => ⟨_, h.2⟩) fun ⟨_, _, h⟩ => ⟨_, h⟩
  refine ⟨j, hj, fun p node hn hreg => ?_⟩
  obtain ⟨part, hpart, rfl, hof, hstart⟩ := exists_part hsees hos hn hreg hparts
  have hb := (part_paid hsha hd hs hof).boundary
  have hends := (hof.ends hsees hb).2
  have hstuck := reading_stops (part_reading hsees hos hsup hof hb)
  suffices hlast : startAt lib source w'.store part.plan.path node = part.endOffset by
    rw [hlast]
    exact ⟨hends, hstuck⟩
  rcases hup with ⟨hnone, hw⟩ | ⟨deletes, hdel, hw⟩
  · have hstore : w'.store = w.store := hw.store
    rw [hstore, ← hstart, Part.endOffset, chunks_nil hsees hpart hof hb hnone]
    rfl
  · have hown : OwnKey lib fs part.plan.path node := fun q m hm hkey => keyOf_inj hsha hd hm hn hkey
    obtain ⟨fo, hfo, hoff⟩ := committed_end hsees hparts hpart hown hof hdel
    have hlookup : (w'.store.fileOffsets source.name).lookup (keyOf lib part.plan.path node.data) =
        some fo := by
      rw [hw.store, ← hof.key]
      exact hfo
    have hle := hends.1
    rw [startAt, startOf, hlookup, Option.map_some, Option.getD_some, resume, if_neg (by omega)]
    exact hoff

/-! ### What runs do then -/

/-- A plan is for a regular file. -/
lemma discover_regular (hsees : Sees env source fs) {offsets : Offsets} {plan : TailPlan}
    (h : plan ∈ discover lib env source offsets) (hn : fs.lookup plan.path = some node) :
    node.regular := by
  obtain ⟨entry, hentry, hplan⟩ := List.mem_filterMap.mp h
  rw [List.mem_insertionSort] at hentry
  obtain ⟨path, -, hentry⟩ := List.mem_filterMap.mp hentry
  obtain ⟨st, hst, hentry⟩ := Option.bind_eq_some_iff.mp hentry
  split_ifs at hentry with hreg
  obtain rfl := Option.some.inj hentry
  rw [planFor_path hplan] at hn
  obtain rfl := Option.some.inj (hn.symm.trans (hsees.file_some hst))
  exact hreg

/-- **A run of a source that is caught up** leaves nothing behind. -/
lemma caughtUp_quiet (hsup : Supported source.encoding) (hsees : Sees env source fs)
    (h : CaughtUp lib source fs w.store) :
    Ensures (shipSource lib env source u ctx gcDays) w fun _ w' => Wrote w w' [] := by
  refine ensures_shipSource (fun _ _ => .nil) (fun _ _ _ => .nil) fun _ parts hparts => ?_
  have hnone : recordsOf env source ctx parts = [] := by
    refine List.flatMap_eq_nil_iff.mpr fun part hpart => ?_
    obtain ⟨node, hof⟩ := partOf_mem hsees hparts hpart
    have hplan : part.plan ∈ discover lib env source (w.store.fileOffsets source.name) := by
      rw [← (drainPlans_ok hparts).1]
      exact List.mem_map_of_mem hpart
    have hend : AtEnd source node.data part.plan.startOffset := by
      rw [hof.start]
      exact h _ node hof.lookup (discover_regular hsees hplan hof.lookup)
    have hreading := hof.reading hsees hsup hend.boundary
    have hnil : part.chunks = [] := by
      generalize part.chunks = chunks at hreading
      cases hreading with
      | nil => rfl
      | cons hread => exact absurd hread (hend.stuck _)
    rw [Part.records, hnil]
    rfl
  rw [if_pos hnone]
  exact .nil

/-- As long as the source is caught up, nothing is of it. -/
def Resting (lib : Libs) (source : LogSourceConfig) (fs : FS) (w w' : World) : Prop :=
  CaughtUp lib source fs w.store → ∃ j, Wrote w w' j ∧ ∀ e ∈ j, ¬ OfSource source.name e

lemma offsets_of_rest {j : List Effect} (h : ∀ e ∈ j, ¬ OfSource source.name e) :
    (replay store j).fileOffsets source.name = store.fileOffsets source.name := by
  induction j generalizing store with
  | nil => rfl
  | cons e j ih =>
    have he := h e List.mem_cons_self
    rw [replay_cons, ih fun e he => h e (List.mem_cons_of_mem _ he)]
    cases e with
    | setOffsets name => exact if_neg fun hname => he hname.symm
    | deleteOffset name => exact if_neg fun hname => he hname.symm
    | _ => rfl

lemma CaughtUp.congr {store' : StateStore} (h : CaughtUp lib source fs store)
    (hsame : store'.fileOffsets source.name = store.fileOffsets source.name) :
    CaughtUp lib source fs store' := by
  intro p node hn hreg
  rw [startAt, hsame]
  exact h p node hn hreg

instance reflResting : Std.Refl (Resting lib source fs) :=
  ⟨fun _ _ => ⟨[], .nil, by simp⟩⟩

instance transResting : IsTrans World (Resting lib source fs) where
  trans w₁ w₂ w₃ h h' hcaught := by
    obtain ⟨j, hw, hj⟩ := h hcaught
    obtain ⟨k, hw', hk⟩ := h' (hcaught.congr (by rw [hw.store, offsets_of_rest hj]))
    refine ⟨j ++ k, hw.trans hw', fun e he => ?_⟩
    exact (List.mem_append.mp he).elim (hj e) (hk e)

lemma resting_quiet (h : Wrote w w' []) : Resting lib source fs w w' := fun _ => ⟨[], h, by simp⟩

/-- A collection has nothing to do with sources. -/
lemma resting_extractCollection {cfg : CollectionConfig} {dbName : String} :
    Within (Resting lib source fs) (extractCollection lib env cfg u ctx dbName) := by
  intro w
  refine extractCollection_ensures.mono fun r w' h => ?_
  rcases h with ⟨-, hw⟩ | ⟨filter, j, -, hw, hex⟩
  · exact resting_quiet hw
  cases hex with
  | nothing => exact resting_quiet hw
  | empty => exact resting_quiet hw
  | uploaded => exact fun _ => ⟨_, hw, by simp [OfSource]⟩
  | committed => exact fun _ => ⟨_, hw, by simp [OfSource]⟩

lemma resting_shipMetrics {records : List MetricRecord} :
    Within (Resting lib source fs) (shipMetrics lib u ctx env records) := by
  intro w
  refine shipMetrics_ensures.mono fun r w' h => ?_
  rcases h with ⟨hw, -⟩ | ⟨-, hw⟩
  · exact resting_quiet hw
  · exact fun _ => ⟨_, hw, by simp [OfSource]⟩

/-- Another source delivers lines of its own. -/
lemma resting_other {other : LogSourceConfig} (hne : other.name ≠ source.name) :
    Within (Resting lib source fs) (shipSource lib env other u ctx gcDays) := by
  intro w
  refine shipSource_ensures.mono fun r w' h => ?_
  rcases h with hw | ⟨parts, j, -, hw, hship⟩
  · exact resting_quiet hw
  have hput : ¬ OfSource source.name
      (.put ⟨logsKey u.pre other.name ctx.runDt, .ndjson (recordsOf env other ctx parts)⟩) := by
    rintro ⟨records, hcontent, r, hr, hname⟩
    obtain rfl := Content.ndjson.inj hcontent
    exact hne ((chunkRecords_stamped r hr).2.symm.trans hname)
  cases hship with
  | nothing => exact resting_quiet hw
  | uploaded =>
    refine fun _ => ⟨_, hw, fun e he => ?_⟩
    rw [List.mem_singleton.mp he]
    exact hput
  | committed _ _ hdel =>
    refine fun _ => ⟨_, hw, fun e he => ?_⟩
    rcases List.mem_cons.mp he with rfl | he
    · exact hput
    rcases List.mem_cons.mp he with rfl | he
    · exact hne
    · obtain ⟨key, rfl, -⟩ := hdel e he
      exact hne

lemma resting_shipSource (hsup : Supported source.encoding) (hsees : Sees env source fs) :
    Within (Resting lib source fs) (shipSource lib env source u ctx gcDays) := by
  intro w
  by_cases hcaught : CaughtUp lib source fs w.store
  · exact (caughtUp_quiet hsup hsees hcaught).mono fun _ _ hw => resting_quiet hw
  · exact shipSource_ensures.mono fun _ _ _ h => absurd h hcaught

/-! ### What the site comes to -/

variable {a : AgentConfig} {s s' : Site} {i : Invocation}

lemma all_rest (hnames : (a.logs.sources.map (·.name)).Nodup) (hfinds : Finds a s i)
    (hsource : source ∈ a.logs.sources) (hsup : Supported source.encoding) :
    AllWithin (Resting lib source (s.files source.name)) lib ctx a i.out i.only i.collection where
  collections _ _ := resting_extractCollection
  sources x hx := by
    by_cases hname : x.1.name = source.name
    · have heq : x.1 = source :=
        List.inj_on_of_nodup_map hnames (mem_sourcesOf hx) hsource hname
      have hsees := hfinds.files x hx
      rw [heq] at hsees ⊢
      exact resting_shipSource hsup hsees
    · exact resting_other hname
  metrics := resting_shipMetrics

lemma invocation_rests (hnames : (a.logs.sources.map (·.name)).Nodup) (hfinds : Finds a s i)
    (hsource : source ∈ a.logs.sources) (hsup : Supported source.encoding)
    (h : CaughtUp lib source (s.files source.name) s.store) :
    ∀ e ∈ i.journal lib s.store, ¬ OfSource source.name e := by
  obtain rfl := hfinds.agent
  have hall : ∀ host, AllWithin (Resting lib source (s.files source.name)) lib
      { i.ctx with host } i.agent i.out i.only i.collection :=
    fun _ => all_rest hnames hfinds hsource hsup
  have hrun : Within (OnWorld (Resting lib source (s.files source.name)))
      (RunCycle.runCycle i.env lib i.ctx i.agent i.out i.only i.collection) :=
    onWorld_runCycle hall
  obtain ⟨j, hw, hj⟩ := hrun (.start (World.start s.store) i.spoolDir) h
  rw [Invocation.journal_of_wrote hw]
  exact fun e he => hj e (List.mem_of_mem_take he)

/-- The event is not one on the files of the source. -/
def Leaves (name : String) : SiteEvent → Prop
  | .create source .. | .append source .. => source ≠ name
  | _ => True

/-- What the site comes to from a state on, while the files of a source stay as they are. -/
def later (lib : Libs) (a : AgentConfig) (name : String) (s₀ : Site) : System Site SiteEvent where
  init s := s = s₀
  step s e s' := Leaves name e ∧ SiteStep lib a s e s'

/-- The source is as it was, and nothing of it was uploaded. -/
structure Rests (source : LogSourceConfig) (s₀ s : Site) : Prop where
  files : s.files source.name = s₀.files source.name
  offsets : s.store.fileOffsets source.name = s₀.store.fileOffsets source.name
  uploads : ∃ more, s.uploads = s₀.uploads ++ more ∧
    ∀ p ∈ more, ¬ OfSource source.name (.put p)

lemma Rests.put {s₀ : Site} {name : String} (h : Rests source s₀ s) (hne : name ≠ source.name) :
    Rests source s₀ (s.put name p node) := by
  refine ⟨?_, h.offsets, h.uploads⟩
  rw [Site.put, ← h.files]
  exact Function.update_of_ne hne.symm ..

lemma mem_puts {j : List Effect} {o : Put} (h : o ∈ puts j) : .put o ∈ j := by
  obtain ⟨e, he, ho⟩ := List.mem_filterMap.mp h
  cases e with
  | put o' =>
    obtain rfl := Option.some.inj ho
    exact he
  | _ => cases ho

/-- **A source that is caught up rests**, while its files stay as they are. -/
lemma caughtUp_rests {s₀ : Site} (hnames : (a.logs.sources.map (·.name)).Nodup)
    (hsource : source ∈ a.logs.sources) (hsup : Supported source.encoding)
    (hcaught : CaughtUp lib source (s₀.files source.name) s₀.store)
    (h : (later lib a source.name s₀).Reachable s) : Rests source s₀ s := by
  refine h.invariant (P := fun s => Rests source s₀ s) ?_ ?_
  · rintro s rfl
    exact ⟨rfl, rfl, [], (List.append_nil _).symm, by simp⟩
  rintro s e s' _ hrests ⟨hleaves, hstep⟩
  cases hstep with
  | create => exact hrests.put hleaves
  | append => exact hrests.put hleaves
  | @invoke i hfinds =>
    have hnow : CaughtUp lib source (s.files source.name) s.store := by
      rw [hrests.files]
      exact hcaught.congr hrests.offsets
    have hj := invocation_rests hnames hfinds hsource hsup hnow
    obtain ⟨more, hputs, hmore⟩ := hrests.uploads
    refine ⟨hrests.files, (offsets_of_rest hj).trans hrests.offsets,
      more ++ puts (i.journal lib s.store), ?_, ?_⟩
    · rw [← List.append_assoc, ← hputs]
      rfl
    · intro o ho
      exact (List.mem_append.mp ho).elim (hmore o) fun ho => hj _ (mem_puts ho)
  | _ => exact ⟨hrests.files, hrests.offsets, hrests.uploads⟩

/-- **After the exit code 0 a source rests**: while its files stay as they are, no invocation
uploads a line of it or touches its offsets, whatever else happens and however they end. -/
theorem idle_source_rests (hsha : Function.Injective lib.sha256)
    (hnames : (a.logs.sources.map (·.name)).Nodup)
    (h : (sites lib a).Reachable s) (hfinds : Finds a s i) (hreal : i.ctx.dryRun = false)
    (hexits : i.Exits lib s.store 0) {x : LogSourceConfig × Env}
    (hx : x ∈ sourcesOf a i.out i.only) (hsup : Supported x.1.encoding)
    (hos : ∀ c, x.2.osError c = false)
    (hlater : (later lib a x.1.name (s.after (i.journal lib s.store))).Reachable s') :
    Rests x.1 (s.after (i.journal lib s.store)) s' := by
  have hsource := mem_sourcesOf hx
  have hd := site_distinct h x.1.name
  obtain ⟨ctx, w', -, hdry, hall, hjournal⟩ := exits_ran hfinds hexits fun _ =>
    allWithin_both (lines_within hnames hfinds hsha hsource hsup hd)
      (all_rest hnames hfinds hsource hsup)
  obtain ⟨⟨⟨j₁, hw₁, hkeeps⟩, -⟩, hrun, hgood, -, hafter⟩ := hall.sources x hx
  have hsettled := settled_of_keeps (hkeeps s.uploads) (site_settled hnames hsha hsource hsup h)
  rw [← hw₁.store] at hsettled
  obtain ⟨j₂, hw₂, hcaught⟩ := ship_catches_up hsup hsha hd (hfinds.files x hx) hos
    (hdry.trans hreal) hsettled hrun hgood
  obtain ⟨j₃, hw₃, hj₃⟩ := hafter hcaught
  have hwhole := hw₁.trans (hw₂.trans hw₃)
  refine caughtUp_rests hnames hsource hsup ?_ hlater
  have hstore : (s.after (i.journal lib s.store)).store = w'.store := by
    rw [Site.after, hjournal, hwhole.store, hwhole.2]
    rfl
  rw [hstore]
  exact hcaught.congr (by rw [hw₃.store, offsets_of_rest hj₃])

/-- A second invocation uploads the collection and the metrics again, but no line. -/
theorem idle_source_rests_sample :
    (sampleSite.sampleRun 9).uploads.length = 3 ∧
    ((sampleSite.sampleRun 9).sampleRun 9).uploads.length = 5 ∧
    Rests { name := "web", pathGlob := "*.log" } (sampleSite.sampleRun 9)
      ((sampleSite.sampleRun 9).sampleRun 9) := by
  refine ⟨by decide +kernel, by decide +kernel, ?_⟩
  have hagain : SiteStep plainLibs (sampleInvocation 0).agent (sampleSite.sampleRun 9)
      (.invoke (sampleInvocation 9)) ((sampleSite.sampleRun 9).sampleRun 9) :=
    .invoke (sampleSite_finds (sampleSite.sampleRun 9) 9 rfl rfl)
  have hleaves : Leaves "web" (.invoke (sampleInvocation 9)) := trivial
  have hlater : (later plainLibs (sampleInvocation 0).agent "web"
      (sampleSite.sampleRun 9)).Reachable ((sampleSite.sampleRun 9).sampleRun 9) :=
    .step (.init rfl) ⟨hleaves, hagain⟩
  have hexits : (sampleInvocation 9).Exits plainLibs sampleSite.store 0 :=
    ⟨by decide +kernel, by decide +kernel⟩
  have hx : (⟨{ name := "web", pathGlob := "*.log" }, calmEnv sampleFiles sampleNow⟩ :
      LogSourceConfig × Env) ∈ sourcesOf (sampleInvocation 0).agent (sampleInvocation 9).out
        (sampleInvocation 9).only := List.mem_cons_self
  exact idle_source_rests hexBytes_injective sampleAgent_plain.sources
    (.init ⟨rfl, sampleSite_distinct⟩) (sampleSite_finds sampleSite 9 rfl rfl) rfl hexits hx (by decide) (fun _ => rfl) hlater

end MongoSyncAgent.Idle
