import MongoSyncAgent.EveryUnit
import MongoSyncAgent.Failover
import MongoSyncAgent.Obligations

/-!
The agent at a site: collections that are written to, log files that grow, and invocations.

An invocation extracts several collections and ships several sources, over one state store and one
bucket, and may fail or be gone at any point. What it writes under the key of one unit does not
reach the others, so each collection is replicated in rounds and each source is settled, whatever
the others do. One exit code answers for all of them.
-/

namespace MongoSyncAgent.Delivery

open MongoSyncAgent.Py MongoSyncAgent.Bson MongoSyncAgent.Config MongoSyncAgent.State
open MongoSyncAgent.Runtime MongoSyncAgent.Outcomes MongoSyncAgent.Sinks MongoSyncAgent.Watermarks
open MongoSyncAgent.Extract MongoSyncAgent.Sources MongoSyncAgent.Ship MongoSyncAgent.Keys
open MongoSyncAgent.Systems MongoSyncAgent.Protocols MongoSyncAgent.Protocols.Protocol
open MongoSyncAgent.Ledgers MongoSyncAgent.Replication MongoSyncAgent.CollectionRuns
open MongoSyncAgent.UnitKeys MongoSyncAgent.WholeCycle MongoSyncAgent.Invocations
open MongoSyncAgent.LogRuns MongoSyncAgent.GrowingLogs MongoSyncAgent.Lines MongoSyncAgent.Mutable
open MongoSyncAgent.Obligations MongoSyncAgent.EveryUnit MongoSyncAgent.Failover
open MongoSyncAgent.Codecs MongoSyncAgent.CrashSafety
open MongoSyncAgent.Cycle hiding runCycle

structure Site where
  /-- The documents of each collection. -/
  docs : String → List Doc
  /-- The files that the glob of each source matches. -/
  files : String → FS
  store : StateStore
  /-- All uploads, in their order. Of those under one key the bucket has the last. -/
  uploads : List Put

inductive SiteEvent
  | insert (coll : String) (doc : Doc)
  | update (coll : String) (old new : Doc)
  | delete (coll : String) (doc : Doc)
  | create (source : String) (p : Path) (node : Node)
  | append (source : String) (p : Path) (bs : Bytes) (mtime : ℤ)
  | invoke (i : Invocation)

namespace Site

def ledger (s : Site) : Ledger := ⟨s.store, s.uploads⟩

def write (s : Site) (coll : String) (docs : List Doc) : Site :=
  { s with docs := Function.update s.docs coll docs }

def put (s : Site) (source : String) (p : Path) (node : Node) : Site :=
  { s with files := Function.update s.files source ((s.files source).insert p node) }

/-- What a journal leaves. -/
def after (s : Site) (j : List Effect) : Site :=
  { s with store := replay s.store j, uploads := s.uploads ++ puts j }

end Site

variable (lib : Libs) (a : AgentConfig)

/-- An invocation of the agent whose units find what there is. -/
structure Finds (s : Site) (i : Invocation) : Prop where
  agent : i.agent = a
  docs : ∀ c ∈ collectionsOf a i.out i.only i.collection, ReadsAtOnce c.2 (s.docs c.1.name)
  files : ∀ x ∈ sourcesOf a i.out i.only, Sees x.2 x.1 (s.files x.1.name)

inductive SiteStep : Site → SiteEvent → Site → Prop
  | insert {s coll doc} : SiteStep s (.insert coll doc) (s.write coll (doc :: s.docs coll))
  | update {s coll d e old new} (h : s.docs coll = d ++ old :: e) :
    SiteStep s (.update coll old new) (s.write coll (d ++ new :: e))
  | delete {s coll d e doc} (h : s.docs coll = d ++ doc :: e) :
    SiteStep s (.delete coll doc) (s.write coll (d ++ e))
  | create {s source p node} (hp : (s.files source).lookup p = none)
    (hd : DistinctPrefixes ((s.files source).insert p node)) :
    SiteStep s (.create source p node) (s.put source p node)
  | append {s source p node bs mtime} (hp : (s.files source).lookup p = some node)
    (hd : DistinctPrefixes
      ((s.files source).insert p { node with data := node.data ++ bs, mtime })) :
    SiteStep s (.append source p bs mtime)
      (s.put source p { node with data := node.data ++ bs, mtime })
  | invoke {s i} (hfinds : Finds a s i) :
    SiteStep s (.invoke i) (s.after (i.journal lib s.store))

/-- A site at which the agent has not run yet. -/
def sites : System Site SiteEvent where
  init s := s.store = .empty ∧ ∀ source, DistinctPrefixes (s.files source)
  step := SiteStep lib a

/-- No collection and no source is configured twice, and each collection is extracted from its
first document on. -/
structure Plain : Prop where
  collections : (a.collections.map (·.name)).Nodup
  sources : (a.logs.sources.map (·.name)).Nodup
  initial : ∀ cfg ∈ a.collections, cfg.initialWatermark = none

/-- The watermark that is stored for a collection. -/
def Site.stored (s : Site) (cfg : CollectionConfig) : Option Watermark :=
  s.store.watermarks (namespaceOf cfg (databaseOf a))

/-- What is written to a collection of the agent is in time for its watermark. -/
def inTime (s : Site) : SiteEvent → Prop
  | .insert coll doc | .update coll _ doc =>
    ∀ cfg ∈ a.collections, cfg.name = coll → InTime cfg (s.stored a cfg) doc
  | _ => True

/-- What an invocation has delivered of a site, for what it was to do. -/
structure Delivered (i : Invocation) (s s' : Site) : Prop where
  documents : ∀ c ∈ collectionsOf a i.out i.only i.collection, ∀ doc ∈ s.docs c.1.name,
    DocUploaded lib (uploaderOf a).pre (databaseOf a) c.1.name s'.uploads doc
  lines : ∀ x ∈ sourcesOf a i.out i.only, Supported x.1.encoding →
    (∀ c, x.2.osError c = false) → ∀ p node, (s.files x.1.name).lookup p = some node →
      node.regular → Readable x.1 node.data → ∀ line, CompleteLine x.1.encoding node.data line →
        LineUploaded (uploaderOf a).pre x.1.name s'.uploads p line
  metrics : selected i.only "hostmetrics" ∧ a.hostmetrics.enabled → i.out.metrics ≠ [] →
    ⟨hostmetricsKey (uploaderOf a).pre i.ctx.runDt, .metrics i.out.metrics⟩ ∈ s'.uploads

variable {lib a} {s : Site} {i : Invocation} {init : Ledger → Prop}

/-! ### The units of an invocation pay -/

lemma mem_collectionsOf {out : Outside} {only : Option (List String)} {collection : Option String}
    {c : CollectionConfig × Env} (h : c ∈ collectionsOf a out only collection) :
    c.1 ∈ a.collections := by
  unfold collectionsOf at h
  split_ifs at h
  · obtain ⟨d, hd, rfl⟩ := List.mem_map.mp (mem_chosen h)
    exact (List.mem_zipIdx hd).2.2 ▸ List.getElem_mem _
  · cases h

lemma mem_sourcesOf {out : Outside} {only : Option (List String)} {x : LogSourceConfig × Env}
    (h : x ∈ sourcesOf a out only) : x.1 ∈ a.logs.sources := by
  unfold sourcesOf at h
  split_ifs at h
  · obtain ⟨d, hd, rfl⟩ := List.mem_map.mp h
    exact (List.mem_zipIdx hd).2.2 ▸ List.getElem_mem _
  · cases h

lemma name_of_namespace {cfg cfg' : CollectionConfig} {dbName : String}
    (h : namespaceOf cfg dbName = namespaceOf cfg' dbName) : cfg.name = cfg'.name :=
  (String.append_right_inj _).mp h

/-- For one collection: its own extraction pays, and no other unit commits its watermark. -/
lemma docs_within (hplain : Plain a) (hfinds : Finds a s i) {cfg : CollectionConfig}
    (hcfg : cfg ∈ a.collections) {ctx : RunContext} : AllWithin
      (Keeping (fun _ => True)
        (PaysForDocs lib (uploaderOf a).pre (databaseOf a) cfg (s.docs cfg.name)))
      lib ctx a i.out i.only i.collection where
  collections c hc := by
    by_cases hname : c.1.name = cfg.name
    · have heq : c.1 = cfg :=
        List.inj_on_of_nodup_map hplain.collections (mem_collectionsOf hc) hcfg hname
      have hreads := hfinds.docs c hc
      rw [heq] at hreads ⊢
      exact pays_extractCollection hreads
    · refine fun w => (owning_extractCollection w).mono fun _ _ h => pays_of_owning ?_ h
      exact fun heq => hname (name_of_namespace (by simpa using heq))
  sources x hx := fun w => (owning_shipSource w).mono fun _ _ h => pays_of_owning (by simp) h
  metrics := by
    have howning : Within (Owning none) (shipMetrics lib (uploaderOf a) ctx i.out.host
      i.out.metrics) := owning_shipMetrics
    exact fun w => (howning w).mono fun _ _ h => pays_of_owning (by simp) h

/-- For one source: its own shipping pays, and no other unit commits its offsets. -/
lemma lines_within (hnames : (a.logs.sources.map (·.name)).Nodup) (hfinds : Finds a s i)
    (hsha : Function.Injective lib.sha256) {source : LogSourceConfig}
    (hsource : source ∈ a.logs.sources) (hsup : Supported source.encoding)
    (hd : DistinctPrefixes (s.files source.name)) {ctx : RunContext} : AllWithin
      (Keeping (fun _ => True) (PaysForLines lib (uploaderOf a).pre source (s.files source.name)))
      lib ctx a i.out i.only i.collection where
  collections c hc := fun w =>
    (owning_extractCollection w).mono fun _ _ h => paysLines_of_owning (by simp) h
  sources x hx := by
    by_cases hname : x.1.name = source.name
    · have heq : x.1 = source :=
        List.inj_on_of_nodup_map hnames (mem_sourcesOf hx) hsource hname
      have hsees := hfinds.files x hx
      rw [heq] at hsees ⊢
      exact pays_shipSource hsup hsha hd hsees
    · refine fun w => (owning_shipSource w).mono fun _ _ h => paysLines_of_owning ?_ h
      exact fun heq => hname (by simpa using heq)
  metrics := by
    have howning : Within (Owning none) (shipMetrics lib (uploaderOf a) ctx i.out.host
      i.out.metrics) := owning_shipMetrics
    exact fun w => (howning w).mono fun _ _ h => paysLines_of_owning (by simp) h

variable (lib) in
lemma docs_keeps (hplain : Plain a) (hfinds : Finds a s i) {cfg : CollectionConfig}
    (hcfg : cfg ∈ a.collections) : (ledgers (fun _ => True) (PaysForDocs lib (uploaderOf a).pre
      (databaseOf a) cfg (s.docs cfg.name))).Keeps s.ledger (i.journal lib s.store) := by
  obtain rfl := hfinds.agent
  exact journal_keeps (onWorld_runCycle fun host => docs_within hplain hfinds hcfg) s.ledger

variable (lib) in
lemma lines_keeps (hnames : (a.logs.sources.map (·.name)).Nodup) (hfinds : Finds a s i)
    (hsha : Function.Injective lib.sha256) {source : LogSourceConfig}
    (hsource : source ∈ a.logs.sources) (hsup : Supported source.encoding)
    (hd : DistinctPrefixes (s.files source.name)) :
    (ledgers (fun _ => True)
      (PaysForLines lib (uploaderOf a).pre source (s.files source.name))).Keeps
      s.ledger (i.journal lib s.store) := by
  obtain rfl := hfinds.agent
  exact journal_keeps
    (onWorld_runCycle fun host => lines_within hnames hfinds hsha hsource hsup hd) s.ledger

/-! ### Each collection is replicated -/

section Collections

variable {cfg : CollectionConfig}

lemma asks_of_inTime {stored : Option Watermark} {doc : Doc} (hinit : cfg.initialWatermark = none)
    (hdenotes : cfg.mode = .mutable → ∀ wm, stored = some wm → ∃ instant, Denotes wm.value instant)
    (h : InTime cfg stored doc) : Asks cfg stored doc := by
  intro filter hf
  rcases stored with _ | wm
  · rw [filterFor_none hinit] at hf
    obtain rfl := Except.ok.inj hf
    rfl
  unfold InTime at h
  rcases hmode : cfg.mode <;> rw [hmode] at h
  · obtain ⟨o, hid, hlow, ht⟩ := h
    rw [AppendOnly.filterFor_stored hmode] at hf
    obtain ⟨lb, hlb, hf⟩ := bind_ok hf
    obtain rfl := Except.ok.inj hf
    obtain ⟨o', ho', hval⟩ := objectIdBound_ok hlb
    exact AppendOnly.matches_of_seconds hval hlow (ht wm o' rfl ho') hid
  · obtain ⟨field, d, hfield, hdate, ht⟩ := h
    rw [Mutable.filterFor_stored hmode hfield] at hf
    obtain ⟨lb, hlb, hf⟩ := bind_ok hf
    obtain rfl := Except.ok.inj hf
    obtain ⟨instant, hinstant⟩ := hdenotes hmode wm rfl
    refine matches_of_instant ?_ hdate
    rw [timestampBound_denotes hinstant hlb]
    exact ht wm instant rfl hinstant
  · rw [FirstBounds.filterFor_fullRefresh hmode] at hf
    obtain rfl := Except.ok.inj hf
    rfl

lemma site_denotes (hplain : Plain a) (hcfg : cfg ∈ a.collections) (hmode : cfg.mode = .mutable)
    {ok : Site → SiteEvent → Prop} (h : ((sites lib a).restrict ok).Reachable s) :
    ∀ wm, s.stored a cfg = some wm → ∃ instant, Denotes wm.value instant := by
  refine h.invariant (P := fun s => ∀ wm, s.stored a cfg = some wm →
    ∃ instant, Denotes wm.value instant) (fun s hs wm hwm => ?_) fun s e s' _ ih hstep => ?_
  · rw [Site.stored, hs.1] at hwm
    cases hwm
  · cases hstep.2 with
    | invoke hfinds =>
      exact denotes_of_keeps (docs_keeps lib hplain hfinds hcfg) hmode ih
    | _ => exact ih

variable (lib a cfg) in
/-- The replication of a collection that a site is a state of. -/
def replica (s : Site) : Replica Doc where
  source := { doc | doc ∈ s.docs cfg.name }
  delivered := { doc | DocUploaded lib (uploaderOf a).pre (databaseOf a) cfg.name s.uploads doc }
  ahead := { doc | Asks cfg (s.stored a cfg) doc }

/-- A write to one collection leaves the replicas of the others. -/
lemma replica_write_ne {coll : String} {docs : List Doc} (h : cfg.name ≠ coll) :
    replica lib a cfg (s.write coll docs) = replica lib a cfg s := by
  simp only [replica, Site.write, Site.stored, Function.update_of_ne h]

/-- A document is written, and some others are kept. -/
lemma moves_write {docs kept : List Doc} {doc : Doc} (hdocs : ∀ d, d ∈ docs ↔ d = doc ∨ d ∈ kept)
    (hsub : kept ⊆ s.docs cfg.name) (ha : Asks cfg (s.stored a cfg) doc) :
    ∃ e, Moves (replica lib a cfg s) e (replica lib a cfg (s.write cfg.name docs)) := by
  have hsource : { d | d ∈ docs } =
      insert doc ({ d | d ∈ s.docs cfg.name } \ { d | d ∉ kept }) := by
    ext d
    simp only [Set.mem_ofPred_eq, Set.mem_insert_iff, Set.mem_sdiff, not_not, hdocs]
    exact or_congr_right ⟨fun hd => ⟨hsub hd, hd⟩, And.right⟩
  have hmove : Moves (replica lib a cfg s) (.write doc { d | d ∉ kept }) _ := .write ha
  simp only [replica, Site.write, Site.stored, Function.update_self, hsource] at hmove ⊢
  exact ⟨_, hmove⟩

lemma moves_remove {docs : List Doc} (hsub : docs ⊆ s.docs cfg.name) :
    ∃ e, Moves (replica lib a cfg s) e (replica lib a cfg (s.write cfg.name docs)) := by
  have hsource : { d | d ∈ docs } = { d | d ∈ s.docs cfg.name } \ { d | d ∉ docs } := by
    ext d
    simp only [Set.mem_ofPred_eq, Set.mem_sdiff, not_not]
    exact ⟨fun hd => ⟨hsub hd, hd⟩, And.right⟩
  have hmove : Moves (replica lib a cfg s) (.remove { d | d ∉ docs }) _ := .remove
  simp only [replica, Site.write, Site.stored, Function.update_self] at hmove ⊢
  rw [hsource]
  exact ⟨_, hmove⟩

/-- The replica follows a write: one to this collection by a move, any other by none. -/
lemma write_followed {coll : String} {docs : List Doc} (h : cfg.name = coll →
      ∃ e, Moves (replica lib a cfg s) e (replica lib a cfg (s.write cfg.name docs))) :
    ∃ r, (r = replica lib a cfg s ∨ ∃ e, replication.step (replica lib a cfg s) e r) ∧
      r = replica lib a cfg (s.write coll docs) := by
  by_cases hcoll : cfg.name = coll
  · subst hcoll
    exact ⟨_, .inr (h rfl), rfl⟩
  · exact ⟨_, .inl rfl, (replica_write_ne hcoll).symm⟩

/-- **An invocation is a round**, for each collection. -/
lemma moves_invoke (hplain : Plain a) (hcfg : cfg ∈ a.collections) (hfinds : Finds a s i) :
    ∃ e, Moves (replica lib a cfg s) e (replica lib a cfg (s.after (i.journal lib s.store))) := by
  have hpaid := paid_of_keeps (docs_keeps lib hplain hfinds hcfg)
  let r' := replica lib a cfg (s.after (i.journal lib s.store))
  have hgrown : (replica lib a cfg s).delivered ⊆ r'.delivered :=
    fun doc hd => DocUploaded.mono (List.subset_append_left _ _) hd
  have hround : r' = { replica lib a cfg s with
      delivered := (replica lib a cfg s).delivered ∪ r'.delivered, ahead := r'.ahead } := by
    rw [Set.union_eq_right.mpr hgrown]
    rfl
  have hmove : Moves (replica lib a cfg s) (.round r'.delivered r'.ahead) _ := .round <| hpaid.imp
    (fun hstored => congrArg (fun stored => { doc | Asks cfg stored doc }) hstored)
    fun hall doc hd => hall doc hd.1 hd.2
  rw [← hround] at hmove
  exact ⟨_, hmove⟩

/-- **Each collection is replicated in rounds**, whatever the others and the sources do. -/
theorem sites_replicate (hplain : Plain a) (hcfg : cfg ∈ a.collections) :
    ((sites lib a).restrict (inTime a)).Simulation replication
      fun s r => r = replica lib a cfg s where
  init := by
    rintro s ⟨hstore, -⟩
    refine ⟨replica lib a cfg s, fun doc _ => .inr ?_, rfl⟩
    intro filter hf
    rw [Site.stored, hstore] at hf
    obtain rfl := Except.ok.inj ((filterFor_none (hplain.initial cfg hcfg)).symm.trans hf)
    rfl
  step := by
    rintro s e s' r hr rfl ⟨hok, hstep⟩
    have hasks : ∀ {doc}, InTime cfg (s.stored a cfg) doc → Asks cfg (s.stored a cfg) doc :=
      asks_of_inTime (hplain.initial cfg hcfg) fun hmode => site_denotes hplain hcfg hmode hr
    cases hstep with
    | insert =>
      refine write_followed ?_
      rintro rfl
      exact moves_write (by simp) (List.Subset.refl _) (hasks (hok cfg hcfg rfl))
    | @update coll d e old new hdocs =>
      refine write_followed ?_
      rintro rfl
      have hsub : d ++ e ⊆ s.docs cfg.name := by
        rw [hdocs]
        exact (List.sublist_cons_self old e).append_left d |>.subset
      refine moves_write (fun x => ?_) hsub (hasks (hok cfg hcfg rfl))
      simp only [List.mem_append, List.mem_cons]
      tauto
    | @delete coll d e doc hdocs =>
      refine write_followed ?_
      rintro rfl
      refine moves_remove ?_
      rw [hdocs]
      exact (List.sublist_cons_self doc e).append_left d |>.subset
    | create => exact ⟨_, .inl rfl, rfl⟩
    | append => exact ⟨_, .inl rfl, rfl⟩
    | invoke hfinds => exact ⟨_, .inr (moves_invoke hplain hcfg hfinds), rfl⟩

end Collections

/-! ### Each source is settled -/

/-- A file that grows, or a new one, leaves offsets paid for. -/
lemma paidFor_put {source : LogSourceConfig} {fs : FS} {pre key : String} {uploads : List Put}
    {offset : ℕ} {p : Path} {node : Node}
    (h : PaidFor lib pre source fs uploads key offset)
    (hp : ∀ m, fs.lookup p = some m → m.data <+: node.data) :
    PaidFor lib pre source (fs.insert p node) uploads key offset := by
  obtain ⟨q, m, hm, hown, hpaid⟩ := h
  by_cases hq : q = p
  · subst hq
    have hpre := hp m hm
    refine ⟨q, node, AList.lookup_insert _, hown.grow hpre,
      Records.cutAt_mono _ hpre hpaid.boundary, ?_⟩
    rw [Records.take_mono hpre hpaid.boundary.1]
    exact hpaid.lines
  · exact ⟨q, m, by rw [AList.lookup_insert_ne hq, hm], hown, hpaid⟩

lemma site_distinct (h : (sites lib a).Reachable s) (source : String) :
    DistinctPrefixes (s.files source) := by
  refine h.invariant (P := fun s => DistinctPrefixes (s.files source)) ?_
    fun s e s' _ ih hstep => ?_
  · rintro s ⟨-, hd⟩
    exact hd source
  have hput : ∀ {name p node}, DistinctPrefixes ((s.files name).insert p node) →
      DistinctPrefixes ((s.put name p node).files source) := by
    intro name p node hd
    by_cases hname : source = name
    · subst hname
      simpa only [Site.put, Function.update_self] using hd
    · simpa only [Site.put, Function.update_of_ne hname] using ih
  cases hstep with
  | create _ hd => exact hput hd
  | append _ hd => exact hput hd
  | _ => exact ih

/-- **Each source is settled**, whatever the others and the collections do. -/
theorem site_settled (hnames : (a.logs.sources.map (·.name)).Nodup)
    (hsha : Function.Injective lib.sha256)
    {source : LogSourceConfig} (hsource : source ∈ a.logs.sources)
    (hsup : Supported source.encoding) (h : (sites lib a).Reachable s) :
    Settled lib (uploaderOf a).pre source (s.files source.name) s.ledger := by
  refine h.invariant (P := fun s => Settled lib (uploaderOf a).pre source (s.files source.name)
    s.ledger) ?_ fun s e s' hr ih hstep => ?_
  · rintro s ⟨hstore, -⟩ key fo hfo
    rw [Site.ledger, hstore] at hfo
    cases hfo
  have hput : ∀ {name p node}, (∀ m, (s.files name).lookup p = some m → m.data <+: node.data) →
      Settled lib (uploaderOf a).pre source ((s.put name p node).files source.name) s.ledger := by
    intro name p node hp key fo hfo
    by_cases hname : source.name = name
    · subst hname
      simp only [Site.put, Function.update_self]
      exact paidFor_put (ih key fo hfo) hp
    · simp only [Site.put, Function.update_of_ne hname]
      exact ih key fo hfo
  cases hstep with
  | create hp _ => exact hput fun m hm => by rw [hp] at hm; cases hm
  | append hp _ =>
    refine hput fun m hm => ?_
    obtain rfl := Option.some.inj (hp.symm.trans hm)
    exact List.prefix_append _ _
  | invoke hfinds =>
    exact settled_of_keeps
      (lines_keeps lib hnames hfinds hsha hsource hsup (site_distinct hr _)) ih
  | _ => exact ih

/-! ### What an exit code says -/

/-- What an invocation that exits with 0 has done, along any relation of its units. -/
lemma exits_ran {R : World → World → Prop} [Std.Refl R] [IsTrans World R]
    (hfinds : Finds a s i) (hexits : i.Exits lib s.store 0)
    (hR : ∀ host, AllWithin R lib { i.ctx with host } a i.out i.only i.collection) :
    ∃ ctx w', ctx.runDt = i.ctx.runDt ∧ ctx.dryRun = i.ctx.dryRun ∧
      AllRan R lib ctx a i.out i.only i.collection (World.start s.store) w' ∧
      i.journal lib s.store = w'.journal := by
  obtain rfl := hfinds.agent
  have hrun : exec (RunCycle.runCycle i.env lib i.ctx i.agent i.out i.only i.collection)
      (.start (World.start s.store) i.spoolDir) = (.ok 0, _) := Prod.ext hexits.code rfl
  exact ⟨{ i.ctx with host := RunCycle.hostOf i.env i.agent }, _, rfl, rfl,
    allRan_of_exit_zero (hR _) hrun, List.take_of_length_le hexits.lives⟩

/-- A unit that has run, between what it found and what was done afterwards. -/
lemma ran_wrote {permits : Ledger → Effect → Prop} {body : M UnitResult} {w' : World}
    (h : Ran (Keeping init permits) body (World.start s.store) w') :
    ∃ w₁ w₂ res j₁, Wrote (World.start s.store) w₁ j₁ ∧
      (ledgers init permits).Keeps s.ledger j₁ ∧ exec body w₁ = (.ok res, w₂) ∧
      res.status ≠ .failed ∧ ∀ j, Wrote w₁ w₂ j → ∃ j₃, w'.journal = j₁ ++ (j ++ j₃) := by
  obtain ⟨⟨j₁, hw₁, hkeeps⟩, run, good, j₃, hw₃, -⟩ := h
  exact ⟨_, _, _, j₁, hw₁, hkeeps s.uploads, run, good, fun j hj =>
    ⟨j₃, (hw₁.trans (hj.trans hw₃)).2⟩⟩

/-- A document is uploaded, or the watermark that an invocation finds asks for it. -/
lemma delivered_or_asked (hplain : Plain a) (h : ((sites lib a).restrict (inTime a)).Reachable s)
    {cfg : CollectionConfig} (hcfg : cfg ∈ a.collections) {doc : Doc}
    (hdoc : doc ∈ s.docs cfg.name) :
    DocUploaded lib (uploaderOf a).pre (databaseOf a) cfg.name s.uploads doc ∨
      Asks cfg (s.stored a cfg) doc := by
  obtain ⟨r, hr, rfl⟩ := (sites_replicate hplain hcfg).reachable h
  exact covered hr hdoc

section ExitZero

variable (hplain : Plain a) (hfinds : Finds a s i) (hreal : i.ctx.dryRun = false)
  (hexits : i.Exits lib s.store 0)

include hplain hfinds hreal hexits

/-- **After the exit code 0 every document** of a collection is uploaded. -/
lemma documents_delivered (h : ((sites lib a).restrict (inTime a)).Reachable s)
    {c : CollectionConfig × Env} (hc : c ∈ collectionsOf a i.out i.only i.collection) {doc : Doc}
    (hdoc : doc ∈ s.docs c.1.name) : DocUploaded lib (uploaderOf a).pre (databaseOf a) c.1.name
      (s.after (i.journal lib s.store)).uploads doc := by
  have hcfg := mem_collectionsOf hc
  obtain ⟨ctx, w', -, hdry, hall, hjournal⟩ := exits_ran hfinds hexits fun _ =>
    docs_within hplain hfinds hcfg
  obtain ⟨w₁, w₂, res, j₁, hw₁, hkeeps, hrun, hgood, hrest⟩ := ran_wrote (hall.collections c hc)
  obtain ⟨j, hw, hdelivers⟩ := extract_delivers (hfinds.docs c hc) (hdry.trans hreal) hrun hgood
  obtain ⟨j₃, hwhole⟩ := hrest j hw
  have hputs : (s.after (i.journal lib s.store)).uploads =
      s.uploads ++ (puts j₁ ++ (puts j ++ puts j₃)) := by
    rw [Site.after, hjournal, hwhole, puts_append, puts_append]
  rw [hputs]
  rcases delivered_or_asked hplain h hcfg hdoc with hold | hask
  · exact hold.mono (List.subset_append_left _ _)
  -- the watermark is still the one that asks for it, or it was paid for since
  rcases paid_of_keeps hkeeps with hsame | hpaid
  · have hasked : Asks c.1 (w₁.store.watermarks (namespaceOf c.1 (databaseOf a))) doc := by
      rw [hw₁.store]
      exact hsame ▸ hask
    refine (hdelivers doc hdoc hasked).mono fun p hp => ?_
    simp only [List.mem_append]
    exact .inr (.inr (.inl hp))
  · refine (hpaid doc hdoc hask).mono fun p hp => ?_
    simp only [List.mem_append] at hp ⊢
    exact hp.imp_right .inl

/-- **After the exit code 0 every complete line** of a source is uploaded. -/
lemma lines_delivered (hsha : Function.Injective lib.sha256) (h : (sites lib a).Reachable s)
    {x : LogSourceConfig × Env} (hx : x ∈ sourcesOf a i.out i.only)
    (hsup : Supported x.1.encoding) (hos : ∀ c, x.2.osError c = false) {p : Path} {node : Node}
    (hn : (s.files x.1.name).lookup p = some node) (hreg : node.regular)
    (hread : Readable x.1 node.data) {line : String}
    (hline : CompleteLine x.1.encoding node.data line) :
    LineUploaded (uploaderOf a).pre x.1.name (s.after (i.journal lib s.store)).uploads p line := by
  have hsource := mem_sourcesOf hx
  have hd := site_distinct h x.1.name
  obtain ⟨ctx, w', -, hdry, hall, hjournal⟩ := exits_ran hfinds hexits fun _ =>
    lines_within hplain.sources hfinds hsha hsource hsup hd
  obtain ⟨w₁, w₂, res, j₁, hw₁, hkeeps, hrun, hgood, hrest⟩ := ran_wrote (hall.sources x hx)
  obtain ⟨j, hw, hdelivers⟩ := ship_delivers hsup hsha hd (hfinds.files x hx) hos
    (hdry.trans hreal) hrun hgood
  obtain ⟨j₃, hwhole⟩ := hrest j hw
  have hsettled : Settled lib (uploaderOf a).pre x.1 (s.files x.1.name)
      ⟨w₁.store, s.uploads ++ puts j₁⟩ := by
    rw [hw₁.store]
    exact settled_of_keeps hkeeps (site_settled hplain.sources hsha hsource hsup h)
  have hputs : (s.after (i.journal lib s.store)).uploads =
      s.uploads ++ puts j₁ ++ puts j ++ puts j₃ := by
    simp only [Site.after, hjournal, hwhole, puts_append, List.append_assoc]
  rw [hputs]
  exact (hdelivers _ hsettled p node hn hreg hread line hline).mono (List.subset_append_left _ _)

omit hplain in
/-- **After the exit code 0 the metrics** are uploaded. -/
lemma metrics_delivered (hsel : selected i.only "hostmetrics" ∧ a.hostmetrics.enabled)
    (hne : i.out.metrics ≠ []) :
    ⟨hostmetricsKey (uploaderOf a).pre i.ctx.runDt, .metrics i.out.metrics⟩ ∈
      (s.after (i.journal lib s.store)).uploads := by
  obtain rfl := hfinds.agent
  obtain ⟨ctx, w', hdt, hdry, hall, hjournal⟩ := exits_ran hfinds hexits fun _ =>
    ⟨fun _ hc => committing_extractCollection (.mk (rfl : i = i) hc),
      fun _ hx => committing_shipSource (.mk rfl hx), committing_shipMetrics⟩
  obtain ⟨w₁, w₂, res, j₁, -, -, hrun, hgood, hrest⟩ := ran_wrote (hall.metrics hsel)
  obtain ⟨j, hw, hput⟩ := metrics_deliver (hdry.trans hreal) hrun hgood
  obtain ⟨j₃, hwhole⟩ := hrest j hw
  rw [Site.after, hjournal, hwhole, puts_append, puts_append, ← hdt]
  simp only [List.mem_append]
  exact .inr (.inr (.inl (hput hne)))

end ExitZero

/-- **What the exit code 0 delivers**: every document of the collections and every complete line of
the files, however much of it earlier invocations left undone, and the metrics. -/
theorem exit_zero_delivers (hsha : Function.Injective lib.sha256) (hplain : Plain a)
    (h : ((sites lib a).restrict (inTime a)).Reachable s) (hfinds : Finds a s i)
    (hreal : i.ctx.dryRun = false) (hexits : i.Exits lib s.store 0) :
    Delivered lib a i s (s.after (i.journal lib s.store)) where
  documents _ hc _ hdoc := documents_delivered hplain hfinds hreal hexits h hc hdoc
  lines _ hx hsup hos _ _ hn hreg hread _ hline :=
    lines_delivered hplain hfinds hreal hexits hsha h.of_restrict hx hsup hos hn hreg hread hline
  metrics hsel hne := metrics_delivered hfinds hreal hexits hsel hne

def sampleDocs : List Doc := [[("_id", .oid ⟨3000 * 2 ^ 64, by decide⟩)]]

def sampleFiles : FS := AList.singleton "a.log" ⟨[97, 10], 0, true⟩

/-- A collection and a log file, from which nothing has been extracted. -/
def sampleSite : Site := ⟨fun _ => sampleDocs, fun _ => sampleFiles, .empty, []⟩

/-- It is gone after so many effects. -/
def sampleInvocation (lifetime : ℕ) : Invocation where
  env := ExitCodes.calmSurroundings
  ctx := sampleCtx
  agent := { UnitKeys.sampleAgent ["AS_Jobs"] with
    logs := { sources := [{ name := "web", pathGlob := "*.log" }] }
    hostmetrics := { enabled := true } }
  out := { UnitKeys.sampleOutside with
    collection := fun _ => calmReads sampleDocs sampleNow
    source := fun _ => calmEnv sampleFiles sampleNow
    metrics := [⟨[("cpu_pct", "1.5")]⟩] }
  only := none
  collection := none
  spoolDir := some none
  lifetime := lifetime

lemma sampleAgent_plain : Plain (sampleInvocation 0).agent := by
  refine ⟨by decide, by decide, fun cfg hcfg => ?_⟩
  obtain rfl := List.mem_singleton.mp hcfg
  rfl

lemma sampleSite_distinct (source : String) : DistinctPrefixes (sampleSite.files source) :=
  have hfiles : LogInit { name := "web", pathGlob := "*.log" } (oneFile "a.log" [97, 10]) :=
    oneFile_init _ _
  hfiles.distinct

lemma sampleSite_finds (s : Site) (lifetime : ℕ) (hdocs : s.docs = sampleSite.docs)
    (hfiles : s.files = sampleSite.files) :
    Finds (sampleInvocation 0).agent s (sampleInvocation lifetime) where
  agent := rfl
  docs c hc := by
    obtain rfl := List.mem_singleton.mp hc
    rw [hdocs]
    exact calmReads_reads _ _
  files x hx := by
    obtain rfl := List.mem_singleton.mp hx
    rw [hfiles]
    exact calmEnv_sees _ _

def Site.sampleRun (s : Site) (lifetime : ℕ) : Site :=
  s.after ((sampleInvocation lifetime).journal plainLibs s.store)

/-- An invocation is killed between its first upload and the commit, and the next one delivers. -/
theorem exit_zero_delivers_sample :
    (sampleSite.sampleRun 1).uploads.length = 1 ∧
    ((sampleSite.sampleRun 1).sampleRun 9).uploads.length = 4 ∧
    Delivered plainLibs (sampleInvocation 0).agent (sampleInvocation 9) (sampleSite.sampleRun 1)
      ((sampleSite.sampleRun 1).sampleRun 9) := by
  refine ⟨by decide +kernel, by decide +kernel, ?_⟩
  have hok : inTime (sampleInvocation 0).agent sampleSite (.invoke (sampleInvocation 1)) := trivial
  have hkilled : ((sites plainLibs (sampleInvocation 0).agent).restrict
      (inTime (sampleInvocation 0).agent)).Reachable (sampleSite.sampleRun 1) :=
    .step (.init ⟨rfl, sampleSite_distinct⟩) ⟨hok, .invoke (sampleSite_finds _ 1 rfl rfl)⟩
  exact exit_zero_delivers hexBytes_injective sampleAgent_plain hkilled
    (sampleSite_finds _ 9 rfl rfl) rfl ⟨by decide +kernel, by decide +kernel⟩

end MongoSyncAgent.Delivery
