import MongoSyncAgent.DryRun
import MongoSyncAgent.Endings
import MongoSyncAgent.LogRuns
import MongoSyncAgent.WindowSizes

/-!
Polls of a file that does not change, and how far they come.

A poll that goes well commits the end of a drain. So the offset of a file moves as far as the
windows of the drain take it: past every line that fits in a window, and never past one that
does not.
-/

namespace MongoSyncAgent.LongLines

open MongoSyncAgent.Config MongoSyncAgent.State MongoSyncAgent.Runtime MongoSyncAgent.Outcomes
open MongoSyncAgent.Sources MongoSyncAgent.Sinks MongoSyncAgent.Ship MongoSyncAgent.LogRuns
open MongoSyncAgent.Codecs MongoSyncAgent.Tailer MongoSyncAgent.Lines MongoSyncAgent.Records
open MongoSyncAgent.Drain MongoSyncAgent.Windows MongoSyncAgent.WindowSizes MongoSyncAgent.Endings

/-- A poll of the files that reads them all and does not fail. -/
inductive GoodPoll (lib : Libs) (source : LogSourceConfig) (u : S3Uploader) (fs : FS)
    (store : StateStore) : StateStore → Prop
  | mk {env ctx gcDays res w} (sees : Sees env source fs) (os : ∀ c, env.osError c = false)
    (real : ctx.dryRun = false)
    (run : exec (shipSource lib env source u ctx gcDays) (World.start store) = (.ok res, w))
    (good : res.status ≠ .failed) : GoodPoll lib source u fs store w.store

/-- That many of them, one after the other. -/
inductive GoodPolls (lib : Libs) (source : LogSourceConfig) (u : S3Uploader) (fs : FS)
    (store : StateStore) : ℕ → StateStore → Prop
  | zero : GoodPolls lib source u fs store 0 store
  | succ {n s s'} (h : GoodPolls lib source u fs store n s)
    (hpoll : GoodPoll lib source u fs s s') :
    GoodPolls lib source u fs store (n + 1) s'

/-- Where the next poll goes on in a file. -/
def startAt (lib : Libs) (source : LogSourceConfig) (store : StateStore) (p : Path) (node : Node) :
    ℕ :=
  startOf (store.fileOffsets source.name) (keyOf lib p node.data) node.data.length

/-- The file at `p` is the only one with its key. -/
def OwnKey (lib : Libs) (fs : FS) (p : Path) (node : Node) : Prop :=
  ∀ q m, fs.lookup q = some m → keyOf lib q m.data = keyOf lib p node.data → q = p

/-- No line of the file is blank. -/
def NoBlankLines (encoding : String) (data : Bytes) : Prop :=
  ∀ x y, Line encoding data x y → linesBetween encoding data x y ≠ []

/-- A poll that finds a complete line in the file stores an offset past where it started. -/
def Advances (lib : Libs) (source : LogSourceConfig) (u : S3Uploader) (fs : FS)
    (store : StateStore) (p : Path) (node : Node) : Prop :=
  (∃ z, Boundary source.encoding node.data z ∧ startAt lib source store p node < z) →
    ∀ store', GoodPoll lib source u fs store store' →
      ∃ fo, (store'.fileOffsets source.name).lookup (keyOf lib p node.data) = some fo ∧
        startAt lib source store p node < fo.offset

/-- Some number of polls comes to the end of the last complete line. -/
def Finishes (lib : Libs) (source : LogSourceConfig) (u : S3Uploader) (fs : FS)
    (store : StateStore) (p : Path) (node : Node) : Prop :=
  ∃ n, ∀ store', GoodPolls lib source u fs store n store' →
    ∀ z, Boundary source.encoding node.data z → z ≤ startAt lib source store' p node

variable {lib : Libs} {source : LogSourceConfig} {u : S3Uploader} {fs : FS}
  {store store' : StateStore} {p : Path} {node : Node}

/-! ### What a poll stores for a file -/

section Poll

variable {env : Env} {ctx : RunContext} {parts : List Part}

/-- The file has its part in the poll: a drain of it from where the poll goes on. -/
lemma exists_part (hsees : Sees env source fs) (hos : ∀ c, env.osError c = false)
    (hn : fs.lookup p = some node) (hreg : node.regular)
    (hparts : drainPlans lib env source (discover lib env source (store.fileOffsets source.name)) =
      .ok parts) :
    ∃ part ∈ parts, part.plan.path = p ∧
      PartOf lib source env fs (store.fileOffsets source.name) part node ∧
      part.plan.startOffset = startAt lib source store p node := by
  have hplan : planOf lib (store.fileOffsets source.name) p node.data ∈ _ :=
    discover_complete hsees hos hn hreg
  rw [← (drainPlans_ok hparts).1] at hplan
  obtain ⟨part, hpart, heq⟩ := List.mem_map.mp hplan
  have hpath : part.plan.path = p := by
    rw [heq]
    rfl
  obtain ⟨m, hm⟩ := partOf_mem hsees hparts hpart
  have hmn : m = node := by
    have hlookup := hm.lookup
    rw [hpath, hn] at hlookup
    exact (Option.some.inj hlookup).symm
  subst hmn
  refine ⟨part, hpart, hpath, hm, ?_⟩
  rw [hm.start, hpath]
  rfl

/-- The drain of a file that is read without an error. -/
lemma part_reading {part : Part} (hsees : Sees env source fs) (hos : ∀ c, env.osError c = false)
    (hsup : Supported source.encoding)
    (h : PartOf lib source env fs (store.fileOffsets source.name) part node)
    (hb : Boundary source.encoding node.data part.plan.startOffset) :
    Reading source.encoding source.maxBytesPerPoll node.data (fun _ => some node.data)
      part.plan.startOffset part.chunks := by
  have hcontent : (fun o => (env.file (.tail part.plan.path o) part.plan.path).map (·.data)) =
      fun _ => some node.data := by
    funext o
    rw [hsees.file, hos, h.lookup]
    rfl
  have hreading := h.reading hsees hsup hb
  rwa [hcontent] at hreading

/-- A part with a chunk has a record. -/
lemma records_ne_nil {part : Part} (hpart : part ∈ parts)
    (hlines : ∀ c ∈ part.chunks, c.lines ≠ []) (hne : part.chunks ≠ []) :
    recordsOf env source ctx parts ≠ [] := by
  obtain ⟨c, hc⟩ := List.exists_mem_of_ne_nil _ hne
  intro hnil
  have hrecords := List.flatMap_eq_nil_iff.mp hnil part hpart
  have hchunk := List.flatMap_eq_nil_iff.mp hrecords c hc
  exact hlines c hc (List.map_eq_nil_iff.mp hchunk)

/-- After a commit there is a record under the key of every part. -/
lemma committed_some {part : Part} (hpart : part ∈ parts) {deletes : List Effect} {t}
    (hdel : Deletions source.name (currentKeys parts) deletes) :
    ∃ fo, ((replay (store.setOffsets source.name (offsetsToCommit env parts) t)
      deletes).fileOffsets source.name).lookup part.plan.key = some fo := by
  have hmem : part.plan.key ∈ (newOffsets parts).map Prod.fst :=
    Py.dictOf_keys (List.mem_map.mpr ⟨_, List.mem_map_of_mem hpart, rfl⟩)
  obtain ⟨item, hitem, hkey⟩ := List.mem_map.mp hmem
  rw [(lookup_deletions hdel _).2 _ (List.mem_map_of_mem hpart), setOffsets_offsets,
    lookup_upserts]
  rcases hlast : lastFor (offsetsToCommit env parts) part.plan.key with _ | fo
  · exact absurd hkey (lastFor_none hlast _ (List.mem_map_of_mem hitem))
  · exact ⟨_, rfl⟩

/-- What is stored under the key of a file that no other file has. -/
lemma committed_end {part : Part} (hsees : Sees env source fs)
    (hparts : drainPlans lib env source (discover lib env source (store.fileOffsets source.name)) =
      .ok parts)
    (hpart : part ∈ parts) (hown : OwnKey lib fs part.plan.path node)
    (h : PartOf lib source env fs (store.fileOffsets source.name) part node)
    {deletes : List Effect} {t} (hdel : Deletions source.name (currentKeys parts) deletes) :
    ∃ fo, ((replay (store.setOffsets source.name (offsetsToCommit env parts) t)
      deletes).fileOffsets source.name).lookup part.plan.key = some fo ∧
        fo.offset = part.endOffset := by
  obtain ⟨fo, hfo⟩ : ∃ fo, ((replay (store.setOffsets source.name (offsetsToCommit env parts) t)
      deletes).fileOffsets source.name).lookup part.plan.key = some fo := committed_some hpart hdel
  refine ⟨fo, hfo, ?_⟩
  rcases @committed_lookup source store ⟨env, sampleCtx, parts, fun _ => 0⟩ deletes t hdel
    part.plan.key fo hfo with ⟨part', hpart', hkey, hoff⟩ | ⟨hnone, -⟩
  · obtain ⟨m, hm⟩ := partOf_mem hsees hparts hpart'
    have hpath : part'.plan.path = part.plan.path :=
      hown _ m hm.lookup (by rw [← hm.key, hkey, h.key])
    have hlookup := hm.lookup
    rw [hpath, h.lookup] at hlookup
    obtain rfl := Option.some.inj hlookup
    have hplan : part'.plan = part.plan := by rw [hm.plan, h.plan, hpath]
    have hchunks : part'.chunks = part.chunks := by
      have hdrained := hm.drained
      rw [hplan, h.drained] at hdrained
      exact (Except.ok.inj hdrained).symm
    rw [hoff, Part.endOffset, Part.endOffset, hplan, hchunks]
  · exact absurd rfl (hnone part hpart)

end Poll

lemma part_size {part : Part} {env : Env} (hsees : Sees env source fs)
    (hos : ∀ c, env.osError c = false)
    (h : PartOf lib source env fs (store.fileOffsets source.name) part node) :
    source.maxBytesPerPoll ≤ maxLength := by
  by_contra hrefused
  have hcontent : (env.file (.tail part.plan.path part.plan.startOffset) part.plan.path).map
      (·.data) = some node.data := by
    rw [hsees.file, hos, h.lookup]
    rfl
  obtain ⟨text, hloop⟩ := drainLoop_refused lib.codecs
    (fun o => (env.file (.tail part.plan.path o) part.plan.path).map (·.data)) source.encoding
    (not_le.mp hrefused) hcontent
  have hdrained := h.drained
  rw [drainPlan, drainFile, hloop] at hdrained
  cases hdrained

/-- Where a poll goes well, `f.read` takes the window. -/
lemma GoodPoll.size (hn : fs.lookup p = some node) (hreg : node.regular)
    (h : GoodPoll lib source u fs store store') : source.maxBytesPerPoll ≤ maxLength := by
  obtain @⟨env, ctx, gcDays, res, w, hsees, hos, hreal, hrun, hgood⟩ := h
  have hends : Ensures (shipSource lib env source u ctx gcDays) (World.start store) _ :=
    shipSource_store
  unfold Ensures at hends
  rw [hrun, show (World.start store).store = store from rfl] at hends
  obtain ⟨parts, hparts⟩ : ∃ parts, drainPlans lib env source
      (discover lib env source (store.fileOffsets source.name)) = .ok parts := by
    rcases hends with ⟨-, hidle⟩ | ⟨⟨parts, hparts, -⟩, -⟩
    · obtain ⟨parts, hparts, -⟩ :=
        ((hidle res rfl).resolve_left hgood).resolve_left (by simp [hreal])
      exact ⟨parts, hparts⟩
    · exact ⟨parts, hparts⟩
  obtain ⟨part, -, -, hof, -⟩ := exists_part hsees hos hn hreg hparts
  exact part_size hsees hos hof

/-- **What a good poll does to a file**: it reads on from where the last one ended, and stores
where it ends; that is a new record if it has read anything. -/
theorem GoodPoll.reads (hsup : Supported source.encoding) (hn : fs.lookup p = some node)
    (hreg : node.regular) (hown : OwnKey lib fs p node)
    (hb : Boundary source.encoding node.data (startAt lib source store p node))
    (h : GoodPoll lib source u fs store store') :
    ∃ chunks, Reading source.encoding source.maxBytesPerPoll node.data (fun _ => some node.data)
        (startAt lib source store p node) chunks ∧
      startAt lib source store' p node = lastOffset (startAt lib source store p node) chunks ∧
      (chunks ≠ [] → ∃ fo,
        (store'.fileOffsets source.name).lookup (keyOf lib p node.data) = some fo ∧
          fo.offset = lastOffset (startAt lib source store p node) chunks) := by
  obtain @⟨env, ctx, gcDays, res, w, hsees, hos, hreal, hrun, hgood⟩ := h
  have hends : Ensures (shipSource lib env source u ctx gcDays) (World.start store) _ :=
    shipSource_store
  unfold Ensures at hends
  rw [hrun, show (World.start store).store = store from rfl] at hends
  rcases hends with ⟨hstore, hidle⟩ | ⟨⟨parts, hparts, deletes, hdel, hstore⟩, -⟩
  · obtain ⟨parts, hparts, hnone⟩ :=
      ((hidle res rfl).resolve_left hgood).resolve_left (by simp [hreal])
    obtain ⟨part, hpart, -, hof, hstart⟩ := exists_part hsees hos hn hreg hparts
    rw [← hstart] at hb ⊢
    have hnil : part.chunks = [] := by
      by_contra hne
      refine records_ne_nil hpart (fun c hc => ?_) hne hnone
      exact ((drainFile_ends (hof.static hsees) hb hof.drained).2 c hc).1
    refine ⟨part.chunks, part_reading hsees hos hsup hof hb, ?_, fun hne => absurd hnil hne⟩
    show startAt lib source w.store p node = _
    rw [hstore, hnil, hstart]
    rfl
  · obtain ⟨part, hpart, rfl, hof, hstart⟩ := exists_part hsees hos hn hreg hparts
    rw [← hstart] at hb ⊢
    obtain ⟨fo, hfo, hoff⟩ := committed_end hsees hparts hpart hown hof hdel
    have hlookup : (w.store.fileOffsets source.name).lookup (keyOf lib part.plan.path node.data) =
        some fo := by
      rw [show w.store = _ from hstore, ← hof.key]
      exact hfo
    refine ⟨part.chunks, part_reading hsees hos hsup hof hb, ?_, fun _ => ⟨fo, hlookup, hoff⟩⟩
    have hle := (hof.ends hsees hb).2.1
    rw [startAt, startOf, hlookup, Option.map_some, Option.getD_some, resume, if_neg (by omega)]
    exact hoff

/-! ### How far a drain comes -/

section Windows

variable {encoding : String} {maxBytes : ℤ} {data : Bytes} {content : ℕ → Option Bytes}
  {start x y z : ℕ} {chunks : List TailChunk}

lemma NoBlankLines.between (h : NoBlankLines encoding data) (hsup : Supported encoding)
    (hx : Boundary encoding data x) (hz : Boundary encoding data z) (hlt : x < z) :
    linesBetween encoding data x z ≠ [] := by
  obtain ⟨y, hline, hyz⟩ := exists_line hx hz hlt
  intro hnil
  exact h x y hline (linesBetween_nil hsup hx hline.ends hline.lt.le hyz hnil).1

lemma windowStart_boundary (hs : Boundary encoding data start)
    (h : WindowStart encoding data maxBytes start x) : Boundary encoding data x := by
  cases h with
  | start => exact hs
  | next _ hcut => exact hcut.boundary

lemma reading_boundary (h : Reading encoding maxBytes data content start chunks) :
    ∀ c ∈ chunks, Boundary encoding data c.newOffset := by
  induction h with
  | nil => simp
  | cons hread _ _ _ ih => exact List.forall_mem_cons.mpr ⟨hread.boundary, ih⟩

/-- Where every line fits and none is blank, a drain comes to the last boundary. -/
lemma reading_end (hsup : Supported encoding) (hmax : 0 ≤ maxBytes)
    (hsize : maxBytes ≤ maxLength) (hblank : NoBlankLines encoding data)
    (hfit : LinesFit encoding data start maxBytes)
    (h : Reading encoding maxBytes data (fun _ => some data) start chunks)
    (hs : Boundary encoding data start) (hz : Boundary encoding data z) :
    z ≤ lastOffset start chunks := by
  have hno : NoBlankWindow encoding data start maxBytes := by
    intro x y hx hcut hnil
    exact absurd hnil (hblank.between hsup (windowStart_boundary hs hx) hcut.boundary hcut.lt)
  have hsilent := (silent_iff hsup hmax hsize hfit h hs).mpr hno
  by_contra hlt
  have hend := lastOffset_boundary hs (reading_boundary h)
  exact hblank.between hsup hend hz (by omega) (hsilent z hz)

/-- A drain never passes a line that is longer than its window. -/
lemma reading_stuck (hmax : 0 ≤ maxBytes) (hline : Line encoding data x y)
    (hlong : (x : ℤ) + maxBytes < y) (h : Reading encoding maxBytes data content start chunks)
    (hle : start ≤ x) : lastOffset start chunks ≤ x := by
  induction h with
  | nil => exact hle
  | @cons s chunk rest hread _ _ _ ih =>
    refine ih ?_
    rcases hline.next _ hread.boundary with hbefore | hafter
    · exact hbefore
    · have hwin := hread.inWindow
      unfold InWindow at hwin
      omega

end Windows

/-! ### Polls -/

lemma drainPlans_total {env : Env} (hsup : Supported source.encoding)
    (hmax : ReadSize source.maxBytesPerPoll) (plans : List TailPlan) :
    ∃ parts, drainPlans lib env source plans = .ok parts := by
  induction plans with
  | nil => exact ⟨[], rfl⟩
  | cons plan plans ih =>
    obtain ⟨chunks, hchunks⟩ : ∃ chunks, drainPlan lib env source plan = .ok chunks :=
      drainFile_ok lib.codecs hsup hmax _ _
    obtain ⟨parts, hparts⟩ := ih
    exact ⟨⟨plan, chunks⟩ :: parts, by rw [drainPlans, hchunks, hparts]; rfl⟩

/-- Any store can be followed by a good poll, if `f.read` takes the window. -/
lemma exists_goodPoll (hsup : Supported source.encoding) (hmax : ReadSize source.maxBytesPerPoll)
    (u : S3Uploader) (fs : FS) (store : StateStore) :
    ∃ store', GoodPoll lib source u fs store store' := by
  have hunkilled : Exceptions.Unkilled (calmEnv fs sampleNow) := fun _ _ h => by cases h
  have hdelivers : DryRun.Delivers (calmEnv fs sampleNow) :=
    ⟨fun _ => rfl, fun _ => rfl, fun _ => rfl, fun _ => rfl, fun _ => rfl, fun _ => rfl,
      fun _ _ => rfl⟩
  have hreports : Ensures (shipSource lib (calmEnv fs sampleNow) source u sampleCtx 14)
      (World.start store) _ := DryRun.shipSource_reports hunkilled (.inr hdelivers)
  obtain ⟨parts, hparts⟩ := @drainPlans_total lib source (calmEnv fs sampleNow) hsup hmax
    (discover lib (calmEnv fs sampleNow) source (store.fileOffsets source.name))
  have hship : DryRun.toShip lib (calmEnv fs sampleNow) source sampleCtx
      ((World.start store).store.fileOffsets source.name) =
        some (recordsOf (calmEnv fs sampleNow) source sampleCtx parts) := by
    show Option.map _ (drainPlans lib _ source (discover lib _ source
      (store.fileOffsets source.name))).toOption = _
    rw [hparts]
    rfl
  have hdone : (DryRun.spools (calmEnv fs sampleNow)
      (spoolPath sampleCtx.spoolDir source.name "jsonl.gz") &&
        (sampleCtx.dryRun || DryRun.collects (calmEnv fs sampleNow) source.name 14)) = true := by
    have hcutoff : (days 14 >>= fun delta => sampleNow.sub delta).toOption.isSome = true := by
      decide +kernel
    simpa [DryRun.spools, DryRun.collects, calmEnv] using .inr hcutoff
  rw [hship, hdone] at hreports
  have hreport : (DryRun.shipReport source.name true
      (some (recordsOf (calmEnv fs sampleNow) source sampleCtx parts))).2.1 ≠ .failed := by
    rcases recordsOf (calmEnv fs sampleNow) source sampleCtx parts with _ | ⟨record, records⟩
    · exact fun h => by cases h
    · exact fun h => by cases h
  unfold Ensures at hreports
  rcases hrun : exec (shipSource lib (calmEnv fs sampleNow) source u sampleCtx 14)
    (World.start store) with ⟨e | res, w⟩
  · rw [hrun] at hreports
    exact absurd (congrArg (·.2.1) hreports.2) hreport
  · rw [hrun] at hreports
    have hlisted : DryRun.listed res = _ := hreports
    refine ⟨w.store, .mk (calmEnv_sees fs sampleNow) (fun _ => rfl) rfl hrun ?_⟩
    rw [← hlisted] at hreport
    exact hreport

lemma exists_goodPolls (hsup : Supported source.encoding) (hmax : ReadSize source.maxBytesPerPoll)
    (u : S3Uploader) (fs : FS) (store : StateStore) (n : ℕ) :
    ∃ store', GoodPolls lib source u fs store n store' := by
  induction n with
  | zero => exact ⟨store, .zero⟩
  | succ n ih =>
    obtain ⟨s, hs⟩ := ih
    obtain ⟨s', hs'⟩ := @exists_goodPoll lib source hsup hmax u fs s
    exact ⟨s', .succ hs hs'⟩

section File

variable (hsup : Supported source.encoding) (hn : fs.lookup p = some node) (hreg : node.regular)
  (hown : OwnKey lib fs p node)
include hsup hn hreg hown

lemma GoodPolls.boundary {n : ℕ}
    (hb : Boundary source.encoding node.data (startAt lib source store p node))
    (h : GoodPolls lib source u fs store n store') :
    Boundary source.encoding node.data (startAt lib source store' p node) := by
  induction h with
  | zero => exact hb
  | succ _ hpoll ih =>
    obtain ⟨chunks, hreading, hend, -⟩ := hpoll.reads hsup hn hreg hown ih
    rw [hend]
    exact lastOffset_boundary ih (reading_boundary hreading)

/-- No number of polls gets past a line that is longer than a window. -/
lemma GoodPolls.stuck {n x y : ℕ} (hmax : 0 ≤ source.maxBytesPerPoll)
    (hb : Boundary source.encoding node.data (startAt lib source store p node))
    (hline : Line source.encoding node.data x y) (hlong : (x : ℤ) + source.maxBytesPerPoll < y)
    (hle : startAt lib source store p node ≤ x) (h : GoodPolls lib source u fs store n store') :
    startAt lib source store' p node ≤ x := by
  induction h with
  | zero => exact hle
  | succ hpolls hpoll ih =>
    have hb' := GoodPolls.boundary hsup hn hreg hown hb hpolls
    obtain ⟨chunks, hreading, hend, -⟩ := hpoll.reads hsup hn hreg hown hb'
    rw [hend]
    exact reading_stuck hmax hline hlong hreading ih

/-- **When no line wedges a file**: every poll that finds a complete line advances the offset, and
polling comes to the end of the last complete line, exactly if every line fits in a window. With a
window that `f.read` refuses there is no poll to speak of. -/
theorem no_wedge_iff (u : S3Uploader) (store : StateStore) (hmax : 0 < source.maxBytesPerPoll)
    (hblank : NoBlankLines source.encoding node.data)
    (hb : Boundary source.encoding node.data (startAt lib source store p node)) :
    Advances lib source u fs store p node ∧ Finishes lib source u fs store p node ↔
      LinesFit source.encoding node.data (startAt lib source store p node)
        source.maxBytesPerPoll ∨ maxLength < source.maxBytesPerPoll := by
  constructor
  · rintro ⟨-, n, hn'⟩
    by_contra hno
    obtain ⟨hno, hsize⟩ := not_or.mp hno
    refine hno fun x y hle hline => ?_
    by_contra hlong
    obtain ⟨store', hpolls⟩ :=
      @exists_goodPolls lib source hsup ⟨by omega, not_lt.mp hsize⟩ u fs store n
    have hstuck := GoodPolls.stuck hsup hn hreg hown hmax.le hb hline (by omega) hle hpolls
    have := hn' store' hpolls y hline.ends
    have := hline.lt
    omega
  · intro hfits
    have hreach : ∀ {store' chunks}, GoodPoll lib source u fs store store' →
        Reading source.encoding source.maxBytesPerPoll node.data (fun _ => some node.data)
          (startAt lib source store p node) chunks →
        ∀ z, Boundary source.encoding node.data z →
          z ≤ lastOffset (startAt lib source store p node) chunks := by
      intro store' chunks hpoll hreading z hz
      have hsize := hpoll.size hn hreg
      have hfit := hfits.resolve_right (not_lt.mpr hsize)
      exact reading_end hsup hmax.le hsize hblank hfit hreading hb hz
    refine ⟨fun ⟨z, hz, hlt⟩ store' hpoll => ?_, 1, fun store' hpolls z hz => ?_⟩
    · obtain ⟨chunks, hreading, -, hstored⟩ := hpoll.reads hsup hn hreg hown hb
      have hend := hreach hpoll hreading z hz
      obtain ⟨fo, hfo, hoff⟩ := hstored (by
        rintro rfl
        exact absurd hend (Nat.not_le.mpr hlt))
      exact ⟨fo, hfo, by omega⟩
    · cases hpolls with
      | succ hzero hpoll =>
        cases hzero
        obtain ⟨chunks, hreading, hend, -⟩ := hpoll.reads hsup hn hreg hown hb
        rw [hend]
        exact hreach hpoll hreading z hz

end File

/-! ### A line of seven bytes and a window of four -/

/-- `abcdef\n`. -/
def longLine : Bytes := [0x61, 0x62, 0x63, 0x64, 0x65, 0x66, 0x0A]

def longFile : FS := (oneFile "a.log" longLine).fs

def smallWindow : LogSourceConfig := { sampleSource with maxBytesPerPoll := 4 }

lemma longLine_boundaries {n : ℕ} (h : Boundary "utf-8" longLine n) : n = 0 ∨ n = 7 := by
  have hall : ∀ m ≤ 7, Boundary "utf-8" longLine m → m = 0 ∨ m = 7 := by decide +kernel
  exact hall n h.1 h

lemma longLine_notBlank : NoBlankLines "utf-8" longLine := by
  intro x y h
  have hlt := h.lt
  rcases longLine_boundaries h.starts with rfl | rfl <;>
    rcases longLine_boundaries h.ends with rfl | rfl <;> try omega
  decide +kernel

lemma longFile_own : OwnKey plainLibs longFile "a.log" ⟨longLine, 0, true⟩ :=
  fun _ _ hq _ => (oneFile_lookup hq).1

/-- With a window of seven bytes the file is read to its end. -/
theorem no_wedge_longLine :
    Advances plainLibs { sampleSource with maxBytesPerPoll := 7 } sampleUploader longFile .empty
      "a.log" ⟨longLine, 0, true⟩ ∧
    Finishes plainLibs { sampleSource with maxBytesPerPoll := 7 } sampleUploader longFile .empty
      "a.log" ⟨longLine, 0, true⟩ := by
  have hfit : LinesFit "utf-8" longLine 0 7 := by
    intro x y _ h
    have := h.ends.1
    have : longLine.length = 7 := rfl
    omega
  exact (@no_wedge_iff plainLibs { sampleSource with maxBytesPerPoll := 7 } longFile "a.log"
    ⟨longLine, 0, true⟩ (by decide) (AList.lookup_insert _) rfl longFile_own sampleUploader .empty
    (by decide) longLine_notBlank (cutAt_zero _ _)).mpr (.inl hfit)

/-- With one of four bytes a poll goes well, finds no line, and leaves the file where it was. -/
theorem long_line_wedges : Boundary "utf-8" longLine 7 ∧ NoBlankLines "utf-8" longLine ∧
    startAt plainLibs smallWindow .empty "a.log" ⟨longLine, 0, true⟩ = 0 ∧
    (∃ store', GoodPoll plainLibs smallWindow sampleUploader longFile .empty store' ∧
      (store'.fileOffsets "web").lookup "path:a.log" = none) ∧
    ¬ Advances plainLibs smallWindow sampleUploader longFile .empty "a.log"
      ⟨longLine, 0, true⟩ := by
  have hstatus : (exec (shipSource plainLibs (calmEnv longFile sampleNow) smallWindow
      sampleUploader sampleCtx 14) (World.start .empty)).1.toOption.map (·.status) =
        some .empty := by decide +kernel
  have hstored : ((exec (shipSource plainLibs (calmEnv longFile sampleNow) smallWindow
      sampleUploader sampleCtx 14) (World.start .empty)).2.store.fileOffsets "web").lookup
        "path:a.log" = none := by decide +kernel
  have hend : Boundary "utf-8" longLine 7 := by decide +kernel
  rcases hrun : exec (shipSource plainLibs (calmEnv longFile sampleNow) smallWindow sampleUploader
    sampleCtx 14) (World.start .empty) with ⟨e | res, w⟩
  · rw [hrun] at hstatus
    cases hstatus
  rw [hrun] at hstatus hstored
  have hempty : res.status = .empty := Option.some.inj hstatus
  have hpoll : GoodPoll plainLibs smallWindow sampleUploader longFile .empty w.store :=
    .mk (calmEnv_sees _ _) (fun _ => rfl) rfl hrun (by simp [hempty])
  refine ⟨hend, longLine_notBlank, rfl, ⟨_, hpoll, hstored⟩, fun hadvances => ?_⟩
  obtain ⟨fo, hfo, -⟩ := hadvances ⟨7, hend, by decide⟩ _ hpoll
  have hnone : (w.store.fileOffsets "web").lookup "path:a.log" = some fo := hfo
  rw [hstored] at hnone
  cases hnone

end MongoSyncAgent.LongLines
