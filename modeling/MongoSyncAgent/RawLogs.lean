import MongoSyncAgent.GrowingLogs
import MongoSyncAgent.Pipes

/-!
From the files of a log source to `RAW_LOGS`: what runs of the source upload, and what the pipe of
the source makes of it.

The bucket also has what other units upload. The pipe copies none of that, and none of it replaces
an object of the source.
-/

namespace MongoSyncAgent.RawLogs

open MongoSyncAgent.Config MongoSyncAgent.State MongoSyncAgent.Runtime MongoSyncAgent.Sinks
open MongoSyncAgent.Sources MongoSyncAgent.Ship MongoSyncAgent.LogRuns MongoSyncAgent.Systems
open MongoSyncAgent.Timestamps MongoSyncAgent.Keys MongoSyncAgent.UploadKeys MongoSyncAgent.Lines
open MongoSyncAgent.GrowingLogs MongoSyncAgent.Pipes MongoSyncAgent.JsonText MongoSyncAgent.Records
open MongoSyncAgent.IsoFormat

/-- Files stay at their paths, and each run is in a later second than those before. -/
def onTheClock (s : LogState) : LogEvent → Prop
  | .rotate .. => False
  | .ship env ctx _ => (∀ c, Zoned (env.clock c)) ∧
      ∀ sh ∈ s.shipped, sh.ctx.runDt.wall / 1000000 < ctx.runDt.wall / 1000000
  | _ => True

/-- The key is one of another unit than the source. -/
def OfAnother (u : S3Uploader) (source : LogSourceConfig) (p : Put) : Prop :=
  ∃ x runDt, NoSlash x ∧ x ≠ .logs source.name ∧ p.key = x.key u.pre runDt

/-- The table has all lines before the stored offsets, and complete lines only. -/
structure Landed (lib : Libs) (source : LogSourceConfig) (s : LogState) (table : List RawLog) :
    Prop where
  complete : ∀ p node fo, s.fs.lookup p = some node →
    (s.store.fileOffsets source.name).lookup (keyOf lib p node.data) = some fo →
    ∀ line ∈ nonBlankLines source.encoding (node.data.take fo.offset), ∃ row ∈ table,
      row.line = some line ∧ row.source = some source.name ∧ row.file = some (pathName p)
  sound : ∀ row ∈ table, row.source = some source.name ∧ ∃ p node line,
    s.fs.lookup p = some node ∧ row.file = some (pathName p) ∧ row.line = some line ∧
      CompleteLine source.encoding node.data line

variable {lib : Libs} {source : LogSourceConfig} {u : S3Uploader} {s : LogState}

/-! ### The objects of the source -/

/-- The uploads are in ascending seconds, and their clocks have zones. -/
structure ClockInv (source : LogSourceConfig) (u : S3Uploader) (s : LogState) : Prop where
  bucket : s.bucket = s.shipped.map (Shipment.put source u)
  ascending : s.shipped.Pairwise fun sh sh' =>
    sh.ctx.runDt.wall / 1000000 < sh'.ctx.runDt.wall / 1000000
  zoned : ∀ sh ∈ s.shipped, ∀ c, Zoned (sh.env.clock c)

lemma clockInv (h : ((logRuns lib source u).restrict onTheClock).Reachable s) :
    ClockInv source u s := by
  refine h.invariant (fun s hs => ?_) fun s e s' _ ih hstep => ?_
  · constructor <;> simp [hs.bucket, hs.shipped]
  obtain ⟨hok, hstep⟩ := hstep
  cases hstep with
  | append => exact ⟨ih.bucket, ih.ascending, ih.zoned⟩
  | rotate => exact hok.elim
  | gc => exact ⟨ih.bucket, ih.ascending, ih.zoned⟩
  | @ship env ctx gcDays hs =>
    obtain ⟨hzoned, hlater⟩ := hok
    have hnew : ∀ {s' : LogState},
        s'.bucket = s.bucket ++ [(s.shipment lib source env ctx).put source u] →
        s'.shipped = s.shipped ++ [s.shipment lib source env ctx] → ClockInv source u s' := by
      intro s' hbucket hshipped
      constructor
      · rw [hbucket, hshipped, ih.bucket, List.map_append, List.map_singleton]
      · rw [hshipped, List.pairwise_append]
        refine ⟨ih.ascending, List.pairwise_singleton _ _, fun sh hsh sh' hsh' => ?_⟩
        rw [List.mem_singleton.mp hsh']
        exact hlater sh hsh
      · rw [hshipped]
        intro sh hsh
        rcases List.mem_append.mp hsh with hsh | hsh
        · exact ih.zoned sh hsh
        · rw [List.mem_singleton.mp hsh]
          exact hzoned
    rcases ship_cases (u := u) s env ctx gcDays with heq | ⟨-, hship⟩
    · rwa [heq]
    generalize s.ship lib source u env ctx gcDays = s' at hship
    cases hship with
    | nothing => exact ih
    | uploaded => exact hnew rfl rfl
    | committed => exact hnew rfl rfl

/-- **No object of the source is replaced**, by a later run or by another unit. -/
lemma keys_distinct (h : ClockInv source u s) : (s.bucket.map Put.key).Nodup := by
  rw [h.bucket, List.map_map]
  refine List.pairwise_map.mpr (h.ascending.imp fun hlt heq => ?_)
  have hkey : (Upload.logs source.name).key u.pre _ = (Upload.logs source.name).key u.pre _ := heq
  rw [key_eq, key_eq] at hkey
  have := (body_injective ((String.append_right_inj _).mp hkey)).2
  omega

lemma others_apart {q : Put} (hq : OfAnother u source q)
    (hbucket : s.bucket = s.shipped.map (Shipment.put source u)) :
    q.key ∉ s.bucket.map Put.key := by
  obtain ⟨x, runDt, -, hne, hkey⟩ := hq
  rw [hbucket, List.map_map]
  intro hmem
  obtain ⟨sh, -, heq⟩ := List.mem_map.mp hmem
  have hsame : (Upload.logs source.name).key u.pre sh.ctx.runDt = x.key u.pre runDt :=
    heq.trans hkey
  rw [key_eq, key_eq] at hsame
  exact hne (body_injective ((String.append_right_inj _).mp hsame)).1.symm

/-- What the pipe finds on the stage are the objects of the source. -/
lemma piped (hname : NoSlash (.logs source.name)) (h : ClockInv source u s)
    {stage others : List Put} (hstage : stage.Perm (s.bucket ++ others))
    (hothers : ∀ q ∈ others, OfAnother u source q) :
    (stage.filter fun p => Under u.pre (.logs source.name) p.key).Perm s.bucket := by
  have hmine : (s.bucket.filter fun p => Under u.pre (.logs source.name) p.key) = s.bucket := by
    rw [List.filter_eq_self]
    intro p hp
    rw [h.bucket] at hp
    obtain ⟨sh, -, rfl⟩ := List.mem_map.mp hp
    have hkey : (sh.put source u).key = (Upload.logs source.name).key u.pre sh.ctx.runDt := rfl
    rw [decide_eq_true_eq, hkey, under_iff hname hname]
  have hnone : (others.filter fun p => Under u.pre (.logs source.name) p.key) = [] := by
    rw [List.filter_eq_nil_iff]
    intro q hq
    obtain ⟨x, runDt, hx, hne, hkey⟩ := hothers q hq
    rw [decide_eq_true_eq, hkey, under_iff hx hname]
    exact hne
  have hfilter := hstage.filter fun p => decide (Under u.pre (.logs source.name) p.key)
  rwa [List.filter_append, hmine, hnone, List.append_nil] at hfilter

/-! ### The rows -/

lemma mapM_some {α β : Type} {f : α → Option β} {g : α → β} {l : List α}
    (h : ∀ a ∈ l, f a = some (g a)) : l.mapM f = some (l.map g) := by
  induction l with
  | nil => rfl
  | cons a l ih =>
    rw [List.mapM_cons, h a List.mem_cons_self, ih fun b hb => h b (List.mem_cons_of_mem _ hb)]
    rfl

/-- The records of an upload are those of its parts, under the source and the file of the part. -/
lemma mem_recordsOf {sh : Shipment} {r : LogRecord} :
    r ∈ recordsOf sh.env source sh.ctx sh.parts ↔
      ∃ part ∈ sh.parts, r ∈ part.records sh.env source sh.ctx := List.mem_flatMap

/-- The pipe reads every object of the source, and its table has the records of all of them. -/
lemma copyInto_rows (h : ClockInv source u s) (newline : Newline) {stage : List Put}
    (hstage : (stage.filter fun p => Under u.pre (.logs source.name) p.key).Perm s.bucket) :
    ∃ table, copyInto newline u.pre (.logs source.name) stage = some table ∧
      ∀ row, row ∈ table ↔ ∃ sh ∈ s.shipped, ∃ r ∈ recordsOf sh.env source sh.ctx sh.parts,
        row = rowOf r := by
  let rows : Put → List RawLog := fun p => (spooled (some p.content)).map rowOf
  have hcopy : ∀ p ∈ stage.filter fun p => Under u.pre (.logs source.name) p.key,
      copyFile newline p.content = some (rows p) := by
    intro p hp
    have hmem := hstage.mem_iff.mp hp
    rw [h.bucket] at hmem
    obtain ⟨sh, hsh, rfl⟩ := List.mem_map.mp hmem
    refine copyFile_ndjson newline fun r hr => ?_
    obtain ⟨part, -, hr⟩ := mem_recordsOf.mp hr
    obtain ⟨-, -, -, c, hc⟩ := mem_records hr
    rw [hc]
    exact h.zoned sh hsh c
  refine ⟨((stage.filter fun p => Under u.pre (.logs source.name) p.key).map rows).flatten, ?_,
    fun row => ?_⟩
  · unfold copyInto
    rw [mapM_some hcopy]
    rfl
  · simp only [List.mem_flatten, List.mem_map, exists_exists_and_eq_and]
    constructor
    · rintro ⟨p, hp, hrow⟩
      have hmem := hstage.mem_iff.mp hp
      rw [h.bucket] at hmem
      obtain ⟨sh, hsh, rfl⟩ := List.mem_map.mp hmem
      obtain ⟨r, hr, rfl⟩ := List.mem_map.mp hrow
      exact ⟨sh, hsh, r, hr, rfl⟩
    · rintro ⟨sh, hsh, r, hr, rfl⟩
      refine ⟨sh.put source u, hstage.mem_iff.mpr ?_, List.mem_map_of_mem hr⟩
      rw [h.bucket]
      exact List.mem_map_of_mem hsh

/-- **Every shipped line lands.** Whatever the runs did and wherever they were cut short, whatever
else is on the stage and in whatever order: the pipe of the source reads all objects that are under
its path, its table has every line before a stored offset, with its source and its file, and no
row that is not a complete line of a file. No object of the source was replaced. -/
theorem shipped_lines_land (hsup : Supported source.encoding)
    (hsha : Function.Injective lib.sha256) (hname : NoSlash (.logs source.name))
    (h : ((logRuns lib source u).restrict onTheClock).Reachable s) {stage others : List Put}
    (hstage : stage.Perm (s.bucket ++ others)) (hothers : ∀ q ∈ others, OfAnother u source q)
    (newline : Newline) :
    (s.bucket.map Put.key).Nodup ∧ (∀ q ∈ others, q.key ∉ s.bucket.map Put.key) ∧
      ∃ table, copyInto newline u.pre (.logs source.name) stage = some table ∧
        Landed lib source s table := by
  have hclock := clockInv h
  have hgrow : GrowInv lib source s := by
    refine growInv hsup hsha (h.restrict_mono fun s e hok => ?_)
    cases e with
    | rotate => exact hok
    | append | ship | gc => trivial
  obtain ⟨table, hcopy, hrows⟩ :=
    copyInto_rows hclock newline (piped hname hclock hstage hothers)
  refine ⟨keys_distinct hclock, fun q hq => others_apart (hothers q hq) hclock.bucket, table,
    hcopy, ?_, ?_⟩
  · intro p node fo hnode hfo line hline
    obtain ⟨q, m, hm, hown, hcov⟩ := hgrow.offsets _ fo hfo
    obtain rfl := owner_unique hsha hgrow.distinct hm hnode hown
    obtain rfl := Option.some.inj (hm.symm.trans hnode)
    obtain ⟨sh, hsh, part, hpart, rfl, r, hr, rfl⟩ := hcov.mem hline
    obtain ⟨hsource, -, hfile, -⟩ := mem_records hr
    exact ⟨rowOf r, (hrows _).mpr ⟨sh, hsh, r, mem_recordsOf.mpr ⟨part, hpart, hr⟩, rfl⟩, rfl,
      congrArg some hsource, congrArg some hfile⟩
  · intro row hrow
    obtain ⟨sh, hsh, r, hr, rfl⟩ := (hrows row).mp hrow
    obtain ⟨part, hpart, hr⟩ := mem_recordsOf.mp hr
    obtain ⟨hsource, -, hfile, -⟩ := mem_records hr
    obtain ⟨node, hnode, hexact⟩ := hgrow.exact sh hsh part hpart
    exact ⟨congrArg some hsource, part.plan.path, node, r.line, hnode, congrArg some hfile, rfl,
      hexact.complete hsup hr⟩

/-! ### A stage with the object of a poll and one of the host metrics -/

def sampleOther : Put := ⟨hostmetricsKey "" sampleNow, .metrics []⟩

theorem shipped_lines_land_sample :
    (sampleRun.bucket.map Put.key).Nodup ∧
      (∀ q ∈ [sampleOther], q.key ∉ sampleRun.bucket.map Put.key) ∧
      ∃ table, copyInto .crlf "" (.logs "web") (sampleRun.bucket ++ [sampleOther]) = some table ∧
        Landed plainLibs sampleSource sampleRun table := by
  have hzoned : ∀ c, Zoned ((calmEnv (oneFile "a.log" sampleBytes).fs sampleNow).clock c) := by
    intro c off hoff
    obtain rfl := Option.some.inj hoff
    decide
  have hclock : onTheClock (oneFile "a.log" sampleBytes)
      (.ship (calmEnv (oneFile "a.log" sampleBytes).fs sampleNow) sampleCtx 14) :=
    ⟨hzoned, fun sh hsh => by cases hsh⟩
  have hrun : ((logRuns plainLibs sampleSource sampleUploader).restrict onTheClock).Reachable
      sampleRun :=
    .step (.init (oneFile_init "a.log" sampleBytes)) ⟨hclock, .ship (calmEnv_sees _ _)⟩
  have hname : '/' ∉ sampleSource.name.toList := by decide
  refine shipped_lines_land (by decide) hexBytes_injective hname hrun (List.Perm.refl _)
    (fun q hq => ?_) .crlf
  rw [List.mem_singleton.mp hq]
  exact ⟨.hostmetrics, sampleNow, trivial, by decide, rfl⟩

end MongoSyncAgent.RawLogs
