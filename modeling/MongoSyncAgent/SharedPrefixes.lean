import MongoSyncAgent.LogRuns

/-!
Files that agree on their first `fpPrefix` bytes, and share one stored offset.

The last plan of a poll with a fingerprint decides what is stored under it, and the next poll
applies that to every file with the fingerprint. An offset is safe for a file if a poll has read
that far the file itself, or one with the same bytes up to there.
-/

namespace MongoSyncAgent.SharedPrefixes

open MongoSyncAgent.Config MongoSyncAgent.State MongoSyncAgent.Runtime MongoSyncAgent.Sources
open MongoSyncAgent.Ship MongoSyncAgent.Sinks MongoSyncAgent.LogRuns MongoSyncAgent.Systems
open MongoSyncAgent.Lines MongoSyncAgent.Records MongoSyncAgent.Codecs MongoSyncAgent.Tailer
open MongoSyncAgent.Drain MongoSyncAgent.Windows

variable (lib : Libs) (source : LogSourceConfig) (u : S3Uploader)

/-! ### Files that only grow, whatever their first bytes -/

/-- Appends and polls. -/
inductive SharedStep : LogState → LogEvent → LogState → Prop
  | append {s p bs mtime node} (hp : s.fs.lookup p = some node) :
    SharedStep s (.append p bs mtime) (s.append p node bs mtime)
  | ship {s env ctx gcDays} (hs : Sees env source s.fs) :
    SharedStep s (.ship env ctx gcDays) (s.ship lib source u env ctx gcDays)

/-- A log source from the time when nothing is stored of it. -/
structure SharedInit (s : LogState) : Prop where
  offsets : s.store.fileOffsets source.name = ∅
  bucket : s.bucket = []
  committed : s.committed = []

def sharedLogs : System LogState LogEvent where
  init := SharedInit source
  step := SharedStep lib source u

/-- An uploaded object has a record of the line, with the source, the host of the poll that read
the line and the file that it was read off. -/
def InBucket (s : LogState) (line : String) : Prop :=
  ∃ sh ∈ s.shipped, ∃ part ∈ sh.parts, ∃ put ∈ s.bucket, ∃ records,
    put.content = .ndjson records ∧ ∃ r ∈ records, r.line = line ∧ r.source = source.name ∧
      r.host = sh.ctx.host ∧ r.file = pathName part.plan.path

/-- The complete non-blank lines of a file that end at or before `offset` are in the bucket. -/
def LinesUploaded (s : LogState) (data : Bytes) (offset : ℕ) : Prop :=
  ∀ n ≤ offset, Boundary source.encoding data n →
    ∀ line ∈ nonBlankLines source.encoding (data.take n), InBucket source s line

/-- A committed poll read the file at `p` as far as `offset`. -/
def ReadTo (s : LogState) (p : Path) (offset : ℕ) : Prop :=
  ∃ sh ∈ s.committed, ∃ part ∈ sh.parts, part.plan.path = p ∧ offset ≤ part.endOffset

/-- The offset stored under the fingerprint of a file was read off the file itself, or off one
that has the same bytes up to there, a newline at their end. -/
def OwnOffset (s : LogState) (p : Path) (node : Node) : Prop :=
  fpPrefix ≤ node.data.length → ∀ fo,
    (s.store.fileOffsets source.name).lookup (keyOf lib p node.data) = some fo →
    fo.offset ≤ node.data.length →
    ReadTo s p fo.offset ∨
      Boundary source.encoding node.data fo.offset ∧ ∃ q m, s.fs.lookup q = some m ∧
        m.data.take fo.offset = node.data.take fo.offset ∧ ReadTo s q fo.offset

def OwnOffsets (s : LogState) : Prop :=
  ∀ p node, s.fs.lookup p = some node → OwnOffset lib source s p node

/-- Every poll finds under each fingerprint an offset that suits the file. -/
def ownAtPolls (s : LogState) : LogEvent → Prop
  | .ship .. => OwnOffsets lib source s
  | _ => True

variable {lib source u} {s : LogState}

/-! ### The invariant -/

/-- All lines up to some boundary from `offset` on are in the bucket. -/
def Covers (source : LogSourceConfig) (s : LogState) (data : Bytes) (offset : ℕ) : Prop :=
  ∃ c, offset ≤ c ∧ Boundary source.encoding data c ∧
    ∀ line ∈ nonBlankLines source.encoding (data.take c), InBucket source s line

/-- Nothing that was shipped is taken back. -/
structure Keeps (s s' : LogState) : Prop where
  bucket : s.bucket ⊆ s'.bucket
  shipped : s.shipped ⊆ s'.shipped

lemma InBucket.mono {s' : LogState} {line : String} (h : Keeps s s')
    (hin : InBucket source s line) : InBucket source s' line := by
  obtain ⟨sh, hsh, part, hp, put, hput, hrecord⟩ := hin
  exact ⟨sh, h.shipped hsh, part, hp, put, h.bucket hput, hrecord⟩

structure SharedInv (lib : Libs) (source : LogSourceConfig) (s : LogState) : Prop where
  aligned : ∀ key fo, (s.store.fileOffsets source.name).lookup key = some fo →
    Aligned source.encoding fo.offset
  /-- A file below `fpPrefix` has its offset for itself. -/
  small : ∀ p fo, (s.store.fileOffsets source.name).lookup (provisionalKey p) = some fo →
    ReadTo s p fo.offset
  read : ∀ p offset, ReadTo s p offset →
    ∃ node, s.fs.lookup p = some node ∧ Covers source s node.data offset

lemma Covers.zero (s : LogState) (data : Bytes) : Covers source s data 0 := by
  refine ⟨0, le_rfl, cutAt_zero _ _, fun line hline => ?_⟩
  rw [List.take_zero, nonBlankLines_nil] at hline
  cases hline

lemma Covers.uploaded (hsup : Supported source.encoding) {data : Bytes} {offset : ℕ}
    (h : Covers source s data offset) : LinesUploaded source s data offset := by
  obtain ⟨c, hle, -, hlines⟩ := h
  intro n hn hb line hline
  refine hlines line ?_
  rw [lines_take hsup hb (hn.trans hle)]
  exact List.mem_append_left _ hline

lemma Covers.mono {s' : LogState} {data data' : Bytes} {offset : ℕ} (hpre : data <+: data')
    (hkeeps : Keeps s s') (h : Covers source s data offset) :
    Covers source s' data' offset := by
  obtain ⟨c, hle, hb, hlines⟩ := h
  refine ⟨c, hle, cutAt_mono _ hpre hb, fun line hline => ?_⟩
  rw [take_mono hpre hb.1] at hline
  exact (hlines line hline).mono hkeeps

/-- What covers a file covers one that agrees with it. -/
lemma Covers.agree (hsup : Supported source.encoding) {data data' : Bytes} {offset : ℕ}
    (h : Covers source s data offset) (heq : data.take offset = data'.take offset)
    (hb : Boundary source.encoding data' offset) : Covers source s data' offset := by
  refine ⟨offset, le_rfl, hb, fun line hline => ?_⟩
  rw [← heq] at hline
  have hle : offset ≤ data.length := by
    obtain ⟨c, hc, hcb, -⟩ := h
    exact hc.trans hcb.1
  have hb' : Boundary source.encoding data offset := ⟨hle, by rw [heq]; exact hb.2⟩
  exact h.uploaded hsup offset le_rfl hb' line hline

/-! ### A poll -/

section Poll

variable {env : Env} {part : Part} {node : Node} {p : Path}

/-- **The start of a plan is covered**: what is stored was read off the file itself or off one
that agrees with it. -/
lemma start_covered (hsup : Supported source.encoding) (h : SharedInv lib source s)
    (hown : OwnOffsets lib source s) (hn : s.fs.lookup p = some node) :
    Aligned source.encoding
        (startOf (s.store.fileOffsets source.name) (keyOf lib p node.data) node.data.length) ∧
      Covers source s node.data
        (startOf (s.store.fileOffsets source.name) (keyOf lib p node.data)
          node.data.length) := by
  have hzero : Aligned source.encoding 0 ∧ Covers source s node.data 0 :=
    ⟨fun _ => rfl, .zero s _⟩
  have hself : ∀ offset, ReadTo s p offset → Covers source s node.data offset := by
    intro offset hread
    obtain ⟨m, hm, hcov⟩ := h.read p offset hread
    obtain rfl := Option.some.inj (hm.symm.trans hn)
    exact hcov
  unfold startOf
  rcases ho : (s.store.fileOffsets source.name).lookup (keyOf lib p node.data) with _ | fo
  · exact hzero
  by_cases hlt : node.data.length < fo.offset
  · simp only [resume, if_pos hlt, Option.map_some, Option.getD_some]
    exact hzero
  simp only [resume, if_neg hlt, Option.map_some, Option.getD_some]
  refine ⟨h.aligned _ fo ho, ?_⟩
  rcases Nat.lt_or_ge node.data.length fpPrefix with hsmall | hlarge
  · rw [keyOf_small hsmall] at ho
    exact hself _ (h.small p fo ho)
  · rcases hown p node hn hlarge fo ho (Nat.not_lt.mp hlt) with hread | ⟨hb, q, m, hm, heq, hread⟩
    · exact hself _ hread
    · obtain ⟨m', hm', hcov⟩ := h.read q _ hread
      obtain rfl := Option.some.inj (hm'.symm.trans hm)
      exact hcov.agree hsup heq hb

/-- After the upload of what a part holds, its end is covered. -/
lemma end_covered (hsup : Supported source.encoding) {s' : LogState}
    (hkeeps : Keeps s s')
    (hin : ∀ chunk ∈ part.chunks, ∀ line ∈ chunk.lines, InBucket source s' line)
    (hswept : Swept source.encoding node.data part.plan.startOffset part.chunks part.endOffset)
    (h : Covers source s node.data part.plan.startOffset) :
    Covers source s' node.data part.endOffset := by
  obtain ⟨c, hle, hb, hlines⟩ := h.mono List.prefix_rfl hkeeps
  rcases Nat.le_total part.endOffset c with hend | hend
  · exact ⟨c, hend, hb, hlines⟩
  rcases hswept.ends with heq | hbe
  · rw [heq]
    exact ⟨c, hle, hb, hlines⟩
  refine ⟨part.endOffset, le_rfl, hbe, fun line hline => ?_⟩
  rw [lines_take hsup hb hend, List.mem_append] at hline
  rcases hline with hline | hline
  · exact hlines line hline
  · obtain ⟨chunk, hchunk, hl⟩ := hswept.lines c hb hle hend line hline
    exact hin chunk hchunk line hl

/-- The lines of a shipment are in its object. -/
lemma part_inBucket {sh : Shipment} (hsh : sh ∈ s.shipped) (hput : sh.put source u ∈ s.bucket)
    (hp : part ∈ sh.parts) {chunk : TailChunk} (hc : chunk ∈ part.chunks) {line : String}
    (hl : line ∈ chunk.lines) : InBucket source s line := by
  have hline : line ∈ (part.records sh.env source sh.ctx).map (·.line) := by
    rw [records_lines]
    exact List.mem_flatMap.mpr ⟨chunk, hc, hl⟩
  obtain ⟨r, hr, hrl⟩ := List.mem_map.mp hline
  obtain ⟨hsource, hhost, hfile, -⟩ := mem_records hr
  exact ⟨sh, hsh, part, hp, _, hput, _, rfl, r, List.mem_flatMap.mpr ⟨part, hp, hr⟩, hrl,
    hsource, hhost, hfile⟩

end Poll

/-- What a committed poll adds. -/
lemma read_committed (hsup : Supported source.encoding) (h : SharedInv lib source s)
    {sh : Shipment} {s' : LogState} (hfs : s'.fs = s.fs)
    (hbucket : s'.bucket = s.bucket ++ [sh.put source u])
    (hshipped : s'.shipped = s.shipped ++ [sh])
    (hcommitted : s'.committed = s.committed ++ [sh])
    (hpart : ∀ part ∈ sh.parts, ∃ node, s.fs.lookup part.plan.path = some node ∧
      Swept source.encoding node.data part.plan.startOffset part.chunks part.endOffset ∧
      Covers source s node.data part.plan.startOffset) :
    ∀ p offset, ReadTo s' p offset →
      ∃ node, s'.fs.lookup p = some node ∧ Covers source s' node.data offset := by
  have hkeeps : Keeps s s' := by
    refine ⟨?_, ?_⟩
    · rw [hbucket]
      exact List.subset_append_left _ _
    · rw [hshipped]
      exact List.subset_append_left _ _
  have hput : sh.put source u ∈ s'.bucket := by
    rw [hbucket]
    simp
  have hsh : sh ∈ s'.shipped := by
    rw [hshipped]
    simp
  rintro p offset ⟨sh', hsh', part, hp, rfl, hle⟩
  rw [hcommitted] at hsh'
  rw [hfs]
  rcases List.mem_append.mp hsh' with hold | hnew
  · obtain ⟨node, hn, hcov⟩ := h.read _ offset ⟨sh', hold, part, hp, rfl, hle⟩
    exact ⟨node, hn, hcov.mono List.prefix_rfl hkeeps⟩
  · obtain rfl := List.mem_singleton.mp hnew
    obtain ⟨node, hn, hswept, hcov⟩ := hpart part hp
    obtain ⟨c, hc, hrest⟩ := end_covered hsup hkeeps
      (fun chunk hchunk line hl => part_inBucket hsh hput hp hchunk hl) hswept hcov
    exact ⟨node, hn, c, hle.trans hc, hrest⟩

lemma sharedInv_ship (hsup : Supported source.encoding) (h : SharedInv lib source s)
    (hown : OwnOffsets lib source s) {env : Env} {ctx : RunContext} {gcDays : ℤ}
    (hs : Sees env source s.fs) :
    SharedInv lib source (s.ship lib source u env ctx gcDays) := by
  rcases ship_cases (u := u) s env ctx gcDays with heq | ⟨hparts, hship⟩
  · rwa [heq]
  generalize s.ship lib source u env ctx gcDays = s' at hship
  generalize s.shipment lib source env ctx = sh at hparts hship
  cases hship with
  | nothing => exact h
  | uploaded =>
    refine ⟨h.aligned, h.small, fun p offset hread => ?_⟩
    obtain ⟨node, hn, hcov⟩ := h.read p offset hread
    exact ⟨node, hn, hcov.mono List.prefix_rfl
      ⟨List.subset_append_left _ _, List.subset_append_left _ _⟩⟩
  | @committed deletes hdel =>
    have hpart : ∀ part ∈ sh.parts, ∃ node, PartOf lib source env s.fs
        (s.store.fileOffsets source.name) part node ∧
        Aligned source.encoding part.plan.startOffset ∧
        Covers source s node.data part.plan.startOffset := by
      intro part hp
      obtain ⟨node, hn⟩ := partOf_mem hs hparts hp
      refine ⟨node, hn, ?_⟩
      rw [hn.start]
      exact start_covered hsup h hown hn.lookup
    refine ⟨fun key fo hfo => ?_, fun p fo hfo => ?_,
      read_committed hsup h rfl rfl rfl rfl fun part hp => ?_⟩
    · rcases committed_lookup hdel hfo with ⟨part, hp, -, hoff⟩ | ⟨-, hold⟩
      · obtain ⟨node, hn, ha, -⟩ := hpart part hp
        rw [hoff]
        exact (hn.swept hs hsup ha).aligned
      · exact h.aligned key fo hold
    · rcases committed_lookup hdel hfo with ⟨part, hp, hkey, hoff⟩ | ⟨-, hold⟩
      · obtain ⟨node, hn, -⟩ := hpart part hp
        refine ⟨sh, by simp, part, hp, ?_, hoff.le⟩
        rw [hn.key] at hkey
        rcases Nat.lt_or_ge node.data.length fpPrefix with hsmall | hlarge
        · rw [keyOf_small hsmall] at hkey
          exact provisionalKey_inj hkey
        · rw [keyOf_large hlarge] at hkey
          exact absurd hkey.symm (provisionalKey_ne_digest _ _)
      · obtain ⟨sh', hsh', hread⟩ := h.small p fo hold
        exact ⟨sh', List.mem_append_left _ hsh', hread⟩
    · obtain ⟨node, hn, ha, hcov⟩ := hpart part hp
      exact ⟨node, hn.lookup, hn.swept hs hsup ha, hcov⟩

/-! ### Runs -/

theorem sharedInv (hsup : Supported source.encoding)
    (h : ((sharedLogs lib source u).restrict (ownAtPolls lib source)).Reachable s) :
    SharedInv lib source s := by
  refine h.invariant (fun s hs => ?_) fun s e s' _ hinv hstep => ?_
  · refine ⟨fun key fo hfo => ?_, fun p fo hfo => ?_, ?_⟩
    · rw [hs.offsets] at hfo
      cases hfo
    · rw [hs.offsets] at hfo
      cases hfo
    · rintro p offset ⟨sh, hsh, -⟩
      rw [hs.committed] at hsh
      cases hsh
  · obtain ⟨hok, hstep⟩ := hstep
    cases hstep with
    | append hp =>
      refine ⟨hinv.aligned, hinv.small, fun q offset hread => ?_⟩
      obtain ⟨m, hm, hcov⟩ := hinv.read q offset hread
      obtain ⟨m', hm', hpre, -⟩ := append_lookup _ _ hp hm
      exact ⟨m', hm', hcov.mono hpre ⟨List.Subset.refl _, List.Subset.refl _⟩⟩
    | ship hs => exact sharedInv_ship hsup hinv hok hs

/-- **Files with one fingerprint keep their lines**, in every run in which the offset that a poll
finds under a fingerprint was read off the file it is applied to, or off one that agrees with it
so far: wherever a plan starts, the complete lines before are in the bucket. -/
theorem shared_prefix_lines (hsup : Supported source.encoding)
    (h : ((sharedLogs lib source u).restrict (ownAtPolls lib source)).Reachable s)
    (hown : OwnOffsets lib source s) {env : Env} (hs : Sees env source s.fs) {plan : TailPlan}
    (hp : plan ∈ discover lib env source (s.store.fileOffsets source.name)) :
    ∃ node, s.fs.lookup plan.path = some node ∧
      LinesUploaded source s node.data plan.startOffset := by
  obtain ⟨node, hn, hplan⟩ := mem_discover hs hp
  have hcov := (start_covered hsup (sharedInv hsup h) hown hn).2
  refine ⟨node, hn, ?_⟩
  rw [hplan]
  exact hcov.uploaded hsup

/-! ### Two files with one header -/

/-- A header of `fpPrefix` bytes in lines of 64, and its digest. -/
def headerBytes : Bytes := (List.replicate 64 (List.replicate 63 0x61 ++ [0x0A])).flatten

lemma headerHex_digits :
    ∀ c ∈ "5f9122a7c6b9bb729dba98124bc107b3d1ec11aef0993f9c8b3223202498eeb8".toList,
    (Numerals.digit c).isSome := by
  rw [← List.all_eq_true]
  decide +kernel

def headerDigest : HexDigest :=
  ⟨"5f9122a7c6b9bb729dba98124bc107b3d1ec11aef0993f9c8b3223202498eeb8", headerHex_digits⟩

def headerLibs : Libs := { plainLibs with sha256 := fun _ => headerDigest }

def longBytes : Bytes := headerBytes ++ "ggg\n".toUTF8.toList

/-- `b.log` is one line ahead of `a.log`. -/
def twoFiles : LogState :=
  { oneFile "a.log" headerBytes with
    fs := ((∅ : FS).insert "b.log" ⟨longBytes, 0, true⟩).insert "a.log" ⟨headerBytes, 0, true⟩ }

def twoPolled : LogState :=
  twoFiles.ship headerLibs sampleSource sampleUploader (calmEnv twoFiles.fs sampleNow) sampleCtx 14

lemma twoFiles_lookup {q : Path} {node : Node} (h : twoFiles.fs.lookup q = some node) :
    q = "a.log" ∧ node.data = headerBytes ∨ q = "b.log" ∧ node.data = longBytes := by
  by_cases ha : q = "a.log"
  · subst ha
    rw [twoFiles, AList.lookup_insert] at h
    exact .inl ⟨rfl, (Option.some.inj h) ▸ rfl⟩
  rw [twoFiles, AList.lookup_insert_ne ha] at h
  by_cases hb : q = "b.log"
  · subst hb
    rw [AList.lookup_insert] at h
    exact .inr ⟨rfl, (Option.some.inj h) ▸ rfl⟩
  · rw [AList.lookup_insert_ne hb] at h
    cases h

lemma twoPolled_offset : (twoPolled.store.fileOffsets "web").lookup headerDigest.val =
    some ⟨headerDigest.val, "b.log", 4100, 4100, some sampleNow⟩ := by
  decide +kernel

lemma twoPolled_fs : twoPolled.fs = twoFiles.fs := rfl

lemma twoPolled_step :
    SharedStep headerLibs sampleSource sampleUploader twoFiles
      (.ship (calmEnv twoFiles.fs sampleNow) sampleCtx 14) twoPolled :=
  .ship (calmEnv_sees twoFiles.fs sampleNow)

lemma twoPolled_reachable : ((sharedLogs headerLibs sampleSource sampleUploader).restrict
    (ownAtPolls headerLibs sampleSource)).Reachable twoPolled := by
  have hinit : SharedInit sampleSource twoFiles := ⟨rfl, rfl, rfl⟩
  have hown : ownAtPolls headerLibs sampleSource twoFiles
      (.ship (calmEnv twoFiles.fs sampleNow) sampleCtx 14) := by
    intro p node _ _ fo hfo
    rw [hinit.offsets] at hfo
    cases hfo
  exact .step (.init hinit) (And.intro hown twoPolled_step)

lemma twoPolled_own : OwnOffsets headerLibs sampleSource twoPolled := by
  intro p node hn hlarge fo hfo hle
  have hkey : keyOf headerLibs p node.data = headerDigest.val := keyOf_large hlarge
  have hname : sampleSource.name = "web" := rfl
  rw [hkey, hname, twoPolled_offset] at hfo
  obtain rfl := Option.some.inj hfo
  rw [twoPolled_fs] at hn
  rcases twoFiles_lookup hn with ⟨-, hdata⟩ | ⟨rfl, -⟩
  · rw [hdata] at hle
    exact absurd hle (by decide +kernel)
  · exact .inl (by unfold ReadTo; decide +kernel)

theorem shared_prefix_lines_sample : LinesUploaded sampleSource twoPolled longBytes 4100 := by
  have hplan : ⟨"b.log", some headerDigest, 4100⟩ ∈ discover headerLibs
      (calmEnv twoPolled.fs sampleNow) sampleSource
        (twoPolled.store.fileOffsets sampleSource.name) := by
    decide +kernel
  obtain ⟨node, hn, hlines⟩ := shared_prefix_lines (by decide) twoPolled_reachable twoPolled_own
    (calmEnv_sees twoPolled.fs sampleNow) hplan
  rw [twoPolled_fs] at hn
  have hdata : node.data = longBytes := by
    rcases twoFiles_lookup hn with ⟨hpath, -⟩ | ⟨-, hdata⟩
    · exact absurd hpath (by decide)
    · exact hdata
  rwa [hdata] at hlines

/-- `a.log` has overtaken, with lines of its own. -/
def grownBytes : Bytes := headerBytes ++ "ab\ncd\n".toUTF8.toList

def twoGrown : LogState :=
  twoPolled.append "a.log" ⟨headerBytes, 0, true⟩ "ab\ncd\n".toUTF8.toList 1

def linesIn : Content → List String
  | .ndjson records => records.map (·.line)
  | _ => []

/-- The next poll resumes `a.log` at the offset of `b.log`, after a line that no poll has read. -/
theorem shared_prefix_line_lost :
    (sharedLogs headerLibs sampleSource sampleUploader).Reachable twoGrown ∧
      twoGrown.fs.lookup "a.log" = some ⟨grownBytes, 1, true⟩ ∧
      ⟨"a.log", some headerDigest, 4100⟩ ∈ discover headerLibs
        (calmEnv twoGrown.fs sampleNow) sampleSource
        (twoGrown.store.fileOffsets sampleSource.name) ∧
      ¬ LinesUploaded sampleSource twoGrown grownBytes 4100 := by
  have hfile : twoPolled.fs.lookup "a.log" = some ⟨headerBytes, 0, true⟩ := by
    rw [twoPolled_fs, twoFiles]
    exact AList.lookup_insert _
  have hgrown : twoGrown.fs.lookup "a.log" = some ⟨grownBytes, 1, true⟩ := by
    rw [twoGrown, LogState.append]
    exact AList.lookup_insert _
  have hstep : SharedStep headerLibs sampleSource sampleUploader twoPolled
      (.append "a.log" "ab\ncd\n".toUTF8.toList 1) twoGrown := .append hfile
  refine ⟨.step twoPolled_reachable.of_restrict hstep, hgrown, by decide +kernel, fun h => ?_⟩
  have hline : "ab" ∈ nonBlankLines "utf-8" (grownBytes.take 4099) := by decide +kernel
  have hmissing : "ab" ∉ twoGrown.bucket.flatMap fun put => linesIn put.content := by
    decide +kernel
  have hb : Boundary "utf-8" grownBytes 4099 := by decide +kernel
  obtain ⟨-, -, -, -, put, hput, records, hcontent, r, hr, hrl, -⟩ :=
    h 4099 (by omega) hb "ab" hline
  refine hmissing (List.mem_flatMap.mpr ⟨put, hput, ?_⟩)
  rw [hcontent]
  exact List.mem_map.mpr ⟨r, hr, hrl⟩

end MongoSyncAgent.SharedPrefixes
