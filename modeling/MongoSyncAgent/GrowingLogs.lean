import MongoSyncAgent.LogRuns

/-!
Shipping of files that only grow: no line is lost, and none is emitted in part.

The invariant is about every stored record, not only about those that the next poll will use: a
record belongs to a file, either by the path of the file or by its first bytes, its offset is a
boundary of that file, and all lines before it have been uploaded. A file that crosses
`fpPrefix` leaves its record behind and starts again at `0`, where there is nothing to show.
-/

namespace MongoSyncAgent.GrowingLogs

open MongoSyncAgent.Config MongoSyncAgent.State MongoSyncAgent.Runtime MongoSyncAgent.Sources
open MongoSyncAgent.Ship MongoSyncAgent.Sinks MongoSyncAgent.LogRuns MongoSyncAgent.Systems
open MongoSyncAgent.Lines MongoSyncAgent.Records MongoSyncAgent.Codecs MongoSyncAgent.Tailer
open MongoSyncAgent.Windows

/-- A line of the file that its newline ends: one of those before some boundary. -/
def CompleteLine (encoding : String) (data : Bytes) (line : String) : Prop :=
  ∃ n, Boundary encoding data n ∧ line ∈ nonBlankLines encoding (data.take n)

/-- Parts for the file at `p`, of uploads one after the other. -/
def UploadedParts (s : LogState) (p : Path) (reads : List (Shipment × Part)) : Prop :=
  (reads.map Prod.fst).Sublist s.shipped ∧ ∀ x ∈ reads, x.2 ∈ x.1.parts ∧ x.2.plan.path = p

/-- The lines of the records that parts are uploaded as. -/
def readLines (source : LogSourceConfig) (reads : List (Shipment × Part)) : List String :=
  (reads.flatMap fun x => x.2.records x.1.env source x.1.ctx).map (·.line)

/-- The records of a part are the non-blank lines of the bytes that it read, each once and in
order, and the bytes are complete lines of the file. -/
structure Exact (source : LogSourceConfig) (sh : Shipment) (data : Bytes) (part : Part) :
    Prop where
  starts : Boundary source.encoding data part.plan.startOffset
  ends : Boundary source.encoding data part.endOffset
  le : part.plan.startOffset ≤ part.endOffset
  lines : (part.records sh.env source sh.ctx).map (·.line) =
    linesBetween source.encoding data part.plan.startOffset part.endOffset

variable {lib : Libs} {source : LogSourceConfig} {u : S3Uploader}

/-! ### The invariant -/

/-- What holds of a stored offset and the file it belongs to: it is a boundary, and uploads hold the
lines before it, each once and in order. -/
structure Covered (source : LogSourceConfig) (s : LogState) (p : Path) (node : Node)
    (offset : ℕ) : Prop where
  boundary : Boundary source.encoding node.data offset
  uploaded : ∃ reads, UploadedParts s p reads ∧
    readLines source reads = nonBlankLines source.encoding (node.data.take offset)

structure GrowInv (lib : Libs) (source : LogSourceConfig) (s : LogState) : Prop where
  distinct : DistinctPrefixes s.fs
  offsets : ∀ key fo, (s.store.fileOffsets source.name).lookup key = some fo →
    ∃ p node, s.fs.lookup p = some node ∧ Owns lib key p node ∧ Covered source s p node fo.offset
  exact : ∀ sh ∈ s.shipped, ∀ part ∈ sh.parts, ∃ node,
    s.fs.lookup part.plan.path = some node ∧ Exact source sh node.data part

lemma Exact.mono {sh : Shipment} {part : Part} {data data' : Bytes} (hpre : data <+: data')
    (h : Exact source sh data part) : Exact source sh data' part :=
  ⟨cutAt_mono _ hpre h.starts, cutAt_mono _ hpre h.ends, h.le, by
    rw [h.lines, linesBetween_mono hpre h.ends.1]⟩

lemma UploadedParts.mono {s s' : LogState} {p : Path} {reads : List (Shipment × Part)}
    (hsub : s.shipped.Sublist s'.shipped) (h : UploadedParts s p reads) :
    UploadedParts s' p reads := ⟨h.1.trans hsub, h.2⟩

lemma Covered.mono {s s' : LogState} {p : Path} {node node' : Node} {offset : ℕ}
    (hsub : s.shipped.Sublist s'.shipped) (hpre : node.data <+: node'.data)
    (h : Covered source s p node offset) : Covered source s' p node' offset := by
  obtain ⟨reads, hreads, hlines⟩ := h.uploaded
  refine ⟨cutAt_mono _ hpre h.boundary, reads, hreads.mono hsub, ?_⟩
  rw [take_mono hpre h.boundary.1, hlines]

lemma growInv_append {s : LogState} {p : Path} {node : Node} {bs : Bytes} {mtime : ℤ}
    (h : GrowInv lib source s) (hp : s.fs.lookup p = some node)
    (hd : DistinctPrefixes (s.append p node bs mtime).fs) :
    GrowInv lib source (s.append p node bs mtime) := by
  have hsub : s.shipped.Sublist (s.append p node bs mtime).shipped := List.Sublist.refl _
  refine ⟨hd, fun key fo hfo => ?_, fun sh hsh part hpart => ?_⟩
  · obtain ⟨q, m, hm, hown, hcov⟩ := h.offsets key fo hfo
    obtain ⟨m', hm', hpre, -⟩ := append_lookup _ _ hp hm
    exact ⟨q, m', hm', hown.grow hpre, hcov.mono hsub hpre⟩
  · obtain ⟨m, hm, hexact⟩ := h.exact sh hsh part hpart
    obtain ⟨m', hm', hpre, -⟩ := append_lookup _ _ hp hm
    exact ⟨m', hm', hexact.mono hpre⟩

/-! ### A run of the source -/

section Run

variable {s : LogState} {env : Env} {part : Part} {node : Node}

/-- A plan starts at a boundary, and what is before it has been uploaded. -/
lemma part_covered (hsha : Function.Injective lib.sha256) (h : GrowInv lib source s)
    (hpart : PartOf lib source env s.fs (s.store.fileOffsets source.name) part node) :
    Covered source s part.plan.path node part.plan.startOffset := by
  have hzero : Covered source s part.plan.path node 0 :=
    ⟨cutAt_zero _ _, [], ⟨List.nil_sublist _, by simp⟩, by simp [readLines]⟩
  rw [hpart.start, startOf]
  rcases ho : (s.store.fileOffsets source.name).lookup
    (keyOf lib part.plan.path node.data) with _ | fo
  · exact hzero
  · obtain ⟨p, m, hm, hown, hcov⟩ := h.offsets _ fo ho
    obtain rfl := owner_unique hsha h.distinct hm hpart.lookup hown
    obtain rfl := Option.some.inj (hm.symm.trans hpart.lookup)
    have hle := hcov.boundary.1
    have hresume : resume fo m.data.length = fo.offset := if_neg (by omega)
    simpa [hresume] using hcov

/-- What an upload adds are the lines of the bytes that it read. -/
lemma part_exact {sh : Shipment} (hsup : Supported source.encoding) (hs : Sees sh.env source s.fs)
    (hpart : PartOf lib source sh.env s.fs (s.store.fileOffsets source.name) part node)
    (hb : Boundary source.encoding node.data part.plan.startOffset) :
    Exact source sh node.data part := by
  obtain ⟨hle, hend⟩ := hpart.ends hs hb
  exact ⟨hb, hend, hle, hpart.lines hs hsup hb sh.ctx⟩

/-- The end of a part is covered, after the upload. -/
lemma Covered.read {sh : Shipment} {s' : LogState} (hsup : Supported source.encoding)
    (hshipped : s'.shipped = s.shipped ++ [sh]) (hpart : part ∈ sh.parts)
    (hexact : Exact source sh node.data part)
    (h : Covered source s part.plan.path node part.plan.startOffset) :
    Covered source s' part.plan.path node part.endOffset := by
  obtain ⟨reads, ⟨hsub, hreads⟩, hlines⟩ := h.uploaded
  refine ⟨hexact.ends, reads ++ [(sh, part)], ⟨?_, fun x hx => ?_⟩, ?_⟩
  · rw [hshipped, List.map_append]
    exact hsub.append (List.Sublist.refl _)
  · rcases List.mem_append.mp hx with hx | hx
    · exact hreads x hx
    · rw [List.mem_singleton.mp hx]
      exact ⟨hpart, rfl⟩
  · rw [lines_take hsup hexact.starts hexact.le, ← hlines, ← hexact.lines]
    simp [readLines]

lemma growInv_ship (hsup : Supported source.encoding) (hsha : Function.Injective lib.sha256)
    {ctx : RunContext} {gcDays : ℤ} (h : GrowInv lib source s) (hs : Sees env source s.fs) :
    GrowInv lib source (s.ship lib source u env ctx gcDays) := by
  rcases ship_cases (u := u) s env ctx gcDays with heq | ⟨hparts, hship⟩
  · rwa [heq]
  have hsees : Sees (s.shipment lib source env ctx).env source s.fs := hs
  have hparts : drainPlans lib (s.shipment lib source env ctx).env source (discover lib
    (s.shipment lib source env ctx).env source (s.store.fileOffsets source.name)) =
      .ok (s.shipment lib source env ctx).parts := hparts
  generalize s.ship lib source u env ctx gcDays = s' at hship
  generalize s.shipment lib source env ctx = sh at hparts hship hsees
  have hpart : ∀ part ∈ sh.parts, ∃ node, PartOf lib source sh.env s.fs
      (s.store.fileOffsets source.name) part node := fun part hp => partOf_mem hsees hparts hp
  have hexact : ∀ part ∈ sh.parts, ∀ node, PartOf lib source sh.env s.fs
      (s.store.fileOffsets source.name) part node → Exact source sh node.data part :=
    fun part _ node hn => part_exact hsup hsees hn (part_covered hsha h hn).boundary
  have hall : ∀ sh' ∈ s.shipped ++ [sh], ∀ part ∈ sh'.parts, ∃ node,
      s.fs.lookup part.plan.path = some node ∧ Exact source sh' node.data part := by
    intro sh' hsh' part hp
    rcases List.mem_append.mp hsh' with hold | hnew
    · exact h.exact sh' hold part hp
    · obtain rfl := List.mem_singleton.mp hnew
      obtain ⟨node, hn⟩ := hpart part hp
      exact ⟨node, hn.lookup, hexact part hp node hn⟩
  have hsub : s.shipped.Sublist (s.shipped ++ [sh]) := List.sublist_append_left _ _
  cases hship with
  | nothing => exact h
  | uploaded =>
    refine ⟨h.distinct, fun key fo hfo => ?_, hall⟩
    obtain ⟨p, node, hn, hown, hcov⟩ := h.offsets key fo hfo
    exact ⟨p, node, hn, hown, hcov.mono hsub List.prefix_rfl⟩
  | committed hdel =>
    refine ⟨h.distinct, fun key fo hfo => ?_, hall⟩
    rcases committed_lookup hdel hfo with ⟨part, hp, rfl, hoff⟩ | ⟨-, hold⟩
    · obtain ⟨node, hn⟩ := hpart part hp
      refine ⟨part.plan.path, node, hn.lookup, ?_, ?_⟩
      · rw [hn.key]
        exact owns_keyOf _ _
      · rw [hoff]
        exact (part_covered hsha h hn).read hsup rfl hp (hexact part hp node hn)
    · obtain ⟨p, node, hn, hown, hcov⟩ := h.offsets key fo hold
      exact ⟨p, node, hn, hown, hcov.mono hsub List.prefix_rfl⟩

end Run

/-! ### Runs -/

/-- Files at fixed paths: nothing is renamed. -/
def fixedPaths (_ : LogState) : LogEvent → Prop
  | .rotate .. => False
  | _ => True

def growingLogs (lib : Libs) (source : LogSourceConfig) (u : S3Uploader) :
    System LogState LogEvent :=
  (logRuns lib source u).restrict fixedPaths

theorem growInv (hsup : Supported source.encoding) (hsha : Function.Injective lib.sha256)
    {s : LogState} (h : (growingLogs lib source u).Reachable s) : GrowInv lib source s := by
  refine h.invariant (fun s hs => ?_) fun s e s' _ hinv hstep => ?_
  · refine ⟨hs.distinct, fun key fo hfo => ?_, fun sh hsh => ?_⟩
    · rw [hs.offsets] at hfo
      cases hfo
    · rw [hs.shipped] at hsh
      cases hsh
  · obtain ⟨hfix, hstep⟩ := hstep
    cases hstep with
    | append hp hd => exact growInv_append hinv hp hd
    | rotate => exact hfix.elim
    | ship hs => exact growInv_ship hsup hsha hinv hs
    | gc =>
      refine ⟨hinv.distinct, fun key fo hfo => ?_, hinv.exact⟩
      obtain ⟨p, node, hn, hown, hcov⟩ := hinv.offsets key fo (gc_lookup hfo)
      exact ⟨p, node, hn, hown, hcov.boundary, hcov.uploaded⟩

/-- A line before a stored offset is in a record that was uploaded for the file. -/
lemma Covered.mem {s : LogState} {p : Path} {node : Node} {offset : ℕ}
    (h : Covered source s p node offset) {line : String}
    (hline : line ∈ nonBlankLines source.encoding (node.data.take offset)) :
    ∃ sh ∈ s.shipped, ∃ part ∈ sh.parts, part.plan.path = p ∧
      ∃ r ∈ part.records sh.env source sh.ctx, r.line = line := by
  obtain ⟨reads, ⟨hsub, hreads⟩, hlines⟩ := h.uploaded
  rw [← hlines, readLines] at hline
  obtain ⟨r, hr, hrline⟩ := List.mem_map.mp hline
  obtain ⟨x, hx, hr⟩ := List.mem_flatMap.mp hr
  exact ⟨x.1, hsub.subset (List.mem_map_of_mem hx), x.2, (hreads x hx).1, (hreads x hx).2, r, hr,
    hrline⟩

/-- The records of a part are complete lines of the file. -/
lemma Exact.complete {sh : Shipment} {part : Part} {data : Bytes} (hsup : Supported source.encoding)
    (h : Exact source sh data part) {r : LogRecord}
    (hr : r ∈ part.records sh.env source sh.ctx) : CompleteLine source.encoding data r.line := by
  have hmem := List.mem_map_of_mem (f := (·.line)) hr
  rw [h.lines] at hmem
  refine ⟨part.endOffset, h.ends, ?_⟩
  rw [lines_take hsup h.starts h.le]
  exact List.mem_append_right _ hmem

/-- **Growing files lose no line and emit no partial one.** Whatever the runs did and wherever
they were cut short, the bucket holds an object for each upload. The offset stored under the key of
a file is a boundary of it, and the records of some uploads for the file, each of another object,
are the lines before the offset, each once and in order. The records of every upload for the file
are the lines of complete lines of it that were read, each once and in order. -/
theorem growing_logs_lossless (hsup : Supported source.encoding)
    (hsha : Function.Injective lib.sha256) {s : LogState}
    (h : (growingLogs lib source u).Reachable s) {p : Path} {node : Node}
    (hn : s.fs.lookup p = some node) :
    s.bucket = s.shipped.map (Shipment.put source u) ∧
    (∀ fo, (s.store.fileOffsets source.name).lookup (keyOf lib p node.data) = some fo →
      Boundary source.encoding node.data fo.offset ∧
      ∃ reads, UploadedParts s p reads ∧
        readLines source reads = nonBlankLines source.encoding (node.data.take fo.offset)) ∧
    ∀ sh ∈ s.shipped, ∀ part ∈ sh.parts, part.plan.path = p → Exact source sh node.data part := by
  have hinv := growInv hsup hsha h
  refine ⟨(stocked h.of_restrict).bucket, fun fo hfo => ?_, fun sh hsh part hpart hpath => ?_⟩
  · obtain ⟨q, m, hm, hown, hcov⟩ := hinv.offsets _ fo hfo
    obtain rfl := owner_unique hsha hinv.distinct hm hn hown
    obtain rfl := Option.some.inj (hm.symm.trans hn)
    exact ⟨hcov.boundary, hcov.uploaded⟩
  · obtain ⟨m, hm, hexact⟩ := hinv.exact sh hsh part hpart
    rw [hpath, hn] at hm
    obtain rfl := Option.some.inj hm
    exact hexact

/-! ### A file with two complete lines and the start of a third -/

/-- `a\nb\nc`. -/
def sampleBytes : Bytes := [0x61, 0x0A, 0x62, 0x0A, 0x63]

def sampleRun : LogState :=
  (oneFile "a.log" sampleBytes).ship plainLibs sampleSource sampleUploader
    (calmEnv (oneFile "a.log" sampleBytes).fs sampleNow) sampleCtx 14

lemma sampleRun_reachable :
    (growingLogs plainLibs sampleSource sampleUploader).Reachable sampleRun := by
  refine .step (.init (oneFile_init "a.log" sampleBytes)) ⟨?_, .ship (calmEnv_sees _ _)⟩
  trivial

/-- `a\na\nb`: a line that is there twice. -/
def repeatedBytes : Bytes := [0x61, 0x0A, 0x61, 0x0A, 0x62]

def repeatedRun : LogState :=
  (oneFile "a.log" repeatedBytes).ship plainLibs sampleSource sampleUploader
    (calmEnv (oneFile "a.log" repeatedBytes).fs sampleNow) sampleCtx 14

theorem growing_logs_lossless_sample :
    (repeatedRun.store.fileOffsets "web").lookup "path:a.log" =
      some ⟨"path:a.log", "a.log", 4, 5, some sampleNow⟩ ∧
    Boundary "utf-8" repeatedBytes 4 ∧
    (∃ reads, UploadedParts repeatedRun "a.log" reads ∧
      readLines sampleSource reads = ["a", "a"]) ∧
    ∀ sh ∈ repeatedRun.shipped, ∀ part ∈ sh.parts, part.plan.path = "a.log" →
      Exact sampleSource sh repeatedBytes part := by
  have hstored : (repeatedRun.store.fileOffsets "web").lookup "path:a.log" =
      some ⟨"path:a.log", "a.log", 4, 5, some sampleNow⟩ := by decide +kernel
  have hfile : repeatedRun.fs.lookup "a.log" = some ⟨repeatedBytes, 0, true⟩ := rfl
  have hreach : (growingLogs plainLibs sampleSource sampleUploader).Reachable repeatedRun := by
    refine .step (.init (oneFile_init "a.log" repeatedBytes)) ⟨?_, .ship (calmEnv_sees _ _)⟩
    trivial
  have hlines : nonBlankLines "utf-8" (repeatedBytes.take 4) = ["a", "a"] := by decide +kernel
  obtain ⟨-, hoffsets, hexact⟩ := growing_logs_lossless (by decide) hexBytes_injective hreach hfile
  obtain ⟨hboundary, reads, hreads, hread⟩ := hoffsets _ hstored
  exact ⟨hstored, hboundary, ⟨reads, hreads, hread.trans hlines⟩, hexact⟩

end MongoSyncAgent.GrowingLogs
