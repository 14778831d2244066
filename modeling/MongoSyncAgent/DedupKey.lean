import MongoSyncAgent.KilledPolls

/-!
The key by which downstream recognises a line that was shipped before: source, file, and the
offset that the record carries.

The offset is the end of the chunk that the line was read in. It tells lines apart, and is the
same in every poll, only if no read can give more than one line or end anywhere but right after
that line.
-/

namespace MongoSyncAgent.DedupKey

open MongoSyncAgent.Config MongoSyncAgent.State MongoSyncAgent.Runtime MongoSyncAgent.Sources
open MongoSyncAgent.Ship MongoSyncAgent.Sinks MongoSyncAgent.LogRuns MongoSyncAgent.Systems
open MongoSyncAgent.Lines MongoSyncAgent.Records MongoSyncAgent.Codecs MongoSyncAgent.Tailer
open MongoSyncAgent.Windows MongoSyncAgent.GrowingLogs MongoSyncAgent.KilledPolls

/-! ### Lines and their records -/

/-- The number of lines before a position. -/
def lineCount (encoding : String) (data : Bytes) (n : ℕ) : ℕ :=
  (nonBlankLines encoding (data.take n)).length

/-- Where a drain is after some chunks. -/
def endOf (start : ℕ) (chunks : List TailChunk) : ℕ :=
  chunks.foldl (fun _ chunk => chunk.newOffset) start

/-- The record of an upload is that of line `k` of the file at `p`. -/
def RecordOf (source : LogSourceConfig) (data : Bytes) (sh : Shipment) (p : Path) (k : ℕ)
    (r : LogRecord) : Prop :=
  ∃ part ∈ sh.parts, part.plan.path = p ∧ ∃ before chunk after,
    part.chunks = before ++ chunk :: after ∧ ∃ i,
      (chunkRecords sh.env source sh.ctx part.plan chunk)[i]? = some r ∧
        k = lineCount source.encoding data (endOf part.plan.startOffset before) + i

/-- What downstream recognises a line by. -/
def dedupKey (r : LogRecord) : String × String × ℕ := (r.source, r.file, r.fileOffset)

/-- Two records of the file have the same key if and only if they are of the same line. -/
def Faithful (source : LogSourceConfig) (data : Bytes) (s : LogState) (p : Path) : Prop :=
  ∀ sh ∈ s.shipped, ∀ sh' ∈ s.shipped, ∀ k k' r r', RecordOf source data sh p k r →
    RecordOf source data sh' p k' r' → (dedupKey r = dedupKey r' ↔ k = k')

variable {lib : Libs} {source : LogSourceConfig} {u : S3Uploader} {encoding : String}
  {maxBytes : ℤ} {data data' : Bytes} {content : ℕ → Option Bytes} {start x : ℕ}
  {chunk : TailChunk} {chunks before after : List TailChunk}

lemma lineCount_mono (h : data <+: data') {n : ℕ} (hn : n ≤ data.length) :
    lineCount encoding data' n = lineCount encoding data n := by
  rw [lineCount, lineCount, take_mono h hn]

lemma lineCount_add (hsup : Supported encoding) {e : ℕ} (hx : Boundary encoding data x)
    (h : x ≤ e) : lineCount encoding data e =
      lineCount encoding data x + (linesBetween encoding data x e).length := by
  have hitems := items_take (framing hsup) hx h
  rw [framing_items, between, framing_items] at hitems
  rw [lineCount, hitems, List.length_append]
  rfl

lemma mem_chunkRecords {env : Env} {ctx : RunContext} {plan : TailPlan} {i : ℕ} {r : LogRecord}
    (h : (chunkRecords env source ctx plan chunk)[i]? = some r) :
    i < chunk.lines.length ∧ dedupKey r = (source.name, pathName plan.path, chunk.newOffset) := by
  rw [chunkRecords, List.getElem?_map, Option.map_eq_some_iff] at h
  obtain ⟨line, hline, rfl⟩ := h
  exact ⟨(List.getElem?_eq_some_iff.mp hline).1, rfl⟩

/-! ### Files whose reads give one line each -/

/-- The chunk holds the lines of the file from its start to its end. -/
structure Placed (encoding : String) (data : Bytes) (start : ℕ) (chunk : TailChunk) : Prop where
  boundary_start : Boundary encoding data start
  lt : start < chunk.newOffset
  boundary : Boundary encoding data chunk.newOffset
  lines : chunk.lines = linesBetween encoding data start chunk.newOffset

/-- The chunk holds one line, and its end is the first boundary behind that line. -/
structure Lone (encoding : String) (data : Bytes) (start : ℕ) (chunk : TailChunk) : Prop
    extends Placed encoding data start chunk where
  one : chunk.lines.length = 1
  first : ∀ b < chunk.newOffset, Boundary encoding data b →
    lineCount encoding data b ≤ lineCount encoding data start

lemma Placed.mono (h : data <+: data') (hp : Placed encoding data start chunk) :
    Placed encoding data' start chunk :=
  ⟨cutAt_mono _ h hp.boundary_start, hp.lt, cutAt_mono _ h hp.boundary, by
    rw [hp.lines, linesBetween_mono h hp.boundary.1]⟩

lemma Lone.mono (h : data <+: data') (hl : Lone encoding data start chunk) :
    Lone encoding data' start chunk := by
  refine ⟨hl.toPlaced.mono h, hl.one, fun b hb hbd => ?_⟩
  have hle := hb.le.trans hl.boundary.1
  rw [lineCount_mono h hle, lineCount_mono h hl.boundary_start.1]
  exact hl.first b hb (boundary_of_le h hle hbd)

/-- The lines of a chunk are those of the file, by their numbers. -/
lemma Placed.getElem? (hsup : Supported encoding) (h : Placed encoding data start chunk) (i : ℕ) :
    (nonBlankLines encoding (data.take chunk.newOffset))[lineCount encoding data start + i]? =
      chunk.lines[i]? := by
  have hitems := items_take (framing hsup) h.boundary_start h.lt.le
  rw [framing_items, between, framing_items] at hitems
  rw [hitems, h.lines, lineCount, List.getElem?_append_right (Nat.le_add_right _ _),
    Nat.add_sub_cancel_left]
  rfl

lemma Lone.count (hsup : Supported encoding) (h : Lone encoding data start chunk) :
    lineCount encoding data chunk.newOffset = lineCount encoding data start + 1 := by
  rw [lineCount_add hsup h.boundary_start h.lt.le, ← h.lines, h.one]

/-- Of two such chunks, the offsets are the same just when the lines are. -/
lemma Lone.eq_iff {start' : ℕ} {chunk' : TailChunk} (hsup : Supported encoding)
    (h : Lone encoding data start chunk) (h' : Lone encoding data start' chunk') :
    chunk.newOffset = chunk'.newOffset ↔
      lineCount encoding data start = lineCount encoding data start' := by
  have hcount := h.count hsup
  have hcount' := h'.count hsup
  constructor
  · intro heq
    rw [heq] at hcount
    omega
  · intro heq
    rcases Nat.lt_trichotomy chunk.newOffset chunk'.newOffset with hlt | hsame | hlt
    · have := h'.first _ hlt h.boundary
      omega
    · exact hsame
    · have := h.first _ hlt h'.boundary
      omega

lemma reading_placed (hx : Boundary encoding data x)
    (h : Reading encoding maxBytes data content x chunks) :
    ∀ before chunk after, chunks = before ++ chunk :: after →
      Placed encoding data (endOf x before) chunk := by
  induction h with
  | nil => simp
  | @cons x c rest hread hlines _ _ ih =>
    intro before chunk after heq
    rcases before with _ | ⟨b, before⟩
    · obtain ⟨rfl, -⟩ := List.cons.inj heq
      exact ⟨hx, hread.lt, hread.boundary, hlines⟩
    · obtain ⟨rfl, hrest⟩ := List.cons.inj heq
      exact ih hread.boundary before chunk after hrest

lemma lone_of_read (hsup : Supported encoding) (hl : LoneLines encoding maxBytes data)
    (hx : ReadStart encoding maxBytes data x)
    (hread : CanRead encoding maxBytes data x chunk.newOffset)
    (hlines : chunk.lines = linesBetween encoding data x chunk.newOffset) :
    Lone encoding data x chunk := by
  obtain ⟨hone, hbefore⟩ := hl x _ hx hread
  refine ⟨⟨hx.boundary, hread.lt, hread.boundary, hlines⟩, by rw [hlines, hone],
    fun b hb hbd => ?_⟩
  rcases Nat.lt_or_ge x b with hlt | hge
  · -- a read could end at `b`, if there were a line before it
    have hnil : linesBetween encoding data x b = [] := by
      by_contra hne
      refine hbefore b hb ⟨hlt, hbd, ?_, hne⟩
      have hw := hread.inWindow
      unfold InWindow at hw ⊢
      omega
    rw [lineCount_add hsup hx.boundary hlt.le, hnil, List.length_nil, Nat.add_zero]
  · rw [lineCount_add hsup hbd hge]
    omega

/-- **A drain of such a file**: every chunk is one line, and the drain ends where a read can
start. -/
lemma reading_lone (hsup : Supported encoding) (hl : LoneLines encoding maxBytes data)
    (hx : ReadStart encoding maxBytes data x)
    (h : Reading encoding maxBytes data content x chunks) :
    ReadStart encoding maxBytes data (endOf x chunks) ∧
      ∀ before chunk after, chunks = before ++ chunk :: after →
        Lone encoding data (endOf x before) chunk := by
  induction h with
  | nil =>
    refine ⟨hx, fun before chunk after heq => ?_⟩
    simp at heq
  | @cons x c rest hread hlines _ _ ih =>
    obtain ⟨hend, hall⟩ := ih (.next hx hread)
    refine ⟨hend, fun before chunk after heq => ?_⟩
    rcases before with _ | ⟨b, before⟩
    · obtain ⟨rfl, -⟩ := List.cons.inj heq
      exact lone_of_read hsup hl hx hread hlines
    · obtain ⟨rfl, hrest⟩ := List.cons.inj heq
      exact hall before chunk after hrest

/-! ### Runs over such files -/

/-- What was shipped are lines of the files. Where a file has only lone lines, what is stored is
where a read can start, and what was shipped are lone chunks. -/
structure KeyInv (lib : Libs) (source : LogSourceConfig) (s : LogState) : Prop where
  distinct : DistinctPrefixes s.fs
  offsets : ∀ key fo, (s.store.fileOffsets source.name).lookup key = some fo →
    ∃ p node, s.fs.lookup p = some node ∧ Owns lib key p node ∧
      (LoneLines source.encoding source.maxBytesPerPoll node.data →
        ReadStart source.encoding source.maxBytesPerPoll node.data fo.offset)
  chunks : ∀ sh ∈ s.shipped, ∀ part ∈ sh.parts, ∃ node,
    s.fs.lookup part.plan.path = some node ∧
      ∀ before chunk after, part.chunks = before ++ chunk :: after →
        Placed source.encoding node.data (endOf part.plan.startOffset before) chunk ∧
          (LoneLines source.encoding source.maxBytesPerPoll node.data →
            Lone source.encoding node.data (endOf part.plan.startOffset before) chunk)

lemma keyInv_append {s : LogState} {p : Path} {node : Node} {bs : Bytes} {mtime : ℤ}
    (h : KeyInv lib source s) (hp : s.fs.lookup p = some node)
    (hd : DistinctPrefixes (s.append p node bs mtime).fs) :
    KeyInv lib source (s.append p node bs mtime) := by
  refine ⟨hd, fun key fo hfo => ?_, fun sh hsh part hpart => ?_⟩
  · obtain ⟨q, m, hm, hown, hstart⟩ := h.offsets key fo hfo
    obtain ⟨m', hm', hpre, -⟩ := append_lookup _ _ hp hm
    exact ⟨q, m', hm', hown.grow hpre, fun hl => (hstart (hl.of_initial hpre)).mono hpre⟩
  · obtain ⟨m, hm, hlone⟩ := h.chunks sh hsh part hpart
    obtain ⟨m', hm', hpre, -⟩ := append_lookup _ _ hp hm
    refine ⟨m', hm', fun before chunk after heq => ?_⟩
    obtain ⟨hplaced, hlone⟩ := hlone before chunk after heq
    exact ⟨hplaced.mono hpre, fun hl => (hlone (hl.of_initial hpre)).mono hpre⟩

section Run

variable {s : LogState} {env : Env} {part : Part} {node : Node}

/-- A plan starts where a read can start. -/
lemma part_start (hsha : Function.Injective lib.sha256) (h : KeyInv lib source s)
    (hpart : PartOf lib source env s.fs (s.store.fileOffsets source.name) part node)
    (hl : LoneLines source.encoding source.maxBytesPerPoll node.data) :
    ReadStart source.encoding source.maxBytesPerPoll node.data part.plan.startOffset := by
  rw [hpart.start, startOf]
  rcases ho : (s.store.fileOffsets source.name).lookup
    (keyOf lib part.plan.path node.data) with _ | fo
  · exact .zero
  · obtain ⟨p, m, hm, hown, hstart⟩ := h.offsets _ fo ho
    obtain rfl := owner_unique hsha h.distinct hm hpart.lookup hown
    obtain rfl := Option.some.inj (hm.symm.trans hpart.lookup)
    have hresume : resume fo m.data.length = fo.offset :=
      if_neg (Nat.not_lt.mpr (hstart hl).boundary.1)
    simpa [hresume] using hstart hl

lemma part_lone (hsup : Supported source.encoding) (hsha : Function.Injective lib.sha256)
    (h : KeyInv lib source s) (hs : Sees env source s.fs)
    (hpart : PartOf lib source env s.fs (s.store.fileOffsets source.name) part node)
    (hl : LoneLines source.encoding source.maxBytesPerPoll node.data) :
    ReadStart source.encoding source.maxBytesPerPoll node.data part.endOffset ∧
      ∀ before chunk after, part.chunks = before ++ chunk :: after →
        Lone source.encoding node.data (endOf part.plan.startOffset before) chunk := by
  have hstart := part_start hsha h hpart hl
  exact reading_lone hsup hl hstart (hpart.reading hs hsup hstart.boundary)

lemma keyInv_ship (hsup : Supported source.encoding) (hsha : Function.Injective lib.sha256)
    {ctx : RunContext} {gcDays : ℤ} (hgrow : GrowInv lib source s) (h : KeyInv lib source s)
    (hs : Sees env source s.fs) : KeyInv lib source (s.ship lib source u env ctx gcDays) := by
  rcases ship_cases (u := u) s env ctx gcDays with heq | ⟨hparts, hship⟩
  · rwa [heq]
  generalize s.ship lib source u env ctx gcDays = s' at hship
  generalize s.shipment lib source env ctx = sh at hparts hship
  have hpart : ∀ part ∈ sh.parts, ∃ node, PartOf lib source env s.fs
      (s.store.fileOffsets source.name) part node := fun part hp => partOf_mem hs hparts hp
  have hchunks : ∀ sh' ∈ s.shipped ++ [sh], ∀ part ∈ sh'.parts, ∃ node,
      s.fs.lookup part.plan.path = some node ∧
        ∀ before chunk after, part.chunks = before ++ chunk :: after →
          Placed source.encoding node.data (endOf part.plan.startOffset before) chunk ∧
            (LoneLines source.encoding source.maxBytesPerPoll node.data →
              Lone source.encoding node.data (endOf part.plan.startOffset before) chunk) := by
    intro sh' hsh' part hp
    rcases List.mem_append.mp hsh' with hold | hnew
    · exact h.chunks sh' hold part hp
    · obtain rfl := List.mem_singleton.mp hnew
      obtain ⟨node, hn⟩ := hpart part hp
      have hb := (part_covered hsha hgrow hn).boundary
      refine ⟨node, hn.lookup, fun before chunk after heq => ⟨?_, fun hl => ?_⟩⟩
      · exact reading_placed hb (hn.reading hs hsup hb) before chunk after heq
      · exact (part_lone hsup hsha h hs hn hl).2 before chunk after heq
  cases hship with
  | nothing => exact h
  | uploaded => exact ⟨h.distinct, h.offsets, hchunks⟩
  | committed hdel =>
    refine ⟨h.distinct, fun key fo hfo => ?_, hchunks⟩
    rcases committed_lookup hdel hfo with ⟨part, hp, rfl, hoff⟩ | ⟨-, hold⟩
    · obtain ⟨node, hn⟩ := hpart part hp
      refine ⟨part.plan.path, node, hn.lookup, ?_, fun hl => ?_⟩
      · rw [hn.key]
        exact owns_keyOf _ _
      · rw [hoff]
        exact (part_lone hsup hsha h hs hn hl).1
    · exact h.offsets key fo hold

end Run

theorem keyInv (hsup : Supported source.encoding) (hsha : Function.Injective lib.sha256)
    {s : LogState} (h : (growingLogs lib source u).Reachable s) : KeyInv lib source s := by
  refine h.invariant (fun s hs => ?_) fun s e s' hr hinv hstep => ?_
  · refine ⟨hs.distinct, fun key fo hfo => ?_, fun sh hsh => ?_⟩
    · rw [hs.offsets] at hfo
      cases hfo
    · rw [hs.shipped] at hsh
      cases hsh
  · obtain ⟨hfix, hstep⟩ := hstep
    cases hstep with
    | append hp hd => exact keyInv_append hinv hp hd
    | rotate => exact hfix.elim
    | ship hs => exact keyInv_ship hsup hsha (growInv hsup hsha hr) hinv hs
    | gc =>
      exact ⟨hinv.distinct, fun key fo hfo => hinv.offsets key fo (gc_lookup hfo), hinv.chunks⟩

/-- **A record is the record of one line**: its text is the line of that number. -/
theorem recordOf_line (hsup : Supported source.encoding)
    (hsha : Function.Injective lib.sha256) {s : LogState}
    (h : (growingLogs lib source u).Reachable s) {p : Path} {node : Node}
    (hn : s.fs.lookup p = some node) {sh : Shipment} (hsh : sh ∈ s.shipped) {k : ℕ}
    {r : LogRecord} (hr : RecordOf source node.data sh p k r) :
    (nonBlankLines source.encoding (node.data.take r.fileOffset))[k]? = some r.line := by
  obtain ⟨part, hpart, rfl, before, chunk, after, heq, i, hi, hk⟩ := hr
  obtain ⟨m, hm, hall⟩ := (keyInv hsup hsha h).chunks sh hsh part hpart
  obtain rfl := Option.some.inj (hm.symm.trans hn)
  have hplaced := (hall before chunk after heq).1
  rw [chunkRecords, List.getElem?_map, Option.map_eq_some_iff] at hi
  obtain ⟨line, hline, rfl⟩ := hi
  rw [hk, hplaced.getElem? hsup, hline]

/-- **Lone lines have faithful keys**, in every run. -/
lemma faithful_of_loneLines (hsup : Supported source.encoding)
    (hsha : Function.Injective lib.sha256) {s : LogState}
    (h : (growingLogs lib source u).Reachable s) {p : Path} {node : Node}
    (hn : s.fs.lookup p = some node)
    (hl : LoneLines source.encoding source.maxBytesPerPoll node.data) :
    Faithful source node.data s p := by
  have hinv := keyInv hsup hsha h
  have hlone : ∀ sh ∈ s.shipped, ∀ k r, RecordOf source node.data sh p k r → ∃ start chunk,
      Lone source.encoding node.data start chunk ∧
        dedupKey r = (source.name, pathName p, chunk.newOffset) ∧
          k = lineCount source.encoding node.data start := by
    rintro sh hsh k r ⟨part, hpart, rfl, before, chunk, after, heq, i, hi, hk⟩
    obtain ⟨m, hm, hall⟩ := hinv.chunks sh hsh part hpart
    obtain rfl := Option.some.inj (hm.symm.trans hn)
    have hl' := (hall before chunk after heq).2 hl
    obtain ⟨hlt, hkey⟩ := mem_chunkRecords hi
    have hi0 : i = 0 := by
      have := hl'.one
      omega
    exact ⟨_, chunk, hl', hkey, by rw [hk, hi0, Nat.add_zero]⟩
  intro sh hsh sh' hsh' k k' r r' hr hr'
  obtain ⟨start, chunk, h1, hkey, hk⟩ := hlone sh hsh k r hr
  obtain ⟨start', chunk', h2, hkey', hk'⟩ := hlone sh' hsh' k' r' hr'
  simp only [hkey, hkey', Prod.mk.injEq, true_and]
  rw [h1.eq_iff hsup h2, hk, hk']

/-! ### Polls that show a line that is not alone -/

/-- A drain from the start comes by `x`, however much of the file behind `x` is written. -/
def Passes (encoding : String) (maxBytes : ℤ) (data : Bytes) (x : ℕ) : Prop :=
  ∀ n, x ≤ n → n ≤ data.length → ∀ chunks,
    Reading encoding maxBytes (data.take n) (fun _ => some (data.take n)) 0 chunks →
      ∃ before after, chunks = before ++ after ∧ endOf 0 before = x ∧
        Reading encoding maxBytes (data.take n) (fun _ => some (data.take n)) x after

/-- From `x` a read can end in one way only, and gives one line. -/
def LoneFrom (encoding : String) (maxBytes : ℤ) (data : Bytes) (x : ℕ) : Prop :=
  ∀ e, CanRead encoding maxBytes data x e →
    (linesBetween encoding data x e).length = 1 ∧ ∀ b < e, ¬ CanRead encoding maxBytes data x b

lemma take_initial {n : ℕ} : data.take n <+: data := List.take_prefix n data

lemma CanRead.take {e n : ℕ} (h : CanRead encoding maxBytes data x e) (hn : e ≤ n) :
    CanRead encoding maxBytes (data.take n) x e :=
  h.of_le take_initial (by
    rw [List.length_take]
    exact Nat.le_min.mpr ⟨hn, h.boundary.1⟩)

/-- Where nothing is written behind `e`, a read ends there, if it can. -/
lemma reading_head {e n : ℕ} (h : CanRead encoding maxBytes data x e) (hn : e ≤ n)
    (hlast : ∀ b, e < b → ¬ CanRead encoding maxBytes (data.take n) x b)
    (hr : Reading encoding maxBytes (data.take n) (fun _ => some (data.take n)) x chunks) :
    ∃ chunk rest, chunks = chunk :: rest ∧ chunk.newOffset = e ∧
      chunk.lines = linesBetween encoding data x e ∧
      Reading encoding maxBytes (data.take n) (fun _ => some (data.take n)) e rest := by
  have hcan := CanRead.take h hn
  cases hr with
  | nil hstop =>
    rcases hstop with hnone | hno
    · cases hnone
    · exact absurd hcan (hno e)
  | @cons _ chunk rest hread hlines hmax hrest =>
    have hge : chunk.newOffset ≤ e := by
      by_contra hlt
      exact hlast _ (Nat.not_le.mp hlt) hread
    have heq : chunk.newOffset = e := Nat.le_antisymm hge (hmax e hcan)
    refine ⟨chunk, rest, rfl, heq, ?_, heq ▸ hrest⟩
    rw [hlines, heq, linesBetween_mono take_initial hcan.boundary.1]

lemma passes_next {b : ℕ} (hp : Passes encoding maxBytes data x)
    (hl : LoneFrom encoding maxBytes data x) (h : CanRead encoding maxBytes data x b) :
    Passes encoding maxBytes data b := by
  intro n hn hle chunks hr
  obtain ⟨before, after, rfl, hend, hafter⟩ := hp n (h.lt.le.trans hn) hle chunks hr
  have hlast : ∀ e, b < e → ¬ CanRead encoding maxBytes (data.take n) x e :=
    fun e he hcan => (hl e (hcan.mono take_initial)).2 b he h
  obtain ⟨chunk, rest, rfl, heq, -, hrest⟩ := reading_head h hn hlast hafter
  refine ⟨before ++ [chunk], rest, by simp, ?_, hrest⟩
  rw [endOf, List.foldl_append]
  exact heq

section Polls

variable {p : Path} {s : LogState}

/-- The records of a killed poll of what is written up to `e`: those of a read from `x` to `e`
have one key. -/
lemma poll_records (hsup : Supported source.encoding)
    (hp : Passes source.encoding source.maxBytesPerPoll data x) {e : ℕ}
    (h : CanRead source.encoding source.maxBytesPerPoll data x e)
    (hs : Single source s p (data.take e)) (hr : (growingLogs lib source u).Reachable s) :
    ∃ s' sh, Single source s' p (data.take e) ∧ (growingLogs lib source u).Reachable s' ∧
      s'.shipped = s.shipped ++ [sh] ∧
      ∀ i < (linesBetween source.encoding data x e).length, ∃ r,
        RecordOf source data sh p (lineCount source.encoding data x + i) r ∧
          dedupKey r = (source.name, pathName p, e) := by
  have hle := h.boundary.1
  have hlast : ∀ b, e < b →
      ¬ CanRead source.encoding source.maxBytesPerPoll (data.take e) x b := by
    intro b hb hcan
    have hlen := hcan.boundary.1
    rw [List.length_take] at hlen
    omega
  have hpass := hp e h.lt.le hle
  have hmax : ReadSize source.maxBytesPerPoll := h.inWindow.readSize h.lt
  obtain ⟨s', sh, part, hs', hr', hshipped, hparts, hpath, hstart, hreading⟩ :=
    hs.poll hr hsup hmax fun chunks hreading => by
      obtain ⟨before, after, rfl, -, hafter⟩ := hpass chunks hreading
      obtain ⟨chunk, rest, rfl, -⟩ := reading_head h le_rfl hlast hafter
      simp
  refine ⟨s', sh, hs', hr', hshipped, fun i hi => ?_⟩
  obtain ⟨before, after, hchunks, hend, hafter⟩ := hpass _ hreading
  obtain ⟨chunk, rest, rfl, heq, hlines, -⟩ := reading_head h le_rfl hlast hafter
  have hi' : i < (chunkRecords sh.env source sh.ctx part.plan chunk).length := by
    rw [chunkRecords, List.length_map, hlines]
    exact hi
  have hget := List.getElem?_eq_getElem hi'
  refine ⟨_, ⟨part, by simp [hparts], hpath, before, chunk, rest, hchunks, i, hget, ?_⟩, ?_⟩
  · rw [hstart, hend]
  · rw [(mem_chunkRecords hget).2, hpath, heq]

/-- A file that is written to its end has faithful keys, if all such files have. -/
lemma faithful_of_single {n : ℕ} (hs : Single source s p (data.take n))
    (hr : (growingLogs lib source u).Reachable s)
    (hall : ∀ s node, (growingLogs lib source u).Reachable s → s.fs.lookup p = some node →
      node.data = data → Faithful source data s p) : Faithful source data s p := by
  obtain ⟨s', hs', hr', hshipped⟩ := hs.append hr (data.drop n)
  rw [List.take_append_drop] at hs'
  obtain ⟨mtime, hlookup⟩ := hs'.lookup
  have hfaithful := hall s' _ hr' hlookup rfl
  unfold Faithful at hfaithful ⊢
  rwa [hshipped] at hfaithful

/-- **A line that is not alone shows** in a run that is killed once or twice. -/
lemma loneFrom_of_faithful (hsup : Supported source.encoding)
    (hp : Passes source.encoding source.maxBytesPerPoll data x)
    (hall : ∀ s node, (growingLogs lib source u).Reachable s → s.fs.lookup p = some node →
      node.data = data → Faithful source data s p) :
    LoneFrom source.encoding source.maxBytesPerPoll data x := by
  have hinit : ∀ n, (growingLogs lib source u).Reachable (oneFile p (data.take n)) :=
    fun n => .init (oneFile_init p _)
  intro e h
  refine ⟨?_, fun b hb hcan => ?_⟩
  · -- two lines of one read have the same key
    obtain ⟨s', sh, hs', hr', hshipped, hrecords⟩ :=
      poll_records hsup hp h (single_oneFile p (data.take e)) (hinit e)
    have hmem : sh ∈ s'.shipped := by simp [hshipped]
    by_contra hone
    have hpos := List.length_pos_iff.mpr h.lines
    obtain ⟨r, hr, hkey⟩ := hrecords 0 hpos
    obtain ⟨r', hr₁, hkey'⟩ := hrecords 1 (by omega)
    have heq := (faithful_of_single hs' hr' hall sh hmem sh hmem _ _ r r' hr hr₁).mp
      (hkey.trans hkey'.symm)
    omega
  · -- a line that is shipped before and after more was written has two keys
    obtain ⟨s₁, sh, hs₁, hr₁, hshipped₁, hrecords⟩ :=
      poll_records hsup hp hcan (single_oneFile p (data.take b)) (hinit b)
    obtain ⟨s₂, hs₂, hr₂, hshipped₂⟩ := hs₁.append hr₁ ((data.take e).drop b)
    rw [← take_split hb.le] at hs₂
    obtain ⟨s₃, sh', hs₃, hr₃, hshipped₃, hrecords'⟩ := poll_records hsup hp h hs₂ hr₂
    have hmem : sh ∈ s₃.shipped := by simp [hshipped₃, hshipped₂, hshipped₁]
    have hmem' : sh' ∈ s₃.shipped := by simp [hshipped₃]
    obtain ⟨r, hr, hkey⟩ := hrecords 0 (List.length_pos_iff.mpr hcan.lines)
    obtain ⟨r', hr', hkey'⟩ := hrecords' 0 (List.length_pos_iff.mpr h.lines)
    have heq := (faithful_of_single hs₃ hr₃ hall sh hmem sh' hmem' _ _ r r' hr hr').mpr rfl
    rw [hkey, hkey'] at heq
    simp only [Prod.mk.injEq, true_and] at heq
    omega

/-- **When the dedup key is faithful.** For every content of a file: in every run that leaves the
file with this content the key tells its lines apart and is the same in every upload, if and
only if from wherever a read of it can start, it can end in one way only and gives one line. -/
theorem dedup_key_faithful (hsup : Supported source.encoding)
    (hsha : Function.Injective lib.sha256) (p : Path) (data : Bytes) :
    (∀ s node, (growingLogs lib source u).Reachable s → s.fs.lookup p = some node →
      node.data = data → Faithful source data s p) ↔
        LoneLines source.encoding source.maxBytesPerPoll data := by
  constructor
  · intro hall
    have hstart : ∀ x, ReadStart source.encoding source.maxBytesPerPoll data x →
        Passes source.encoding source.maxBytesPerPoll data x := by
      intro x hx
      induction hx with
      | zero => exact fun n _ _ chunks hr => ⟨[], chunks, rfl, rfl, hr⟩
      | next _ h ih => exact passes_next ih (loneFrom_of_faithful hsup ih hall) h
    exact fun x e hx h => loneFrom_of_faithful hsup (hstart x hx) hall e h
  · rintro hl s node hr hn rfl
    exact faithful_of_loneLines hsup hsha hr hn hl

end Polls

/-! ### Two lines in one chunk, or in two -/

/-- Windows that hold one line of the sample file each. -/
def narrowSource : LogSourceConfig := { sampleSource with maxBytesPerPoll := 3 }

lemma sampleBytes_lone : LoneLines "utf-8" 3 sampleBytes := by
  rintro x e - ⟨hlt, hb, hw, hne⟩
  have hends : ∀ e ≤ 5, Boundary "utf-8" sampleBytes e → e = 0 ∨ e = 2 ∨ e = 4 := by
    decide +kernel
  have hle : (e : ℤ) ≤ x + 3 := hw.elim (fun h => absurd h (by decide)) (·.2)
  have hcases : e = 2 ∧ x = 0 ∨ e = 2 ∧ x = 1 ∨ e = 4 ∧ x = 1 ∨ e = 4 ∧ x = 2 ∨
      e = 4 ∧ x = 3 := by
    have := hends e hb.1 hb
    omega
  have hnone : ∀ b < e, x < b → ¬ CanRead "utf-8" 3 sampleBytes x b := by
    intro b hbe hxb hread
    have hb2 := hends b hread.boundary.1 hread.boundary
    obtain ⟨rfl, rfl⟩ : b = 2 ∧ x = 1 := by omega
    exact hread.lines (by decide +kernel)
  refine ⟨?_, fun b hbe hread => hnone b hbe hread.lt hread⟩
  rcases hcases with ⟨rfl, rfl⟩ | ⟨rfl, rfl⟩ | ⟨rfl, rfl⟩ | ⟨rfl, rfl⟩ | ⟨rfl, rfl⟩
  · decide +kernel
  · exact absurd (by decide +kernel) hne
  · decide +kernel
  · decide +kernel
  · exact absurd (by decide +kernel) hne

/-- Of `a\nb\nc` the narrow windows give each line a key of its own. -/
theorem dedup_key_faithful_sample : LoneLines "utf-8" 3 sampleBytes ∧
    ∀ s node, (growingLogs plainLibs narrowSource sampleUploader).Reachable s →
      s.fs.lookup "a.log" = some node → node.data = sampleBytes →
        Faithful narrowSource sampleBytes s "a.log" :=
  ⟨sampleBytes_lone,
    (dedup_key_faithful (by decide) hexBytes_injective "a.log" sampleBytes).mpr sampleBytes_lone⟩

/-- The upload of the sample run. -/
def sampleShipment : Shipment :=
  (oneFile "a.log" sampleBytes).shipment plainLibs sampleSource
    (calmEnv (oneFile "a.log" sampleBytes).fs sampleNow) sampleCtx

lemma sampleShipment_parts :
    sampleShipment.parts = [⟨⟨"a.log", none, 0⟩, [⟨["a", "b"], 4⟩]⟩] := rfl

/-- Both lines of a file that was read in one chunk have the key of the second one. -/
theorem two_lines_one_key :
    (growingLogs plainLibs sampleSource sampleUploader).Reachable sampleRun ∧
      sampleRun.fs.lookup "a.log" = some ⟨sampleBytes, 0, true⟩ ∧
      ¬ Faithful sampleSource sampleBytes sampleRun "a.log" := by
  refine ⟨sampleRun_reachable, rfl, fun hfaithful => ?_⟩
  have hshipped : sampleRun.shipped = [sampleShipment] := rfl
  have hmem : sampleShipment ∈ sampleRun.shipped := by
    rw [hshipped]
    exact List.mem_cons_self
  have hrecord : ∀ i line, ["a", "b"][i]? = some line → ∃ r,
      RecordOf sampleSource sampleBytes sampleShipment "a.log" i r ∧
        dedupKey r = ("web", "a.log", 4) := by
    intro i line hline
    have hcount : lineCount "utf-8" sampleBytes 0 = 0 := by decide +kernel
    refine ⟨_, ⟨_, by rw [sampleShipment_parts]; exact List.mem_cons_self, rfl, [], _, [], rfl, i,
      by rw [chunkRecords, List.getElem?_map, hline]; rfl, ?_⟩, ?_⟩
    · exact (Nat.zero_add i).symm.trans (congrArg (· + i) hcount.symm)
    · have hname : pathName "a.log" = "a.log" := by decide +kernel
      show ("web", pathName "a.log", 4) = _
      rw [hname]
  obtain ⟨r, hr, hkey⟩ := hrecord 0 "a" rfl
  obtain ⟨r', hr', hkey'⟩ := hrecord 1 "b" rfl
  have heq := (hfaithful _ hmem _ hmem 0 1 r r' hr hr').mp (hkey.trans hkey'.symm)
  omega

end MongoSyncAgent.DedupKey
