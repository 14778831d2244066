import MongoSyncAgent.RotatedLogs
import MongoSyncAgent.Rotations
import MongoSyncAgent.SharedPrefixes
import Mathlib.Data.Finset.Card

/-!
Polls with which rotations race: the files move between the calls of one poll.

A plan keeps a path and the fingerprint of what stood there when its prefix was read; the drain
reads what stands there by then. As long as that is the same file, an offset that is stored under
a fingerprint counts bytes of the content with that fingerprint, all of them read and shipped.
-/

namespace MongoSyncAgent.RacingPolls

open MongoSyncAgent.Py MongoSyncAgent.Config MongoSyncAgent.State MongoSyncAgent.Runtime
open MongoSyncAgent.Tailer MongoSyncAgent.Drain MongoSyncAgent.Sinks MongoSyncAgent.Sources
open MongoSyncAgent.Keys MongoSyncAgent.Outcomes MongoSyncAgent.Lines MongoSyncAgent.Codecs
open MongoSyncAgent.Ship MongoSyncAgent.LogRuns MongoSyncAgent.Systems MongoSyncAgent.Records
open MongoSyncAgent.Text MongoSyncAgent.Windows MongoSyncAgent.Rotations
open MongoSyncAgent.RotatedLogs MongoSyncAgent.SharedPrefixes

variable (lib : Libs) (source : LogSourceConfig) (u : S3Uploader)

/-! ### A poll over files that move -/

/-- What the reads at a path find. -/
def found (env : Env) (p : Path) (offset : ℕ) : Option Bytes :=
  (env.file (.tail p offset) p).map (·.data)

def DrainsPlan (env : Env) (plan : TailPlan) : Except Exc (List TailChunk) → Prop :=
  Drains lib.codecs (found env plan.path) source.encoding source.maxBytesPerPoll plan.startOffset

/-- How the loop over the plans ends. -/
inductive DrainsPlans (env : Env) : List TailPlan → Except Exc (List Part) → Prop
  | nil : DrainsPlans env [] (.ok [])
  | raised {plan rest e} (h : DrainsPlan lib source env plan (.error e)) :
    DrainsPlans env (plan :: rest) (.error e)
  | later {plan rest chunks e} (h : DrainsPlan lib source env plan (.ok chunks))
    (hrest : DrainsPlans env rest (.error e)) : DrainsPlans env (plan :: rest) (.error e)
  | cons {plan rest chunks parts} (h : DrainsPlan lib source env plan (.ok chunks))
    (hrest : DrainsPlans env rest (.ok parts)) :
    DrainsPlans env (plan :: rest) (.ok (⟨plan, chunks⟩ :: parts))

/-- `ship_source`, where the loop over the plans ends with `r`. -/
def afterDrains (env : Env) (ctx : RunContext) (gcDays : ℤ) (r : Except Exc (List Part)) :
    M UnitResult := do
  call env (.getOffsets source.name)
  let parts ← lift r
  if recordsOf env source ctx parts = [] then
    return { unit := source.name, status := .empty }
  else
    deliver lib env source u ctx gcDays parts (spoolPath ctx.spoolDir source.name "jsonl.gz")

/-! ### The system -/

/-- Bytes that a poll read from the file with a number. -/
structure Read where
  file : ℕ
  start : ℕ
  stop : ℕ
  deriving DecidableEq

structure RaceState where
  disk : Disk
  /-- The disk as it was since the last poll ended, the oldest first. -/
  past : List Disk
  store : StateStore
  bucket : List Put
  /-- What the polls that uploaded had read. -/
  reads : List Read

inductive RaceEvent
  | logger
  /-- A poll ends. Each of its calls has seen the disk of one moment. -/
  | poll (env : Env) (time : Call → ℕ) (ctx : RunContext) (gcDays : ℤ)

/-- The calls of a poll on files, in the order of the program. -/
inductive Before : Call → Call → Prop
  | stat (name : String) (p : Path) : Before (.glob name) (.stat p)
  | prefixSize (p q : Path) : Before (.stat p) (.prefixSize q)
  | readPrefix (p : Path) : Before (.prefixSize p) (.readPrefix p)
  | size (p : Path) : Before (.readPrefix p) (.size p)
  | drain (p q : Path) (offset : ℕ) : Before (.size p) (.tail q offset)
  | tail (p : Path) {m n : ℕ} (h : m < n) : Before (.tail p m) (.tail p n)
  | sizeAtRead (p q : Path) (offset : ℕ) : Before (.tail p offset) (.sizeAtRead q)

/-- The reads of a drain that ended with these chunks. -/
def readsFrom (file : ℕ → ℕ) : ℕ → List TailChunk → List Read
  | _, [] => []
  | offset, chunk :: rest =>
    ⟨file offset, offset, chunk.newOffset⟩ :: readsFrom file chunk.newOffset rest

namespace RaceState

def diskAt (s : RaceState) (t : ℕ) : Option Disk := (s.past ++ [s.disk])[t]?

/-- The number of the file that a read finds. -/
def fileAt (s : RaceState) (time : Call → ℕ) (p : Path) (offset : ℕ) : ℕ :=
  ((s.diskAt (time (.tail p offset))).map (·.ident p)).getD 0

def readsOf (s : RaceState) (time : Call → ℕ) (part : Part) : List Read :=
  readsFrom (s.fileAt time part.plan.path) part.plan.startOffset part.chunks

def logged (s : RaceState) (d : Disk) : RaceState :=
  { s with disk := d, past := s.past ++ [s.disk] }

/-- The state after a poll whose drains ended with `r`. -/
def polled (s : RaceState) (env : Env) (time : Call → ℕ) (ctx : RunContext) (gcDays : ℤ)
    (r : Except Exc (List Part)) : RaceState :=
  let w := (exec (afterDrains lib source u env ctx gcDays r) (World.start s.store)).2
  { s with
    past := []
    store := w.store
    bucket := s.bucket ++ puts w.journal
    reads := s.reads ++
      if puts w.journal = [] then [] else (r.toOption.getD []).flatMap (s.readsOf time) }

end RaceState

/-- What the calls of a poll can meet. The glob lists files that are there, each once; the
prefixes that are read belong to files of at least `fpPrefix` bytes. -/
structure Meets (s : RaceState) (env : Env) (time : Call → ℕ) : Prop where
  fs : ∀ c, (s.diskAt (time c)).map (·.fs) = some (env.fs c)
  order : ∀ c c', Before c c' → time c ≤ time c'
  glob : (env.glob source.pathGlob (env.fs (.glob source.name))).Subperm
    (env.fs (.glob source.name)).keys
  large : ∀ p node, env.file (.prefixSize p) p = some node → fpPrefix ≤ node.data.length

inductive RaceStep : RaceState → RaceEvent → RaceState → Prop
  | logger {s d} (h : LoggerStep s.disk d) : RaceStep s .logger (s.logged d)
  | poll {s env time ctx gcDays r} (hm : Meets source s env time)
    (hr : DrainsPlans lib source env
      (discover lib env source (s.store.fileOffsets source.name)) r) :
    RaceStep s (.poll env time ctx gcDays) (s.polled lib source u env time ctx gcDays r)

/-- A log source from the time when nothing is stored of it, over any files. -/
structure RaceInit (s : RaceState) : Prop where
  disk : DiskInv s.disk
  past : s.past = []
  offsets : s.store.fileOffsets source.name = ∅
  bucket : s.bucket = []
  reads : s.reads = []

def racingPolls : System RaceState RaceEvent where
  init := RaceInit source
  step := RaceStep lib source u

/-! ### What is asked of it -/

/-- The numbers of the files with a fingerprint. -/
def filesOf (d : Disk) (digest : HexDigest) : List ℕ :=
  (d.fs.entries.filter fun e => fingerprintOf lib e.2.data = some digest).map fun e => d.ident e.1

/-- The positions of the content with a fingerprint that were read and shipped. -/
def ownBytes (s : RaceState) (digest : HexDigest) : Finset ℕ :=
  ((s.reads.filter fun r => r.file ∈ filesOf lib s.disk digest).flatMap fun r =>
    List.range' r.start (r.stop - r.start)).toFinset

/-- A line of the text between two places where the file may be cut. -/
def WholeLine (codecs : CodecRegistry) (encoding : String) (data : Bytes) (line : String) :
    Prop :=
  ∃ x e text, Boundary encoding data x ∧ Boundary encoding data e ∧
    decode codecs encoding ((data.take e).drop x) = .ok text ∧ line ∈ textLines text

/-- The line is a complete line of some file. -/
def OnDisk (d : Disk) (line : String) : Prop :=
  ∃ p node, d.fs.lookup p = some node ∧ WholeLine lib.codecs source.encoding node.data line

def shippedLines (s : RaceState) : List String := s.bucket.flatMap fun put => linesIn put.content

/-- The file that was read has these lines where it was read. -/
def ReadsLines (d : Disk) (r : Read) (lines : List String) : Prop :=
  ∃ p node text, d.fs.lookup p = some node ∧ d.ident p = r.file ∧ r.stop ≤ node.data.length ∧
    decode lib.codecs source.encoding ((node.data.take r.stop).drop r.start) = .ok text ∧
    lines = textLines text

structure Uncorrupted (s : RaceState) : Prop where
  offsets : ∀ (digest : HexDigest) (fo : FileOffset),
    (s.store.fileOffsets source.name).lookup digest.val = some fo →
      fo.offset ≤ (ownBytes lib s digest).card
  /-- What was read is uploaded, line by line. -/
  reads : ∀ r ∈ s.reads, ∃ lines, ReadsLines lib source s.disk r lines ∧
    ∃ put ∈ s.bucket, lines <:+: linesIn put.content
  lines : ∀ line ∈ shippedLines s, OnDisk lib source s.disk line

/-- A read from `offset` comes back with lines. -/
def GivesLines (data : Bytes) (offset : ℕ) : Prop :=
  ∃ k text, 0 < k ∧ InWindow source.maxBytesPerPoll offset (offset + k) ∧
    Boundary source.encoding data (offset + k) ∧
    decode lib.codecs source.encoding ((data.drop offset).take k) = .ok text ∧ textLines text ≠ []

/-- A read that comes back with lines finds the file whose prefix was read at the path, and that
has its fingerprint. -/
def readsItsFile : RaceState → RaceEvent → Prop
  | _, .poll env _ _ _ => ∀ p offset before node, env.file (.readPrefix p) p = some before →
      env.file (.tail p offset) p = some node → GivesLines lib source node.data offset →
        fpPrefix ≤ node.data.length ∧ node.data.take fpPrefix = before.data.take fpPrefix
  | _, .logger => True

variable {lib source u}

/-! ### A poll that nothing races with is a run of the source -/

theorem exec_shipSource (env : Env) (ctx : RunContext) (gcDays : ℤ) (w : World) :
    exec (shipSource lib env source u ctx gcDays) w =
      exec (afterDrains lib source u env ctx gcDays
        (drainPlans lib env source
          (discover lib env source (w.store.fileOffsets source.name)))) w := by
  unfold shipSource afterDrains
  rw [exec_bind, exec_bind]
  simp only [exec_call]
  cases env.fault (.getOffsets source.name) with
  | some e => rfl
  | none => simp only [exec_bind, exec_get]

/-- **Files that stand still while they are drained** give the run of the source that there is
without any race. -/
theorem drainsPlans_static {env : Env} {plans : List TailPlan}
    (h : ∀ plan ∈ plans, ∃ data, Static (found env plan.path) data ∧
      Boundary source.encoding data plan.startOffset) {r : Except Exc (List Part)} :
    DrainsPlans lib source env plans r ↔ r = drainPlans lib env source plans := by
  induction plans generalizing r with
  | nil =>
    constructor
    · rintro ⟨⟩
      rfl
    · rintro rfl
      exact .nil
  | cons plan rest ih =>
    obtain ⟨data, hc, hs⟩ := h plan List.mem_cons_self
    have hdrain : DrainsPlan lib source env plan (drainPlan lib env source plan) :=
      drains_drainFile hc hs
    have ih := @ih fun plan hp => h plan (List.mem_cons_of_mem _ hp)
    rw [drainPlans]
    constructor
    · intro hr
      cases hr with
      | raised hplan =>
        rw [hdrain.unique hplan]
        rfl
      | later hplan hrest =>
        rw [hdrain.unique hplan, ← ih.mp hrest]
        rfl
      | cons hplan hrest =>
        rw [hdrain.unique hplan, ← ih.mp hrest]
        rfl
    · rintro rfl
      rcases hplan : drainPlan lib env source plan with e | chunks <;> rw [hplan] at hdrain
      · exact .raised hdrain
      · rcases hrest : drainPlans lib env source rest with e | parts
        · exact .later hdrain (ih.mpr hrest.symm)
        · exact .cons hdrain (ih.mpr hrest.symm)

/-! ### What a poll does to the state -/

section Poll

variable {env : Env} {time : Call → ℕ} {ctx : RunContext} {gcDays : ℤ} {s : RaceState}
  {r : Except Exc (List Part)}

lemma afterDrains_ensures {w : World} :
    Ensures (afterDrains lib source u env ctx gcDays r) w fun _ w' => Wrote w w' [] ∨
      ∃ parts j, r = .ok parts ∧ Wrote w w' j ∧ ShipJournal env source u ctx parts j := by
  unfold afterDrains
  rw [ensures_bind]
  refine ensures_call (fun e => .inl .nil) fun _ => ?_
  rw [ensures_bind]
  refine ensures_lift ?_
  rcases r with e | parts
  · exact .inl .nil
  simp only
  split_ifs with hne
  · exact .inl .nil
  · refine (deliver_ensures hne).mono fun r w' ⟨j, hj, hship⟩ => ?_
    exact .inr ⟨parts, j, rfl, hj, hship⟩

/-- The object of an upload. -/
def objectOf (u : S3Uploader) (source : LogSourceConfig) (env : Env) (ctx : RunContext)
    (parts : List Part) : Put :=
  ⟨logsKey u.pre source.name ctx.runDt, .ndjson (recordsOf env source ctx parts)⟩

/-- The state after a poll, by what it collected. -/
inductive Polled (source : LogSourceConfig) (u : S3Uploader) (s : RaceState) (env : Env)
    (time : Call → ℕ) (ctx : RunContext) (parts : List Part) : RaceState → Prop
  | uploaded : Polled source u s env time ctx parts
      { s with
        past := []
        bucket := s.bucket ++ [objectOf u source env ctx parts]
        reads := s.reads ++ parts.flatMap (s.readsOf time) }
  | committed {deletes} (hdel : Deletions source.name (currentKeys parts) deletes) :
    Polled source u s env time ctx parts
      { s with
        past := []
        bucket := s.bucket ++ [objectOf u source env ctx parts]
        reads := s.reads ++ parts.flatMap (s.readsOf time)
        store := replay (s.store.setOffsets source.name (offsetsToCommit env parts)
          (env.clock (.setOffsets source.name))) deletes }

lemma polled_eq {j : List Effect}
    (h : Wrote (World.start s.store)
      (exec (afterDrains lib source u env ctx gcDays r) (World.start s.store)).2 j) :
    s.polled lib source u env time ctx gcDays r =
      { s with
        past := []
        store := replay s.store j
        bucket := s.bucket ++ puts j
        reads := s.reads ++
          if puts j = [] then [] else (r.toOption.getD []).flatMap (s.readsOf time) } := by
  have hstore := h.store
  have hjournal := h.2
  simp only [RaceState.polled, hstore, hjournal]
  rfl

/-- **A poll**, by its outcome. -/
theorem polled_cases : s.polled lib source u env time ctx gcDays r = { s with past := [] } ∨
    ∃ parts, r = .ok parts ∧ Polled source u s env time ctx parts
      (s.polled lib source u env time ctx gcDays r) := by
  have hend : Wrote _ _ _ ∨ _ :=
    @afterDrains_ensures lib source u env ctx gcDays r (World.start s.store)
  rcases hend with h | ⟨parts, j, rfl, hj, hship⟩
  · exact .inl (by rw [polled_eq h]; simp [puts])
  rw [polled_eq hj]
  cases hship with
  | nothing => exact .inl (by simp [puts])
  | uploaded hne hdry =>
    refine .inr ⟨parts, rfl, ?_⟩
    have hputs : ∀ a, puts [Effect.put a] = [a] := fun _ => rfl
    simp only [hputs, replay_cons, replay_nil, apply, List.cons_ne_nil, if_false]
    exact .uploaded
  | @committed deletes hne hdry hdel =>
    refine .inr ⟨parts, rfl, ?_⟩
    have hputs : ∀ a b c d, puts (Effect.put a :: Effect.setOffsets b c d :: deletes) = [a] :=
      fun a b c d => by simpa [puts] using (deletions_puts hdel).1
    simp only [hputs, replay_cons, apply, List.cons_ne_nil, if_false]
    exact .committed hdel

end Poll

/-! ### What a file keeps -/

/-- The bytes of a file before `n` were read. -/
def Covered (reads : List Read) (file n : ℕ) : Prop :=
  ∀ b < n, ∃ r ∈ reads, r.file = file ∧ r.start ≤ b ∧ b < r.stop

/-- An offset into the content with a fingerprint, all before it read. -/
def Owned (lib : Libs) (source : LogSourceConfig) (d : Disk) (reads : List Read)
    (digest : HexDigest) (n : ℕ) : Prop :=
  n = 0 ∨ ∃ p node, d.fs.lookup p = some node ∧ fingerprintOf lib node.data = some digest ∧
    Boundary source.encoding node.data n ∧ Covered reads (d.ident p) n

variable {d d' : Disk} {reads reads' : List Read} {digest : HexDigest} {n : ℕ}

lemma Covered.mono {file : ℕ} (hsub : reads ⊆ reads') (h : Covered reads file n) :
    Covered reads' file n := by
  intro b hb
  obtain ⟨r, hr, hrest⟩ := h b hb
  exact ⟨r, hsub hr, hrest⟩

lemma Owned.mono (hg : Grows d d') (hsub : reads ⊆ reads')
    (h : Owned lib source d reads digest n) : Owned lib source d' reads' digest n := by
  rcases h with rfl | ⟨p, node, hn, hfp, hb, hcov⟩
  · exact .inl rfl
  obtain ⟨p', node', hn', hid, hpre⟩ := hg p node hn
  refine .inr ⟨p', node', hn', fingerprintOf_mono hpre hfp, cutAt_mono _ hpre hb, ?_⟩
  rw [hid]
  exact hcov.mono hsub

lemma Owned.aligned (h : Owned lib source d reads digest n) : Aligned source.encoding n := by
  rcases h with rfl | ⟨-, node, -, -, hb, -⟩
  · exact fun _ => rfl
  · exact boundary_aligned hb

lemma OnDisk.mono {line : String} (hg : Grows d d') (h : OnDisk lib source d line) :
    OnDisk lib source d' line := by
  obtain ⟨p, node, hn, x, e, text, hx, he, htext, hline⟩ := h
  obtain ⟨p', node', hn', -, hpre⟩ := hg p node hn
  refine ⟨p', node', hn', x, e, text, cutAt_mono _ hpre hx, cutAt_mono _ hpre he, ?_, hline⟩
  rw [take_mono hpre he.1]
  exact htext

lemma ReadsLines.mono {r : Read} {lines : List String} (hg : Grows d d')
    (h : ReadsLines lib source d r lines) : ReadsLines lib source d' r lines := by
  obtain ⟨p, node, text, hn, hfile, hstop, htext, rfl⟩ := h
  obtain ⟨p', node', hn', hid, hpre⟩ := hg p node hn
  refine ⟨p', node', text, hn', hid.trans hfile, hstop.trans hpre.length_le, ?_, rfl⟩
  rw [take_mono hpre hstop]
  exact htext

/-- A read goes on where the bytes before were read, in the same file. -/
lemma Owned.read (hsha : Function.Injective lib.sha256) (hd : DistinctPrefixes d.fs) {p : Path}
    {node : Node} {k : ℕ} (hn : d.fs.lookup p = some node)
    (hfp : fingerprintOf lib node.data = some digest)
    (hb : Boundary source.encoding node.data (n + k)) (h : Owned lib source d reads digest n) :
    Boundary source.encoding node.data n ∧
      Owned lib source d (reads ++ [⟨d.ident p, n, n + k⟩]) digest (n + k) := by
  have hold : Boundary source.encoding node.data n ∧ Covered reads (d.ident p) n := by
    rcases h with rfl | ⟨q, m, hm, hfm, hbm, hcov⟩
    · exact ⟨cutAt_zero _ _, fun b hb => by omega⟩
    · obtain rfl := fingerprint_unique hsha hd hm hn hfm hfp
      obtain rfl := Option.some.inj (hm.symm.trans hn)
      exact ⟨hbm, hcov⟩
  refine ⟨hold.1, .inr ⟨p, node, hn, hfp, hb, fun b hlt => ?_⟩⟩
  by_cases hbn : b < n
  · exact hold.2.mono (List.subset_append_left _ _) b hbn
  · exact ⟨⟨d.ident p, n, n + k⟩, by simp, rfl, Nat.not_lt.mp hbn, hlt⟩

/-! ### What the calls of a poll find -/

/-- The chunk of a read that comes back with lines: up to the last cut of the window. -/
lemma tailFile_givesLines {data : Bytes} {x : ℕ} {chunk : TailChunk}
    (ha : Aligned source.encoding x)
    (h : tailFile lib.codecs (some data) x source.encoding source.maxBytesPerPoll = .ok chunk)
    (hlines : chunk.lines ≠ []) :
    ∃ k text, 0 < k ∧ InWindow source.maxBytesPerPoll x (x + k) ∧
      Boundary source.encoding data (x + k) ∧
      decode lib.codecs source.encoding ((data.drop x).take k) = .ok text ∧
      chunk = ⟨textLines text, x + k⟩ := by
  obtain ⟨raw, hraw, ht⟩ := tailFile_cases ha h
  have hpre := readBytes_initial hraw
  cases ht with
  | none => exact absurd rfl hlines
  | @lines k text hpos hle hcut hlast htext =>
    have htake : raw.take k = (data.drop x).take k := (take_mono hpre hle).symm
    have hend : x + k ≤ data.length := by
      have := hpre.length_le
      rw [List.length_drop] at this
      omega
    exact ⟨k, text, hpos, (window_length hraw hend).mp hle,
      boundary_of_window ha hpos hend (htake ▸ hcut), htake ▸ htext, rfl⟩

/-- A plan of a poll that reads whole prefixes: the fingerprint of what was read at its path, and
a start that is `0` or stored under that. -/
lemma planFor_large {env : Env} {offsets : Offsets} {p : Path} {plan : TailPlan}
    (hlarge : ∀ node, env.file (.prefixSize p) p = some node → fpPrefix ≤ node.data.length)
    (h : planFor lib env offsets p = some plan) :
    ∃ before, env.file (.readPrefix p) p = some before ∧
      plan.fingerprint = some (lib.sha256 (before.data.take fpPrefix)) ∧
      (plan.startOffset = 0 ∨ ∃ fo,
        offsets.lookup (lib.sha256 (before.data.take fpPrefix)).val = some fo ∧
          plan.startOffset = fo.offset) := by
  unfold planFor fingerprint at h
  simp only [Option.bind_eq_bind, Option.bind_eq_some_iff] at h
  obtain ⟨fp, ⟨st, hst, hfp⟩, h⟩ := h
  rw [if_neg (Nat.not_lt.mpr (hlarge st hst))] at hfp
  obtain ⟨before, hbefore, hfp⟩ := Option.bind_eq_some_iff.mp hfp
  obtain rfl := Option.some.inj hfp
  refine ⟨before, hbefore, ?_⟩
  simp only at h
  rcases ho : offsets.lookup (lib.sha256 (before.data.take fpPrefix)).val with _ | fo
  · simp only [ho] at h
    obtain rfl := Option.some.inj h
    exact ⟨rfl, .inl rfl⟩
  · simp only [ho] at h
    obtain ⟨node, -, h⟩ := Option.bind_eq_some_iff.mp h
    obtain rfl := Option.some.inj h
    refine ⟨rfl, ?_⟩
    show resume fo node.data.length = 0 ∨ _
    unfold resume
    split_ifs
    · exact .inl rfl
    · exact .inr ⟨fo, rfl, rfl⟩

structure RaceInv (lib : Libs) (source : LogSourceConfig) (s : RaceState) : Prop where
  disk : DiskInv s.disk
  past : ∀ t d, s.diskAt t = some d → Grows d s.disk
  offsets : ∀ (digest : HexDigest) (fo : FileOffset),
    (s.store.fileOffsets source.name).lookup digest.val = some fo →
      Owned lib source s.disk s.reads digest fo.offset
  reads : ∀ r ∈ s.reads, ∃ lines, ReadsLines lib source s.disk r lines ∧
    ∃ put ∈ s.bucket, lines <:+: linesIn put.content
  lines : ∀ line ∈ shippedLines s, OnDisk lib source s.disk line

section Race

variable {env : Env} {time : Call → ℕ} {ctx : RunContext} {gcDays : ℤ} {s : RaceState}

/-- What a call finds at a path is still there, under its number. -/
lemma Meets.file (hinv : RaceInv lib source s) (hm : Meets source s env time) {c : Call}
    {p : Path} {m : Node} (h : env.file c p = some m) :
    ∃ q node, s.disk.fs.lookup q = some node ∧ m.data <+: node.data ∧
      ((s.diskAt (time c)).map (·.ident p)).getD 0 = s.disk.ident q := by
  obtain ⟨d, hd, hfs⟩ := Option.map_eq_some_iff.mp (hm.fs c)
  have hlook : d.fs.lookup p = some m := by
    rw [hfs]
    unfold Env.file at h
    split_ifs at h
    exact h
  obtain ⟨q, node, hn, hid, hpre⟩ := hinv.past _ d hd p m hlook
  exact ⟨q, node, hn, hpre, by rw [hd, hid]; rfl⟩

/-- A read of a plan that comes back with lines, of the content with its fingerprint. -/
structure OwnRead (lib : Libs) (source : LogSourceConfig) (d : Disk) (digest : HexDigest)
    (file offset : ℕ) (chunk : TailChunk) (q : Path) (node : Node) (k : ℕ) (text : List Char) :
    Prop where
  lookup : d.fs.lookup q = some node
  fingerprint : fingerprintOf lib node.data = some digest
  file : file = d.ident q
  pos : 0 < k
  boundary : Boundary source.encoding node.data (offset + k)
  decoded : decode lib.codecs source.encoding ((node.data.drop offset).take k) = .ok text
  eq : chunk = ⟨textLines text, offset + k⟩

lemma read_own (hinv : RaceInv lib source s) (hm : Meets source s env time)
    (hown : readsItsFile lib source s (.poll env time ctx gcDays)) {p : Path} {before : Node}
    (hbefore : env.file (.readPrefix p) p = some before) {offset : ℕ} {chunk : TailChunk}
    (ha : Aligned source.encoding offset)
    (h : tailFile lib.codecs (found env p offset) offset source.encoding
      source.maxBytesPerPoll = .ok chunk) (hlines : chunk.lines ≠ []) :
    ∃ q node k text, OwnRead lib source s.disk (lib.sha256 (before.data.take fpPrefix))
      (s.fileAt time p offset) offset chunk q node k text := by
  unfold found at h
  rcases hfile : env.file (.tail p offset) p with _ | m
  · rw [hfile, Option.map_none, tailFile_none] at h
    obtain rfl := Except.ok.inj h
    exact absurd rfl hlines
  rw [hfile, Option.map_some] at h
  obtain ⟨k, text, hpos, hwin, hb, htext, rfl⟩ := tailFile_givesLines ha h hlines
  obtain ⟨hl, hprefix⟩ :=
    hown p offset before m hbefore hfile ⟨k, text, hpos, hwin, hb, htext, hlines⟩
  obtain ⟨q, node, hn, hpre, hid⟩ := hm.file hinv hfile
  have hfp : fingerprintOf lib node.data = some (lib.sha256 (before.data.take fpPrefix)) := by
    rw [← hprefix]
    exact fingerprintOf_mono hpre (fingerprintOf_large hl)
  refine ⟨q, node, k, text, hn, hfp, hid, hpos, cutAt_mono _ hpre hb, ?_, rfl⟩
  have hle : k ≤ (m.data.drop offset).length := by
    have := hb.1
    rw [List.length_drop]
    omega
  rw [take_mono (hpre.drop offset) hle]
  exact htext

variable {digest : HexDigest} {reads : List Read}

lemma OwnRead.readsLines {file offset k : ℕ} {chunk : TailChunk} {q : Path} {node : Node}
    {text : List Char}
    (h : OwnRead lib source s.disk digest file offset chunk q node k text) :
    ReadsLines lib source s.disk ⟨file, offset, chunk.newOffset⟩ chunk.lines := by
  obtain ⟨hn, -, rfl, -, hb, htext, rfl⟩ := h
  refine ⟨q, node, text, hn, rfl, hb.1, ?_, rfl⟩
  rw [List.drop_take, Nat.add_sub_cancel_left]
  exact htext

/-- Where the bytes before a read are read, so are those before its end, and its lines are
complete. -/
lemma OwnRead.owned {file offset k : ℕ} {chunk : TailChunk} {q : Path} {node : Node}
    {text : List Char} (hsha : Function.Injective lib.sha256) (hd : DistinctPrefixes s.disk.fs)
    (h : OwnRead lib source s.disk digest file offset chunk q node k text)
    (ho : Owned lib source s.disk reads digest offset) :
    Owned lib source s.disk (reads ++ [⟨file, offset, chunk.newOffset⟩]) digest chunk.newOffset ∧
      ∀ line ∈ chunk.lines, OnDisk lib source s.disk line := by
  obtain ⟨hn, hfp, rfl, -, hb, htext, rfl⟩ := h
  obtain ⟨hstart, hend⟩ := ho.read hsha hd hn hfp hb
  refine ⟨hend, fun line hline => ⟨q, node, hn, offset, offset + k, text, hstart, hb, ?_, hline⟩⟩
  rw [List.drop_take, Nat.add_sub_cancel_left]
  exact htext

/-- The reads of a drain are those of its chunks. -/
def ReadsChunks (lib : Libs) (source : LogSourceConfig) (d : Disk) (reads : List Read)
    (chunks : List TailChunk) : Prop :=
  ∀ r ∈ reads, ∃ chunk ∈ chunks, ReadsLines lib source d r chunk.lines

/-- **A drain that reads its own file** ends where all bytes before are read. The induction is on
the turns of the loop; each hands the next what it has read. -/
lemma drain_owned (hsha : Function.Injective lib.sha256) (hinv : RaceInv lib source s)
    (hm : Meets source s env time)
    (hown : readsItsFile lib source s (.poll env time ctx gcDays)) {p : Path} {before : Node}
    (hbefore : env.file (.readPrefix p) p = some before)
    (hdigest : lib.sha256 (before.data.take fpPrefix) = digest) {fuel start : ℕ}
    {chunks : List TailChunk}
    (h : drainLoop lib.codecs (found env p) source.encoding source.maxBytesPerPoll fuel start =
      .ok chunks) (ho : Owned lib source s.disk reads digest start) :
    Owned lib source s.disk (reads ++ readsFrom (s.fileAt time p) start chunks) digest
        (chunks.foldl (fun _ chunk => chunk.newOffset) start) ∧
      ReadsChunks lib source s.disk (readsFrom (s.fileAt time p) start chunks) chunks ∧
      ∀ chunk ∈ chunks, ∀ line ∈ chunk.lines, OnDisk lib source s.disk line := by
  have hnil : ∀ {reads start}, Owned lib source s.disk reads digest start →
      Owned lib source s.disk (reads ++ readsFrom (s.fileAt time p) start []) digest start := by
    intro reads start ho
    rwa [readsFrom, List.append_nil]
  induction fuel generalizing start chunks reads with
  | zero =>
    obtain rfl := Except.ok.inj h
    exact ⟨hnil ho, fun r hr => (by cases hr), by simp⟩
  | succ fuel ih =>
    obtain ⟨chunk, hchunk, ⟨-, rfl⟩ | ⟨hlines, hgo⟩⟩ := drainLoop_turn h
    · exact ⟨hnil ho, fun r hr => (by cases hr), by simp⟩
    obtain ⟨q, node, k, text, hread⟩ := read_own hinv hm hown hbefore ho.aligned hchunk hlines
    rw [hdigest] at hread
    have hmoved : chunk.newOffset ≠ start := by
      have := hread.pos
      rw [hread.eq]
      show start + k ≠ start
      omega
    obtain ⟨rest, hrest, rfl⟩ := hgo hmoved
    obtain ⟨hnext, hcomplete⟩ := hread.owned hsha hinv.disk.distinct ho
    obtain ⟨hend, hreads, hall⟩ := ih hrest hnext
    rw [List.append_assoc] at hend
    refine ⟨hend, fun r hr => ?_, fun c hc => ?_⟩
    · rcases List.mem_cons.mp hr with rfl | hr
      · exact ⟨chunk, List.mem_cons_self, hread.readsLines⟩
      · obtain ⟨c, hc, hlines⟩ := hreads r hr
        exact ⟨c, List.mem_cons_of_mem _ hc, hlines⟩
    rcases List.mem_cons.mp hc with rfl | hc
    · exact hcomplete
    · exact hall c hc

/-! ### A poll -/

variable {plans : List TailPlan} {parts : List Part} {part : Part}

lemma drainsPlans_ok (h : DrainsPlans lib source env plans (.ok parts)) :
    parts.map (·.plan) = plans ∧
      ∀ part ∈ parts, DrainsPlan lib source env part.plan (.ok part.chunks) := by
  induction plans generalizing parts with
  | nil =>
    cases h
    simp
  | cons plan rest ih =>
    cases h with
    | cons hplan hrest =>
      obtain ⟨h1, h2⟩ := ih hrest
      refine ⟨by rw [List.map_cons, h1], fun part hpart => ?_⟩
      rcases List.mem_cons.mp hpart with rfl | hpart
      · exact hplan
      · exact h2 part hpart

/-- **Every part of a poll** has a fingerprint, and ends where all bytes before are read. -/
lemma part_owned (hsha : Function.Injective lib.sha256) (hinv : RaceInv lib source s)
    (hm : Meets source s env time) (hown : readsItsFile lib source s (.poll env time ctx gcDays))
    (h : DrainsPlans lib source env
      (discover lib env source (s.store.fileOffsets source.name)) (.ok parts))
    (hpart : part ∈ parts) :
    ∃ digest : HexDigest, part.plan.key = digest.val ∧
      Owned lib source s.disk (s.reads ++ s.readsOf time part) digest part.endOffset ∧
      ReadsChunks lib source s.disk (s.readsOf time part) part.chunks ∧
      ∀ chunk ∈ part.chunks, ∀ line ∈ chunk.lines, OnDisk lib source s.disk line := by
  obtain ⟨hplans, hdrains⟩ := drainsPlans_ok h
  have hmem : part.plan ∈ discover lib env source (s.store.fileOffsets source.name) := by
    rw [← hplans]
    exact List.mem_map_of_mem hpart
  obtain ⟨e, -, he⟩ := List.mem_filterMap.mp hmem
  rw [← planFor_path he] at he
  obtain ⟨before, hbefore, hfp, hstart⟩ := planFor_large (hm.large _) he
  have ho : Owned lib source s.disk s.reads (lib.sha256 (before.data.take fpPrefix))
      part.plan.startOffset := by
    rcases hstart with h0 | ⟨fo, hfo, hoff⟩
    · exact .inl h0
    · rw [hoff]
      exact hinv.offsets _ fo hfo
  obtain ⟨fuel, hfuel⟩ := hdrains part hpart
  exact ⟨_, key_of_fingerprint hfp,
    drain_owned hsha hinv hm hown hbefore rfl (hfuel fuel le_rfl) ho⟩

lemma mem_lines_recordsOf {line : String}
    (h : line ∈ (recordsOf env source ctx parts).map (·.line)) :
    ∃ part ∈ parts, ∃ chunk ∈ part.chunks, line ∈ chunk.lines := by
  obtain ⟨r, hr, rfl⟩ := List.mem_map.mp h
  obtain ⟨part, hpart, hr⟩ := List.mem_flatMap.mp hr
  obtain ⟨chunk, hchunk, hr⟩ := List.mem_flatMap.mp hr
  obtain ⟨line, hline, rfl⟩ := List.mem_map.mp hr
  exact ⟨part, hpart, chunk, hchunk, hline⟩

/-- The lines of a chunk are uploaded as they are. -/
lemma chunk_uploaded {chunk : TailChunk} (hpart : part ∈ parts) (hchunk : chunk ∈ part.chunks) :
    chunk.lines <:+: linesIn (objectOf u source env ctx parts).content := by
  have hpart : part.records env source ctx <:+: recordsOf env source ctx parts :=
    List.infix_of_mem_flatten (List.mem_map_of_mem hpart)
  have hchunk : chunkRecords env source ctx part.plan chunk <:+: part.records env source ctx :=
    List.infix_of_mem_flatten (List.mem_map_of_mem hchunk)
  have hlines : chunk.lines = (chunkRecords env source ctx part.plan chunk).map (·.line) := by
    simp [chunkRecords, Function.comp_def]
  rw [hlines]
  exact (hchunk.trans hpart).map _

/-- Now that the poll has ended, its moments are past. -/
lemma RaceInv.ended (h : RaceInv lib source s) : RaceInv lib source { s with past := [] } := by
  refine ⟨h.disk, fun t d hd => ?_, h.offsets, h.reads, h.lines⟩
  have : d = s.disk := by
    rw [RaceState.diskAt, List.nil_append] at hd
    have := List.mem_of_getElem? hd
    exact List.mem_singleton.mp this
  rw [this]
  exact .refl _

lemma raceInv_polled (hsha : Function.Injective lib.sha256) (hinv : RaceInv lib source s)
    (hm : Meets source s env time) (hown : readsItsFile lib source s (.poll env time ctx gcDays))
    {r : Except Exc (List Part)}
    (hr : DrainsPlans lib source env
      (discover lib env source (s.store.fileOffsets source.name)) r) :
    RaceInv lib source (s.polled lib source u env time ctx gcDays r) := by
  rcases @polled_cases lib source u env time ctx gcDays s r with heq | ⟨parts, rfl, hpoll⟩
  · rw [heq]
    exact hinv.ended
  have hparts := fun part =>
    @part_owned lib source env time ctx gcDays s parts part hsha hinv hm hown hr
  have hlines : ∀ line ∈ shippedLines { s with
      bucket := s.bucket ++ [objectOf u source env ctx parts] }, OnDisk lib source s.disk line := by
    intro line hline
    rw [shippedLines, List.flatMap_append, List.mem_append] at hline
    rcases hline with hold | hnew
    · exact hinv.lines line hold
    rw [List.flatMap_singleton] at hnew
    obtain ⟨part, hpart, chunk, hchunk, hl⟩ := mem_lines_recordsOf hnew
    obtain ⟨-, -, -, -, hcomplete⟩ := hparts part hpart
    exact hcomplete chunk hchunk line hl
  have hreads : ∀ r ∈ s.reads ++ parts.flatMap (s.readsOf time), ∃ lines,
      ReadsLines lib source s.disk r lines ∧
        ∃ put ∈ s.bucket ++ [objectOf u source env ctx parts], lines <:+: linesIn put.content := by
    intro r hr
    rcases List.mem_append.mp hr with hold | hnew
    · obtain ⟨lines, hlines, put, hput, hin⟩ := hinv.reads r hold
      exact ⟨lines, hlines, put, List.mem_append_left _ hput, hin⟩
    · obtain ⟨part, hpart, hr⟩ := List.mem_flatMap.mp hnew
      obtain ⟨-, -, -, hchunks, -⟩ := hparts part hpart
      obtain ⟨chunk, hchunk, hlines⟩ := hchunks r hr
      exact ⟨chunk.lines, hlines, _, List.mem_append_right _ List.mem_cons_self,
        chunk_uploaded hpart hchunk⟩
  have hold : s.reads ⊆ s.reads ++ parts.flatMap (s.readsOf time) := List.subset_append_left _ _
  have hpast := hinv.ended.past
  generalize s.polled lib source u env time ctx gcDays (.ok parts) = s' at hpoll
  cases hpoll with
  | uploaded =>
    exact ⟨hinv.disk, hpast, fun digest fo hfo => (hinv.offsets digest fo hfo).mono (.refl _) hold,
      hreads, hlines⟩
  | @committed deletes hdel =>
    refine ⟨hinv.disk, hpast, fun digest fo hfo => ?_, hreads, hlines⟩
    rcases @committed_lookup source s.store ⟨env, ctx, parts, s.disk.ident⟩ deletes _ hdel _ fo hfo
      with ⟨part, hpart, hkey, hoff⟩ | ⟨-, hfo⟩
    · obtain ⟨digest', hkey', ho, -⟩ := hparts part hpart
      obtain rfl : digest' = digest := Subtype.val_injective (hkey'.symm.trans hkey)
      rw [hoff]
      refine ho.mono (.refl _) (List.append_subset.mpr ⟨hold, fun r hr => ?_⟩)
      exact List.mem_append_right _ (List.mem_flatMap.mpr ⟨part, hpart, hr⟩)
    · exact (hinv.offsets digest fo hfo).mono (.refl _) hold

lemma raceInv_logged (hinv : RaceInv lib source s) {d : Disk} (h : LoggerStep s.disk d) :
    RaceInv lib source (s.logged d) := by
  refine ⟨h.inv hinv.disk, fun t d' hd' => ?_, fun digest fo hfo => ?_, fun r hr => ?_,
    fun line hline => ?_⟩
  · show Grows d' d
    have hmem : d' ∈ (s.past ++ [s.disk]) ++ [d] := List.mem_of_getElem? hd'
    rcases List.mem_append.mp hmem with hold | hnew
    · obtain ⟨t, ht⟩ := List.mem_iff_getElem?.mp hold
      exact (hinv.past t d' ht).trans h.grows
    · rw [List.mem_singleton.mp hnew]
      exact .refl _
  · exact (hinv.offsets digest fo hfo).mono h.grows (List.Subset.refl _)
  · obtain ⟨lines, hlines, hput⟩ := hinv.reads r hr
    exact ⟨lines, hlines.mono h.grows, hput⟩
  · exact (hinv.lines line hline).mono h.grows

/-! ### Runs -/

theorem raceInv (hsha : Function.Injective lib.sha256)
    (h : ((racingPolls lib source u).restrict (readsItsFile lib source)).Reachable s) :
    RaceInv lib source s := by
  refine h.invariant (fun s hs => ?_) fun s e s' _ hinv hstep => ?_
  · refine ⟨hs.disk, fun t d hd => ?_, fun digest fo hfo => ?_, fun r hr => ?_,
      fun line hline => ?_⟩
    · rw [RaceState.diskAt, hs.past] at hd
      rw [List.mem_singleton.mp (List.mem_of_getElem? hd)]
      exact .refl _
    · rw [hs.offsets] at hfo
      cases hfo
    · rw [hs.reads] at hr
      cases hr
    · rw [shippedLines, hs.bucket] at hline
      cases hline
  · obtain ⟨hok, hstep⟩ := hstep
    cases hstep with
    | logger h => exact raceInv_logged hinv h
    | poll hm hr => exact raceInv_polled hsha hinv hm hok hr

lemma mem_filesOf {file : ℕ} {p : Path} {node : Node} (hn : s.disk.fs.lookup p = some node)
    (hfp : fingerprintOf lib node.data = some digest) (hfile : s.disk.ident p = file) :
    file ∈ filesOf lib s.disk digest := by
  refine List.mem_map.mpr ⟨⟨p, node⟩, List.mem_filter.mpr ⟨AList.mem_lookup_iff.mp hn, ?_⟩, hfile⟩
  exact decide_eq_true hfp

/-- All positions before an owned offset are among the bytes that were read. -/
lemma Owned.le_card {n : ℕ} (h : Owned lib source s.disk s.reads digest n) :
    n ≤ (ownBytes lib s digest).card := by
  rcases h with rfl | ⟨p, node, hn, hfp, -, hcov⟩
  · exact Nat.zero_le _
  have hsub : Finset.range n ⊆ ownBytes lib s digest := by
    intro b hb
    obtain ⟨r, hr, hfile, hstart, hstop⟩ := hcov b (Finset.mem_range.mp hb)
    refine List.mem_toFinset.mpr (List.mem_flatMap.mpr ⟨r, List.mem_filter.mpr ⟨hr, ?_⟩, ?_⟩)
    · exact decide_eq_true (mem_filesOf hn hfp hfile.symm)
    · exact List.mem_range'_1.mpr ⟨hstart, by omega⟩
  simpa using Finset.card_le_card hsub

/-- **Rotations do not corrupt offsets**, in every run in which each read of a drain that comes
back with lines finds the file whose prefix was read: every stored offset counts bytes of the
content with its fingerprint, all of them read and shipped, and every shipped line is a complete
line of some file. -/
theorem racing_polls_uncorrupted (hsha : Function.Injective lib.sha256)
    (h : ((racingPolls lib source u).restrict (readsItsFile lib source)).Reachable s) :
    Uncorrupted lib source s := by
  have hinv := raceInv hsha h
  exact ⟨fun digest fo hfo => (hinv.offsets digest fo hfo).le_card, hinv.reads, hinv.lines⟩

end Race

/-! ### A rotation after the last read, and one before the first -/

/-- The moments of a poll whose drains come at `drain` and whose commit comes at `commit`. -/
def momentOf (drain commit : ℕ) : Call → ℕ
  | .tail .. => drain
  | .sizeAtRead _ => commit
  | _ => 0

lemma momentOf_order {drain commit : ℕ} (h : drain ≤ commit) :
    ∀ c c', Before c c' → momentOf drain commit c ≤ momentOf drain commit c' := by
  rintro c c' (_ | _ | _ | _ | _ | _ | _)
  all_goals first
    | exact le_rfl
    | exact Nat.zero_le _
    | exact h

/-- A poll that finds the disk as it was at these moments. -/
def timedEnv (s : RaceState) (time : Call → ℕ) : Env :=
  { calmEnv s.disk.fs sampleNow with
    fs := fun c => ((s.diskAt (time c)).map (·.fs)).getD s.disk.fs }

lemma timedEnv_meets {s : RaceState} {time : Call → ℕ} (hlt : ∀ c, time c ≤ s.past.length)
    (horder : ∀ c c', Before c c' → time c ≤ time c')
    (hlarge : ∀ p node, (timedEnv s time).file (.prefixSize p) p = some node →
      fpPrefix ≤ node.data.length) : Meets source s (timedEnv s time) time := by
  refine ⟨fun c => ?_, horder, List.Subperm.refl _, hlarge⟩
  obtain ⟨d, hd⟩ : ∃ d, s.diskAt (time c) = some d := by
    refine ⟨_, List.getElem?_eq_getElem ?_⟩
    have := hlt c
    rw [List.length_append, List.length_singleton]
    omega
  simp only [timedEnv, hd, Option.map_some, Option.getD_some]

/-- Where nothing is stored, a poll of large files starts each of them at `0`. -/
lemma discover_fresh {env : Env} {plan : TailPlan}
    (hlarge : ∀ p node, env.file (.prefixSize p) p = some node → fpPrefix ≤ node.data.length)
    (h : plan ∈ discover lib env source ∅) : plan.startOffset = 0 := by
  obtain ⟨e, -, he⟩ := List.mem_filterMap.mp h
  obtain ⟨before, -, -, hstart⟩ := planFor_large (hlarge e.2) he
  rcases hstart with h0 | ⟨fo, hfo, -⟩
  · exact h0
  · cases hfo

def headerDisk : Disk := ⟨(∅ : FS).insert "a.log" ⟨headerBytes, 0, true⟩, fun _ => 0, 1⟩

def headerState : RaceState := ⟨headerDisk, [], StateStore.empty, [], []⟩

/-- The file is renamed, and nothing is at its path. -/
def renamedState : RaceState :=
  headerState.logged (headerDisk.rename "a.log" "a.0.log" ⟨headerBytes, 0, true⟩)

lemma headerBytes_large : fpPrefix ≤ headerBytes.length := by decide +kernel

lemma headerDisk_lookup {p : Path} {node : Node} (h : headerDisk.fs.lookup p = some node) :
    p = "a.log" ∧ node.data = headerBytes := by
  by_cases hp : p = "a.log"
  · subst hp
    rw [headerDisk, AList.lookup_insert] at h
    exact ⟨rfl, (Option.some.inj h) ▸ rfl⟩
  · rw [headerDisk, AList.lookup_insert_ne hp] at h
    cases h

lemma headerState_init : RaceInit sampleSource headerState := by
  refine ⟨⟨fun p q m n hm hn _ _ _ => ?_, fun p q hp hq _ => ?_, fun p hp => ?_⟩,
    rfl, rfl, rfl, rfl⟩
  · rw [(headerDisk_lookup hm).1, (headerDisk_lookup hn).1]
  · obtain ⟨m, hm⟩ := Option.ne_none_iff_exists'.mp hp
    obtain ⟨n, hn⟩ := Option.ne_none_iff_exists'.mp hq
    rw [(headerDisk_lookup hm).1, (headerDisk_lookup hn).1]
  · exact Nat.zero_lt_one

lemma renamed_step : RaceStep lib source u headerState .logger renamedState :=
  .logger (.rename (AList.lookup_insert _) rfl)

/-- The state after a poll whose drains come at `drain` and whose commit comes at `commit`. -/
def samplePoll (lib : Libs) (s : RaceState) (drain commit : ℕ) : RaceState :=
  let env := timedEnv s (momentOf drain commit)
  s.polled lib sampleSource sampleUploader env (momentOf drain commit) sampleCtx 14
    (drainPlans lib env sampleSource
      (discover lib env sampleSource (s.store.fileOffsets sampleSource.name)))

/-- A poll that starts when there is only the one file, and nothing stored of it. -/
lemma samplePoll_step {s : RaceState} {drain commit : ℕ} (hdrain : drain ≤ commit)
    (hcommit : commit ≤ s.past.length) (hfirst : s.diskAt 0 = some headerDisk)
    (hfresh : s.store.fileOffsets sampleSource.name = ∅) :
    RaceStep lib sampleSource sampleUploader s
      (.poll (timedEnv s (momentOf drain commit)) (momentOf drain commit) sampleCtx 14)
      (samplePoll lib s drain commit) := by
  have hlarge : ∀ p node, (timedEnv s (momentOf drain commit)).file (.prefixSize p) p = some node →
      fpPrefix ≤ node.data.length := by
    intro p node hn
    have hlook : headerDisk.fs.lookup p = some node := by
      have hfs : (timedEnv s (momentOf drain commit)).fs (.prefixSize p) = headerDisk.fs := by
        simp only [timedEnv, momentOf, hfirst, Option.map_some, Option.getD_some]
      rw [← hfs]
      exact hn
    rw [(headerDisk_lookup hlook).2]
    exact headerBytes_large
  have hlt : ∀ c, momentOf drain commit c ≤ s.past.length := by
    rintro c
    cases c <;> simp only [momentOf] <;> omega
  refine .poll (timedEnv_meets hlt (momentOf_order hdrain) hlarge)
    (drainsPlans_static (fun plan hplan => ?_) |>.mpr rfl)
  have hstart : plan.startOffset = 0 := by
    rw [hfresh] at hplan
    exact discover_fresh hlarge hplan
  rw [hstart]
  -- all reads of a path come at one moment
  have hsame : ∀ o, found (timedEnv s (momentOf drain commit)) plan.path o =
      found (timedEnv s (momentOf drain commit)) plan.path 0 := fun _ => rfl
  rcases hfound : found (timedEnv s (momentOf drain commit)) plan.path 0 with _ | data
  · exact ⟨[], fun o => .inr ((hsame o).trans hfound), cutAt_zero _ _⟩
  · exact ⟨data, fun o => .inl ((hsame o).trans hfound), cutAt_zero _ _⟩

theorem racing_polls_uncorrupted_sample :
    Uncorrupted plainLibs sampleSource (samplePoll plainLibs renamedState 0 1) := by
  have hlogged : readsItsFile plainLibs sampleSource headerState .logger := trivial
  refine racing_polls_uncorrupted hexBytes_injective (u := sampleUploader)
    (.step (.step (.init headerState_init) ⟨hlogged, renamed_step⟩)
      ⟨?_, samplePoll_step (Nat.zero_le _) le_rfl rfl rfl⟩)
  intro p offset before node hbefore hnode _
  have hsame : before = node := Option.some.inj (hbefore.symm.trans hnode)
  have hlook : headerDisk.fs.lookup p = some before := hbefore
  subst hsame
  rw [(headerDisk_lookup hlook).2]
  exact ⟨headerBytes_large, rfl⟩

/-- The header with another letter, and its digest. -/
def otherBytes : Bytes := (List.replicate 64 (List.replicate 63 0x62 ++ [0x0A])).flatten

lemma otherHex_digits :
    ∀ c ∈ "78fa2b9dfd802e6172c938bd17ba2fbc6efabaa72389e7684bfc17700cb19073".toList,
    (Numerals.digit c).isSome := by
  rw [← List.all_eq_true]
  decide +kernel

def otherDigest : HexDigest :=
  ⟨"78fa2b9dfd802e6172c938bd17ba2fbc6efabaa72389e7684bfc17700cb19073", otherHex_digits⟩

def twoLibs : Libs :=
  { plainLibs with sha256 := fun bs => if bs.head? = some 0x62 then otherDigest else headerDigest }

def createdState : RaceState := renamedState.logged (renamedState.disk.create "a.log" 1)

/-- A new file of the same size has taken the path. -/
def writtenState : RaceState :=
  createdState.logged (createdState.disk.append "a.log" ⟨[], 1, true⟩ otherBytes 2)

lemma writtenState_lookup {p : Path} {node : Node} (h : writtenState.disk.fs.lookup p = some node) :
    p = "a.log" ∧ node.data = otherBytes ∨ p = "a.0.log" ∧ node.data = headerBytes := by
  rw [writtenState, RaceState.logged, lookup_append] at h
  split_ifs at h with h1
  · exact .inl ⟨h1, (Option.some.inj h) ▸ rfl⟩
  rw [createdState, RaceState.logged, lookup_create, if_neg h1] at h
  rw [renamedState, RaceState.logged, lookup_rename] at h
  split_ifs at h with h2
  · exact .inr ⟨h2, (Option.some.inj h) ▸ rfl⟩
  · exact absurd (headerDisk_lookup h).1 h1

lemma writtenState_reachable :
    (racingPolls twoLibs sampleSource sampleUploader).Reachable writtenState := by
  have hcreated : RaceStep twoLibs sampleSource sampleUploader renamedState .logger createdState :=
    .logger (.create rfl)
  have hdistinct : DistinctPrefixes writtenState.disk.fs := by
    have hne : otherBytes.take fpPrefix ≠ headerBytes.take fpPrefix := by decide +kernel
    intro p q m n hm hn _ _ heq
    rcases writtenState_lookup hm with ⟨hp, hmd⟩ | ⟨hp, hmd⟩ <;>
      rcases writtenState_lookup hn with ⟨hq, hnd⟩ | ⟨hq, hnd⟩ <;> rw [hmd, hnd] at heq
    · rw [hp, hq]
    · exact absurd heq hne
    · exact absurd heq.symm hne
    · rw [hp, hq]
  have hwritten : RaceStep twoLibs sampleSource sampleUploader createdState .logger writtenState :=
    .logger (.append rfl hdistinct)
  exact .step (.step (.step (.init headerState_init) renamed_step) hcreated) hwritten

/-- The poll that read the prefix of the old file drains the new one, and stores the end of that
under the fingerprint of the old, of which nothing was read. -/
theorem rotation_corrupts_offset :
    (racingPolls twoLibs sampleSource sampleUploader).Reachable
        (samplePoll twoLibs writtenState 3 3) ∧
      (((samplePoll twoLibs writtenState 3 3).store.fileOffsets sampleSource.name).lookup
        headerDigest.val).map (·.offset) = some 4096 ∧
      ownBytes twoLibs (samplePoll twoLibs writtenState 3 3) headerDigest = ∅ ∧
      ¬ Uncorrupted twoLibs sampleSource (samplePoll twoLibs writtenState 3 3) := by
  have hoffset : (((samplePoll twoLibs writtenState 3 3).store.fileOffsets sampleSource.name).lookup
      headerDigest.val).map (·.offset) = some 4096 := by decide +kernel
  have hown : ownBytes twoLibs (samplePoll twoLibs writtenState 3 3) headerDigest = ∅ := by
    decide +kernel
  refine ⟨.step writtenState_reachable (samplePoll_step le_rfl le_rfl rfl rfl), hoffset, hown,
    fun h => ?_⟩
  obtain ⟨fo, hfo, hfour⟩ := Option.map_eq_some_iff.mp hoffset
  have hle := h.offsets headerDigest fo hfo
  rw [hown, Finset.card_empty, hfour] at hle
  exact absurd hle (by decide)

end MongoSyncAgent.RacingPolls
