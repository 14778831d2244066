import MongoSyncAgent.Bson
import MongoSyncAgent.Config
import MongoSyncAgent.Keys
import MongoSyncAgent.Outcomes
import MongoSyncAgent.State
import MongoSyncAgent.Tailer

/-!
What a run of a unit touches: the files of its host, its state store, its spool and the bucket.

Every call that leaves the agent is a `Call`, and the outside world of a run says which of them
fail and what they find. What a run does to the world that outlives it is its journal: the
uploads, in the order in which S3 took them, and the transactions on the state store. The agent
never reads the bucket, so the journal of a run does not depend on what others upload.
-/

namespace MongoSyncAgent.Runtime

open MongoSyncAgent.Py MongoSyncAgent.Codecs MongoSyncAgent.Timestamps MongoSyncAgent.Bson
open MongoSyncAgent.Tailer MongoSyncAgent.State MongoSyncAgent.Outcomes MongoSyncAgent.Config

abbrev Path := String

/-- `path.name` of a Windows path. -/
def pathName (p : Path) : String :=
  String.ofList ((p.toList.splitOnP fun c => c == '/' || c == '\\').getLastD [])

structure Node where
  data : Bytes
  mtime : ℤ
  /-- Whether it is a regular file. -/
  regular : Bool := true

abbrev FS := AList fun _ : Path => Node

/-! ### What is uploaded -/

/-- A row of the landing schema. -/
structure Row where
  payload : String
  id : String
  watermark : String
  extractedAt : Datetime
  host : String
  deriving DecidableEq

structure LogRecord where
  line : String
  host : String
  source : String
  file : String
  fileOffset : ℕ
  shippedAt : Datetime
  deriving DecidableEq

/-- A record of `collect`, each value by its JSON text. -/
structure MetricRecord where
  items : List (String × String)
  deriving DecidableEq

inductive Content
  | parquet (rowGroups : List (List Row))
  | ndjson (records : List LogRecord)
  | metrics (records : List MetricRecord)

structure Put where
  key : String
  content : Content

/-! ### Effects that outlive a run -/

inductive Effect
  | put (p : Put)
  | setWatermark (namespace_ : String) (wm : Watermark)
  | setOffsets (source : String) (offsets : List FileOffset) (updatedAt : Datetime)
  | deleteOffset (source fingerprint : String)

/-- What an effect does to the state store of the host. -/
def apply (s : StateStore) : Effect → StateStore
  | .put _ => s
  | .setWatermark ns wm => s.setWatermark ns wm
  | .setOffsets source offsets updatedAt => s.setOffsets source offsets updatedAt
  | .deleteOffset source fingerprint => s.deleteOffset source fingerprint

def replay (s : StateStore) (journal : List Effect) : StateStore := journal.foldl apply s

/-- The uploads of a journal. -/
def puts (journal : List Effect) : List Put :=
  journal.filterMap fun
    | .put p => some p
    | _ => none

@[simp] lemma replay_nil (s : StateStore) : replay s [] = s := rfl
@[simp] lemma replay_cons (s : StateStore) (e : Effect) (j : List Effect) :
    replay s (e :: j) = replay (apply s e) j := rfl
lemma replay_append (s : StateStore) (j k : List Effect) :
    replay s (j ++ k) = replay (replay s j) k := by
  simp [replay, List.foldl_append]

/-! ### The outside world of a run -/

/-- The calls that leave the agent, by the place they are made from. -/
inductive Call
  | getWatermark (namespace_ : String) | setWatermark (namespace_ : String)
  | getOffsets (source : String) | setOffsets (source : String)
  | gcNow (source : String) | gcOffsets (source : String) | deleteOffset (source key : String)
  | glob (source : String) | stat (p : Path) | prefixSize (p : Path) | readPrefix (p : Path)
  | size (p : Path)
  | tail (p : Path) (offset : ℕ) | shippedAt (p : Path) (offset : ℕ) | sizeAtRead (p : Path)
  | openSpool (p : Path) | writeSpool (p : Path) (rows : ℕ) | closeSpool (p : Path)
  | closeAborted (p : Path) | unlinkAborted (p : Path) | unlinkSpool (p : Path)
  | statSpool (p : Path) | uploadFile (key : String) | uploaded (key : String)
  | headObject (key : String)
  | find (namespace_ : String) | cursorNext (i : ℕ) | docToRow (i : ℕ) | cursorClose
  deriving DecidableEq

/-- The text of a hex digest. -/
abbrev HexDigest := { s : String // ∀ c ∈ s.toList, (Numerals.digit c).isSome }

/-- The libraries. -/
structure Libs where
  sha256 : Bytes → HexDigest
  codecs : CodecRegistry
  /-- `json_util.dumps` in relaxed mode. -/
  dumps : Doc → String
  /-- `str()` of dates and of embedded documents. -/
  text : Value → String
  /-- The size of a spool file. -/
  fileSize : Content → ℕ
  etag : Content → String

/-- What the calls of one run meet. -/
structure Env where
  /-- The exception a call raises, if it does. -/
  fault : Call → Option Exc
  /-- The clock, where a call reads it. -/
  clock : Call → Datetime
  /-- Whether a file operation meets an `OSError`. -/
  osError : Call → Bool
  /-- The files as a call finds them. -/
  fs : Call → FS
  /-- The paths that `glob.glob` lists, in its order. -/
  glob : String → FS → List Path
  /-- The documents a cursor yields. -/
  find : Filter → Option (List (String × ℤ)) → List Doc

/-- The file at a path, as a file operation finds it; `none` where that is an `OSError`. -/
def Env.file (env : Env) (c : Call) (p : Path) : Option Node :=
  if env.osError c then none else (env.fs c).lookup p

/-! ### Programs -/

structure World where
  /-- The state store at the start of the run. -/
  initial : StateStore
  journal : List Effect
  spool : Path → Option Content

def World.store (w : World) : StateStore := replay w.initial w.journal

/-- The world a run starts in. -/
def World.start (s : StateStore) : World := ⟨s, [], fun _ => none⟩

abbrev M (α : Type) := Prog Exc World α

def call (env : Env) (c : Call) : M Unit :=
  match env.fault c with
  | some e => throw e
  | none => pure ()

def emit (e : Effect) : M Unit := modify fun w => { w with journal := w.journal ++ [e] }

def writeFile (p : Path) (c : Option Content) : M Unit :=
  modify fun w => { w with spool := fun q => if q = p then c else w.spool q }

def lift {α : Type} : Except Exc α → M α
  | .ok a => pure a
  | .error e => throw e

/-- `try: body` `except Exception: pass`. -/
def ignoringErrors (body : M Unit) : M Unit :=
  tryCatch body fun e => if e.isException then pure () else throw e

/-- `try: body` `except Exception: handler; raise`. -/
def cleaningUp {α : Type} (body : M α) (handler : M Unit) : M α :=
  tryCatch body fun e => if e.isException then do handler; throw e else throw e

/-- `try: body` `finally: call`. -/
def closing {α : Type} (env : Env) (c : Call) (body : M α) : M α := do
  let a ← tryCatch body fun e => do call env c; throw e
  call env c
  return a

@[simp] lemma exec_call (env : Env) (c : Call) (w : World) :
    exec (call env c) w = ((match env.fault c with | some e => .error e | none => .ok ()), w) := by
  unfold call
  cases env.fault c <;> rfl

@[simp] lemma exec_lift {α : Type} (x : Except Exc α) (w : World) : exec (lift x) w = (x, w) := by
  cases x <;> rfl

@[simp] lemma exec_emit (e : Effect) (w : World) :
    exec (emit e) w = (.ok (), { w with journal := w.journal ++ [e] }) := rfl

@[simp] lemma exec_writeFile (p : Path) (c : Option Content) (w : World) :
    exec (writeFile p c) w =
      (.ok (), { w with spool := fun q => if q = p then c else w.spool q }) := rfl

/-! ### What the primitives ensure -/

/-- What a program has written to its journal; its spool may have changed too. -/
def Wrote (w w' : World) (j : List Effect) : Prop :=
  w'.initial = w.initial ∧ w'.journal = w.journal ++ j

lemma Wrote.nil {w : World} : Wrote w w [] := ⟨rfl, by simp⟩

lemma Wrote.trans {a b c : World} {j k : List Effect} (h : Wrote a b j) (h' : Wrote b c k) :
    Wrote a c (j ++ k) := ⟨h'.1.trans h.1, by rw [h'.2, h.2, List.append_assoc]⟩

lemma Wrote.cons {w w' : World} {e : Effect} {j : List Effect}
    (h : Wrote { w with journal := w.journal ++ [e] } w' j) : Wrote w w' (e :: j) :=
  ⟨h.1, by rw [h.2]; simp⟩

lemma Wrote.store {w w' : World} {j : List Effect} (h : Wrote w w' j) :
    w'.store = replay w.store j := by
  rw [World.store, World.store, h.1, h.2, replay_append]

variable {env : Env} {w : World}

lemma ensures_call {c : Call} {Q : Except Exc Unit → World → Prop}
    (herr : ∀ e, Q (.error e) w) (hok : env.fault c = none → Q (.ok ()) w) :
    Ensures (call env c) w Q := by
  unfold call
  rcases h : env.fault c with _ | e
  · exact hok h
  · exact herr e

/-- The same, where it matters what a call raises. -/
lemma ensures_call_raises {c : Call} {Q : Except Exc Unit → World → Prop}
    (herr : ∀ e, env.fault c = some e → Q (.error e) w) (hok : env.fault c = none → Q (.ok ()) w) :
    Ensures (call env c) w Q := by
  unfold call
  rcases h : env.fault c with _ | e
  · exact hok h
  · exact herr e h

/-- A call that meets no fault. -/
lemma ensures_call_calm {c : Call} {Q : Except Exc Unit → World → Prop}
    (h : env.fault c = none) (hok : Q (.ok ()) w) : Ensures (call env c) w Q := by
  unfold call
  rw [h]
  exact hok

lemma ensures_lift {α : Type} {x : Except Exc α} {Q : Except Exc α → World → Prop}
    (h : Q x w) : Ensures (lift x) w Q := by
  cases x <;> exact h

lemma ensures_emit {e : Effect} {Q : Except Exc Unit → World → Prop}
    (h : Q (.ok ()) { w with journal := w.journal ++ [e] }) : Ensures (emit e) w Q := h

lemma ensures_writeFile {p : Path} {c : Option Content} {Q : Except Exc Unit → World → Prop}
    (h : ∀ w', Wrote w w' [] → w'.spool p = c → Q (.ok ()) w') :
    Ensures (writeFile p c) w Q :=
  h _ ⟨rfl, (List.append_nil _).symm⟩ (if_pos rfl)

/-- A program that writes nothing to its journal. -/
def Quiet {α : Type} (m : M α) : Prop := ∀ w, Ensures m w fun _ w' => Wrote w w' []

instance reflQuiet : Std.Refl fun w w' : World => Wrote w w' [] := ⟨fun _ => .nil⟩

instance transQuiet : IsTrans World fun w w' => Wrote w w' [] := ⟨fun _ _ _ h h' => h.trans h'⟩

lemma quiet_call (env : Env) (c : Call) : Quiet (call env c) :=
  fun _ => ensures_call (fun _ => .nil) fun _ => .nil

lemma quiet_writeFile (p : Path) (c : Option Content) : Quiet (writeFile p c) :=
  fun _ => ensures_writeFile fun _ h _ => h

lemma Quiet.within {α : Type} {m : M α} (h : Quiet m) : Within (fun w w' => Wrote w w' []) m := h

lemma Quiet.keeps {α : Type} {m : M α} (h : Quiet m) : Keeps World.store m :=
  fun w => (h w).mono fun _ _ h => h.store

lemma Quiet.bind {α β : Type} {m : M α} {f : α → M β} (hm : Quiet m) (hf : ∀ a, Quiet (f a)) :
    Quiet (m >>= f) := hm.within.bind hf

lemma within_ignoringErrors {R : World → World → Prop} [Std.Refl R] [IsTrans World R]
    {body : M Unit} (h : Within R body) : Within R (ignoringErrors body) :=
  h.tryCatch fun e => .ite (within_pure ()) (within_throw e)

lemma within_cleaningUp {R : World → World → Prop} [Std.Refl R] [IsTrans World R] {α : Type}
    {body : M α} {handler : M Unit} (h : Within R body) (hh : Within R handler) :
    Within R (cleaningUp body handler) :=
  h.tryCatch fun e => .ite (hh.bind fun _ => within_throw e) (within_throw e)

lemma Quiet.ignoringErrors {body : M Unit} (h : Quiet body) : Quiet (ignoringErrors body) :=
  within_ignoringErrors h

lemma ensures_cleaningUp {α : Type} {body : M α} {handler : M Unit}
    {Q : Except Exc α → World → Prop} (hq : Quiet handler)
    (h : Ensures body w fun r w' =>
      match r with
      | .ok a => Q (.ok a) w'
      | .error _ => ∀ e w'', Wrote w' w'' [] → Q (.error e) w'') :
    Ensures (cleaningUp body handler) w Q := by
  unfold cleaningUp
  rw [ensures_tryCatch]
  refine h.mono fun r w₁ h₁ => ?_
  rcases r with e | a
  · cases he : e.isException with
    | false => simpa [he] using h₁ e w₁ .nil
    | true =>
      simp only [he, if_true]
      refine Ensures.bind (hq w₁) (fun e w₂ h₂ => h₁ e w₂ h₂) fun _ w₂ h₂ => ?_
      exact h₁ e w₂ h₂
  · exact h₁

lemma ensures_closing {α : Type} {c : Call} {body : M α} {Q : Except Exc α → World → Prop}
    (h : Ensures body w fun r w' => (∀ e, Q (.error e) w') ∧ ∀ a, r = .ok a → Q (.ok a) w') :
    Ensures (closing env c body) w Q := by
  unfold closing
  rw [ensures_bind, ensures_tryCatch]
  refine h.mono fun r w₁ ⟨herr, hok⟩ => ?_
  rcases r with e | a
  · simp only
    rw [ensures_bind]
    exact ensures_call (fun e => herr e) fun _ => herr e
  · simp only
    rw [ensures_bind]
    exact ensures_call (fun e => herr e) fun _ => hok a rfl

/-! ### A host on which nothing fails -/

/-- The hex digits of the bytes themselves, for a digest. -/
def hexBytes (bs : Bytes) : HexDigest :=
  ⟨String.ofList (bs.flatMap fun b => Numerals.pad 16 2 b.toNat), fun c hc => by
    rw [String.toList_ofList] at hc
    obtain ⟨b, -, hb⟩ := List.mem_flatMap.mp hc
    obtain ⟨d, hd, rfl⟩ := Numerals.pad_digits (by omega) _ _ hb
    have : ∀ d < 16, (Numerals.digit (Nat.digitChar d)).isSome := by decide
    exact this d hd⟩

lemma hexBytes_injective : Function.Injective hexBytes := by
  intro a b h
  have hflat : a.flatMap (fun b => Numerals.pad 16 2 b.toNat) =
      b.flatMap (fun b => Numerals.pad 16 2 b.toNat) :=
    String.ofList_injective (congrArg Subtype.val h)
  clear h
  induction a generalizing b with
  | nil =>
    rcases b with _ | ⟨y, b⟩
    · rfl
    · have := congrArg List.length hflat
      simp at this
      omega
  | cons x a ih =>
    rcases b with _ | ⟨y, b⟩
    · have := congrArg List.length hflat
      simp at this
    · rw [List.flatMap_cons, List.flatMap_cons] at hflat
      obtain ⟨hxy, hrest⟩ := List.append_inj hflat (by simp)
      have hnum := congrArg (Numerals.numeral 16) hxy
      rw [Numerals.numeral_pad (by omega) (by omega) (by have := x.toNat_lt; omega),
        Numerals.numeral_pad (by omega) (by omega) (by have := y.toNat_lt; omega)] at hnum
      rw [UInt8.toNat_inj.mp (Option.some.inj hnum), ih hrest]

/-- Libraries to run the model with. -/
def plainLibs : Libs where
  sha256 := hexBytes
  codecs _ := none
  dumps _ := ""
  text _ := ""
  fileSize _ := 0
  etag _ := ""

/-- A run in which no call fails, the clock stands still and nothing else touches the files. -/
def calmEnv (fs : FS) (now : Datetime) : Env where
  fault _ := none
  clock _ := now
  osError _ := false
  fs _ := fs
  glob _ fs := fs.keys
  find _ _ := []

def sampleNow : Timestamps.Datetime := ⟨63000000000000000, some 0, by decide⟩

def sampleCtx : RunContext := { runId := "r1", runDt := sampleNow, spoolDir := "spool" }

/-- The same, where cursors read a collection at once. -/
def calmReads (docs : List Doc) (now : Datetime) : Env :=
  { calmEnv ∅ now with find := fun filter _ => docs.filter filter.matches }

end MongoSyncAgent.Runtime
