import MongoSyncAgent.Extract
import MongoSyncAgent.Ship

/-!
What the agent's own computations raise: nothing that `except Exception` would let through.

Only a call that leaves the agent can be cut short by the end of the process.
-/

namespace MongoSyncAgent.Exceptions

open MongoSyncAgent.Py MongoSyncAgent.Bson MongoSyncAgent.Timestamps MongoSyncAgent.Config
open MongoSyncAgent.Runtime MongoSyncAgent.Watermarks MongoSyncAgent.Tailer MongoSyncAgent.Drain
open MongoSyncAgent.Codecs MongoSyncAgent.Sources MongoSyncAgent.Extract MongoSyncAgent.Ship
open MongoSyncAgent.Outcomes MongoSyncAgent.Sinks

def Caught {α : Type} (x : Except Exc α) : Prop := ∀ e, x = .error e → e.isException = true

/-- No call of a unit meets the end of the process. -/
def Unkilled (env : Env) : Prop := ∀ c e, env.fault c = some e → e.isException = true

variable {α β : Type}

lemma caught_ok (a : α) : Caught (.ok a : Except Exc α) := fun _ h => by cases h

lemma caught_raise {cls : ExcClass} (h : cls ≠ .killed) (text : String) :
    Caught (raise cls text : Except Exc α) := by
  intro e he
  obtain rfl := Except.error.inj he
  simpa [Exc.isException] using h

lemma Caught.bind {x : Except Exc α} {f : α → Except Exc β} (hx : Caught x)
    (hf : ∀ a, Caught (f a)) : Caught (x >>= f) := by
  rcases x with e | a
  · intro e' he
    exact hx e' (by cases he; rfl)
  · exact hf a

/-! ### Values and datetimes -/

lemma caught_ofMicros (t : ℤ) (tz : Option ℤ) : Caught (Datetime.ofMicros t tz) := by
  unfold Datetime.ofMicros
  split
  · exact caught_ok _
  · exact caught_raise (by decide) _

lemma caught_timedelta (n : ℤ) : Caught (Datetime.timedelta n) := by
  unfold Datetime.timedelta
  split
  · exact caught_ok _
  · exact caught_raise (by decide) _

lemma caught_days (n : ℤ) : Caught (days n) := by
  unfold days
  split
  · exact caught_ok _
  · exact caught_raise (by decide) _

lemma caught_dateGt (a b : Datetime) : Caught (a.gt b) := by
  unfold Datetime.gt
  split
  · exact caught_ok _
  · exact caught_raise (by decide) _

lemma caught_pyGt (a b : Value) : Caught (pyGt a b) := by
  unfold pyGt
  split
  · exact caught_ok _
  · exact caught_ok _
  · exact caught_dateGt _ _
  · split
    · exact caught_ok _
    · exact caught_raise (by decide) _

lemma caught_formatTs (d : Datetime) : Caught (formatTs d) := by
  refine .bind ?_ fun _ => caught_ok _
  unfold toUtc
  split
  · exact caught_ofMicros _ _
  · exact caught_ok _

lemma caught_strptime (s : String) : Caught (strptime s) := by
  unfold strptime
  split
  · exact caught_raise (by decide) _
  · exact caught_raise (by decide) _
  · split
    · unfold Datetime.mk?
      split
      · exact caught_raise (by decide) _
      · split
        · exact caught_raise (by decide) _
        · simp only
          split
          · exact caught_ok _
          · exact caught_raise (by decide) _
    · exact caught_raise (by decide) _

lemma caught_ofStr (s : String) : Caught (ObjectId.ofStr s) := by
  unfold ObjectId.ofStr
  split
  · split
    · exact caught_ok _
    · exact caught_raise (by decide) _
  · exact caught_raise (by decide) _

lemma caught_fromDatetime (d : Datetime) : Caught (ObjectId.fromDatetime d) := by
  unfold ObjectId.fromDatetime
  simp only
  split
  · exact caught_ok _
  · exact caught_raise (by decide) _

/-! ### Strategies -/

variable {text : Value → String}

lemma caught_buildFilter (previous : Option String) (s : Strategy) :
    Caught (s.buildFilter previous) := by
  unfold Strategy.buildFilter
  split
  · split
    · exact caught_ok _
    · refine .bind (.bind (caught_ofStr _) fun _ => .bind (caught_timedelta _) fun _ =>
        .bind (caught_ofMicros _ _) fun _ => caught_fromDatetime _) fun _ => caught_ok _
  · split
    · exact caught_ok _
    · refine .bind (.bind (caught_strptime _) fun _ => .bind (caught_timedelta _) fun _ =>
        caught_ofMicros _ _) fun _ => caught_ok _
  · exact caught_ok _

lemma caught_observeId (maxId : Option Value) (oid : Value) :
    Caught (Strategy.observeId text maxId oid) := by
  unfold Strategy.observeId
  split
  · exact caught_ok _
  · split
    · exact caught_ok _
    · rename_i e he
      split
      · exact caught_ok _
      · intro e' h
        obtain rfl := Except.error.inj h
        exact caught_pyGt _ _ _ he

lemma caught_observe (doc : Doc) (s : Strategy) : Caught (s.observe text doc) := by
  unfold Strategy.observe
  split
  · split
    · exact caught_ok _
    · exact caught_ok _
    · exact .bind (caught_observeId _ _) fun _ => caught_ok _
  · split
    · refine .bind ?_ fun _ => caught_ok _
      unfold Strategy.observeDate
      split
      · exact caught_ok _
      · exact .bind (caught_dateGt _ _) fun _ => caught_ok _
    · exact caught_ok _
  · exact caught_ok _

lemma caught_newWatermark (s : Strategy) : Caught (s.newWatermark text) := by
  unfold Strategy.newWatermark
  split
  · exact caught_ok _
  · split
    · exact caught_ok _
    · exact .bind (caught_formatTs _) fun _ => caught_ok _
  · exact caught_ok _

lemma caught_docToRow (lib : Libs) (s : Strategy) (ctx : RunContext) (doc : Doc) :
    Caught (docToRow lib s ctx doc) := by
  refine .bind ?_ fun _ => caught_ok _
  unfold Strategy.watermarkColumnValue
  split
  · exact caught_ok _
  · split
    · exact caught_formatTs _
    · exact caught_ok _
  · exact caught_ok _

lemma caught_validate (stored : State.Watermark) (s : Strategy) :
    Caught (validateWatermarkKind stored s) := by
  unfold validateWatermarkKind
  split
  · exact caught_raise (by decide) _
  · exact caught_ok _

/-! ### Draining -/

lemma caught_tailFile (codecs : CodecRegistry) (content : Option Bytes) (start : ℕ)
    (encoding : String) (maxBytes : ℤ) :
    Caught (tailFile codecs content start encoding maxBytes) := by
  unfold tailFile
  simp only
  generalize (if twoByte encoding = true ∧ start % 2 ≠ 0 then start + 1 else start) = start
  split
  · exact caught_ok _
  refine .bind ?_ fun raw => ?_
  · unfold readBytes
    split_ifs
    · exact caught_raise (by decide) _
    · exact caught_raise (by decide) _
    · exact caught_ok _
    · exact caught_raise (by decide) _
    · exact caught_ok _
  by_cases hempty : raw = []
  · rw [if_pos hempty]
    exact caught_ok _
  rw [if_neg hempty]
  split
  · exact caught_ok _
  · split
    · exact caught_ok _
    · refine .bind ?_ fun _ => caught_ok _
      unfold decode
      split
      · exact caught_ok _
      · exact caught_raise (by decide) _

lemma caught_drainLoop (codecs : CodecRegistry) (content : ℕ → Option Bytes) (encoding : String)
    (maxBytes : ℤ) (fuel offset : ℕ) :
    Caught (drainLoop codecs content encoding maxBytes fuel offset) := by
  induction fuel generalizing offset with
  | zero => exact caught_ok _
  | succ fuel ih =>
    refine .bind (caught_tailFile _ _ _ _ _) fun chunk => ?_
    split
    · exact caught_ok _
    · split
      · exact caught_ok _
      · exact .bind (ih _) fun _ => caught_ok _

lemma caught_drainPlans (lib : Libs) (env : Env) (source : LogSourceConfig)
    (plans : List TailPlan) : Caught (drainPlans lib env source plans) := by
  induction plans with
  | nil => exact caught_ok _
  | cons plan plans ih =>
    exact .bind (caught_drainLoop _ _ _ _ _ _) fun _ => .bind ih fun _ => caught_ok _

/-! ### Programs -/

section Programs

variable {σ : Type} {m : Prog Exc σ α}

/-- Wherever it starts, it raises nothing but what `except Exception` catches. -/
def Spared (m : Prog Exc σ α) : Prop := ∀ s, Ensures m s fun r _ => Caught r

lemma spared_pure (a : α) : Spared (pure a : Prog Exc σ α) := fun _ => caught_ok a

lemma spared_throw {e : Exc} (h : e.isException = true) : Spared (throw e : Prog Exc σ α) := by
  intro s e' he
  obtain rfl := Except.error.inj he
  exact h

lemma spared_get : Spared (get : Prog Exc σ σ) := fun s => caught_ok s

lemma spared_modify (f : σ → σ) : Spared (modify f : Prog Exc σ Unit) := fun _ => caught_ok ()

lemma Spared.bind {f : α → Prog Exc σ β} (hm : Spared m) (hf : ∀ a, Spared (f a)) :
    Spared (m >>= f) := by
  intro s
  refine Ensures.bind (hm s) (fun e s' h => ?_) fun a s' _ => hf a s'
  intro e' he
  exact h e' (by cases he; rfl)

lemma Spared.tryCatch {handler : Exc → Prog Exc σ α} (hm : Spared m)
    (hh : ∀ e : Exc, e.isException = true → Spared (handler e)) : Spared (tryCatch m handler) := by
  intro s
  rw [ensures_tryCatch]
  refine (hm s).mono fun r s' hr => ?_
  rcases r with e | a
  · exact hh e (hr e rfl) s'
  · exact caught_ok a

lemma Spared.ite {p : Prop} [Decidable p] {m' : Prog Exc σ α} (h : Spared m) (h' : Spared m') :
    Spared (if p then m else m') := by
  split
  · exact h
  · exact h'

end Programs

section Units

variable {lib : Libs} {env : Env} {u : S3Uploader} {ctx : RunContext} {path : Path}

lemma spared_lift {x : Except Exc α} (h : Caught x) : Spared (lift x) :=
  fun _ => ensures_lift h

lemma spared_call (henv : Unkilled env) (c : Call) : Spared (call env c) := by
  unfold call
  rcases hf : env.fault c with _ | e
  · exact spared_pure ()
  · exact spared_throw (henv c e hf)

lemma spared_ignoringErrors {body : M Unit} (h : Spared body) : Spared (ignoringErrors body) :=
  h.tryCatch fun _ he => .ite (spared_pure ()) (spared_throw he)

lemma spared_cleaningUp {body : M α} {handler : M Unit} (h : Spared body) (hh : Spared handler) :
    Spared (cleaningUp body handler) :=
  h.tryCatch fun _ he => .ite (hh.bind fun _ => spared_throw he) (spared_throw he)

lemma spared_abort (henv : Unkilled env) : Spared (abort env path) :=
  .bind (spared_ignoringErrors (spared_call henv _)) fun _ =>
    spared_ignoringErrors (.bind (spared_call henv _) fun _ => spared_modify _)

lemma spared_unlink (henv : Unkilled env) : Spared (unlink env path) :=
  .bind (spared_call henv _) fun _ => spared_modify _

lemma spared_upload (henv : Unkilled env) {key : String} :
    Spared (upload lib env u path key) := by
  have hput : Spared (putObject env path key) := by
    refine .bind (spared_call henv _) fun _ => .bind spared_get fun w => ?_
    split
    · exact spared_throw rfl
    · exact .bind (spared_modify _) fun _ => .bind (spared_call henv _) fun _ => spared_pure _
  refine .bind (spared_call henv _) fun _ => .bind (.tryCatch ?_ fun e he => ?_) fun _ =>
    spared_pure _
  · exact hput.bind fun _ => .bind (spared_call henv _) fun _ => spared_pure _
  · exact .ite (spared_throw rfl) (spared_throw he)

lemma spared_caughtUpload {caught : Exc → Prop} [DecidablePred caught] (henv : Unkilled env)
    {key : String} : Spared (tryCatch (do return .ok (← upload lib env u path key)) fun e =>
      if caught e then return .error e else throw e : M (Except Exc UploadResult)) :=
  .tryCatch (.bind (spared_upload henv) fun _ => spared_pure _) fun _ he =>
    .ite (spared_pure _) (spared_throw he)

/-- A spool file that is made, filled and closed, and what follows. -/
lemma spared_spooled {n : ℕ} {onto : Option Content → Content} {rest : SinkResult → M UnitResult}
    (henv : Unkilled env) (hrest : ∀ result, Spared (rest result)) :
    Spared (do
      let sink ← GzipNdjsonSink.open env path
      let sink ← cleaningUp (sink.add env n onto) (abort env path)
      let result ← sink.close lib env
      rest result) := by
  refine .bind (.bind (spared_call henv _) fun _ => .bind (spared_modify _) fun _ =>
    spared_pure _) fun sink => .bind (spared_cleaningUp ?_ (spared_abort henv)) fun sink =>
      .bind ?_ hrest
  · exact .bind (spared_call henv _) fun _ => .bind spared_get fun _ =>
      .bind (spared_modify _) fun _ => spared_pure _
  · exact .bind (spared_call henv _) fun _ => .bind spared_get fun _ => spared_pure _

variable {source : LogSourceConfig} {gcDays : ℤ}

lemma spared_gcLoop (henv : Unkilled env) {name : String} {current : List String}
    {cutoff : Datetime} (items : List (String × State.FileOffset)) :
    Spared (gcLoop env name current cutoff items) := by
  induction items with
  | nil => exact spared_pure 0
  | cons item rest ih =>
    exact .ite (.bind (spared_call henv _) fun _ => .bind (spared_modify _) fun _ =>
      ih.bind fun _ => spared_pure _) ih

lemma spared_commit (henv : Unkilled env) {parts : List Part} :
    Spared (commit env source gcDays parts path) := by
  refine .bind (.bind (spared_call henv _) fun _ => spared_modify _) fun _ => .bind ?_ fun _ =>
    spared_unlink henv
  exact .bind (spared_lift (caught_days _)) fun _ => .bind (spared_lift (caught_ofMicros _ _))
    fun _ => .bind (spared_call henv _) fun _ => .bind spared_get fun _ => spared_gcLoop henv _

/-- **A log source**, whatever its calls meet, raises only what can be caught. -/
theorem spared_shipSource (henv : Unkilled env) :
    Spared (shipSource lib env source u ctx gcDays) := by
  refine .bind (spared_call henv _) fun _ => .bind spared_get fun w =>
    .bind (spared_lift (caught_drainPlans _ _ _ _)) fun parts => .ite (spared_pure _) ?_
  unfold Ship.deliver
  simp only [writeRows_eq]
  refine spared_spooled henv fun result => .ite ?_ ?_
  · exact .bind (spared_unlink henv) fun _ => spared_pure _
  refine .bind (spared_caughtUpload henv) fun outcome => ?_
  split
  · exact .bind (spared_abort henv) fun _ => spared_pure _
  · exact .bind (spared_commit henv) fun _ => spared_pure _

end Units

end MongoSyncAgent.Exceptions
