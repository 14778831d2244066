import MongoSyncAgent.Isolation

/-!
The log sources and the host metrics of a cycle do not reach each other either.

A source reads of the state store only the offsets under its own name, and it makes its spool file
anew. The metrics read nothing at all. So each of them does the same in any two worlds that agree
on what is its own.
-/

namespace MongoSyncAgent.SourceIsolation

open MongoSyncAgent.Py MongoSyncAgent.Config MongoSyncAgent.State MongoSyncAgent.Runtime
open MongoSyncAgent.Sinks MongoSyncAgent.Sources MongoSyncAgent.Ship MongoSyncAgent.Keys
open MongoSyncAgent.Outcomes MongoSyncAgent.SideBySide MongoSyncAgent.Exceptions
open MongoSyncAgent.Cycle MongoSyncAgent.Isolation

variable {lib : Libs} {env : Env} {u : S3Uploader} {ctx : RunContext} {path : Path}
  {s₀ t₀ s t : World} {α : Type}

/-! ### A spool file -/

/-- The worlds were written to alike, and have the same spool file. -/
def Spooled (s₀ t₀ : World) (path : Path) (s t : World) : Prop :=
  Along s₀ t₀ s t ∧ s.spool path = t.spool path

/-- A spool file that is made, filled and closed, and what follows. -/
lemma same_filled {n : ℕ} {onto : Option Content → Content} {rest : SinkResult → M α}
    {Q : α → World → World → Prop} (henv : Unkilled env) (h : Along s₀ t₀ s t)
    (hrest : ∀ result s' t', Spooled s₀ t₀ path s' t' →
      Same (rest result) (rest result) s' t' Q (Failed s₀ t₀)) :
    Same (do
        let sink ← GzipNdjsonSink.open env path
        let sink ← cleaningUp (sink.add env n onto) (abort env path)
        let result ← sink.close lib env
        rest result)
      (do
        let sink ← GzipNdjsonSink.open env path
        let sink ← cleaningUp (sink.add env n onto) (abort env path)
        let result ← sink.close lib env
        rest result) s t Q (Failed s₀ t₀) := by
  refine Same.bind (Q := fun sink s t => sink.path = path ∧ Spooled s₀ t₀ path s t) ?_
    fun sink s₁ t₁ ⟨hpath, h₁⟩ => ?_
  · unfold GzipNdjsonSink.open
    refine Same.bind (same_call henv h h) fun _ s₁ t₁ h₁ => ?_
    refine Same.bind (same_writeFile rfl h₁) fun _ s₂ t₂ h₂ => ?_
    exact same_pure ⟨rfl, h₂⟩
  refine Same.bind (Q := fun sink s t => sink.path = path ∧ Spooled s₀ t₀ path s t) ?_
    fun sink s₂ t₂ ⟨hpath, h₂⟩ => ?_
  · refine Same.tryCatch (Q := fun sink s t => sink.path = path ∧ Spooled s₀ t₀ path s t)
      (R := Failed s₀ t₀) ?_ (fun _ _ _ h => h) fun e s₂ t₂ ⟨he, h₂⟩ => ?_
    · unfold GzipNdjsonSink.add
      rw [hpath]
      refine Same.bind (same_call henv h₁.1 h₁) fun _ s₂ t₂ h₂ => inStep_get ?_
      refine Same.bind (same_writeFile (by rw [h₂.2]) h₂.1) fun _ s₃ t₃ h₃ => ?_
      exact same_pure ⟨rfl, h₃⟩
    · rw [if_pos he]
      exact Same.bind (same_abort henv h₂) fun _ s₃ t₃ h₃ => same_throw ⟨he, h₃⟩
  · refine Same.bind (Q := fun _ => Spooled s₀ t₀ path) ?_ hrest
    unfold GzipNdjsonSink.close
    rw [hpath]
    refine Same.bind (same_call henv h₂.1 h₂) fun _ s₃ t₃ h₃ => inStep_get ?_
    rw [h₃.2]
    exact same_pure h₃

/-- An upload of which a unit catches some exceptions. -/
lemma same_caughtUpload {caught : Exc → Prop} [DecidablePred caught] {key : String}
    (henv : Unkilled env) (h : Spooled s₀ t₀ path s t) :
    Same (tryCatch (do return .ok (← upload lib env u path key)) fun e =>
        if caught e then return .error e else throw e : M (Except Exc UploadResult))
      (tryCatch (do return .ok (← upload lib env u path key)) fun e =>
        if caught e then return .error e else throw e) s t
      (fun _ => Along s₀ t₀) (Failed s₀ t₀) := by
  refine Same.tryCatch (Q := fun _ => Along s₀ t₀) (Same.bind (same_upload henv h.1 h.2)
    fun _ _ _ h₁ => same_pure h₁) (fun _ _ _ h => h) fun e s₁ t₁ ⟨he, h₁⟩ => ?_
  split_ifs
  · exact same_pure h₁
  · exact same_throw ⟨he, h₁⟩

/-! ### One source, from two worlds -/

variable {source : LogSourceConfig} {gcDays : ℤ}

lemma replay_offsets_congr {a b : StateStore} {name : String}
    (h : a.fileOffsets name = b.fileOffsets name) (j : List Effect) :
    (replay a j).fileOffsets name = (replay b j).fileOffsets name := by
  induction j generalizing a b with
  | nil => exact h
  | cons e j ih =>
    refine ih ?_
    cases e with
    | setOffsets source offsets at_ =>
      show (if name = source then StateStore.upserts offsets at_ (a.fileOffsets name)
        else a.fileOffsets name) = if name = source then _ else b.fileOffsets name
      rw [h]
    | deleteOffset source key =>
      show (if name = source then (a.fileOffsets name).erase key else a.fileOffsets name) =
        if name = source then _ else b.fileOffsets name
      rw [h]
    | _ => exact h

/-- Worlds that were written to alike still agree on what they agreed on. -/
lemma offsets_along (h : Along s₀ t₀ s t) {name : String}
    (h₀ : s₀.store.fileOffsets name = t₀.store.fileOffsets name) :
    s.store.fileOffsets name = t.store.fileOffsets name := by
  obtain ⟨j, hs, ht⟩ := h
  rw [hs.store, ht.store]
  exact replay_offsets_congr h₀ j

lemma same_emitted {e : Effect} (h : Along s₀ t₀ s t) :
    Same (emit e) (emit e) s t (fun _ => Along s₀ t₀) (Failed s₀ t₀) :=
  ⟨rfl, h.trans (j := [e]) ⟨rfl, rfl⟩ ⟨rfl, rfl⟩⟩

lemma same_gcLoop {name : String} {current : List String} {cutoff : Timestamps.Datetime}
    (items : List (String × FileOffset)) (henv : Unkilled env) (h : Along s₀ t₀ s t) :
    Same (gcLoop env name current cutoff items) (gcLoop env name current cutoff items) s t
      (fun _ => Along s₀ t₀) (Failed s₀ t₀) := by
  induction items generalizing s t with
  | nil => exact same_pure h
  | cons item rest ih =>
    obtain ⟨key, fo⟩ := item
    unfold gcLoop
    split_ifs
    · refine Same.bind (same_call henv h h) fun _ s₁ t₁ h₁ => ?_
      refine Same.bind (same_emitted h₁) fun _ s₂ t₂ h₂ => ?_
      exact Same.bind (ih h₂) fun _ s₃ t₃ h₃ => same_pure h₃
    · exact ih h

lemma same_commit {parts : List Part} (henv : Unkilled env)
    (h₀ : s₀.store.fileOffsets source.name = t₀.store.fileOffsets source.name)
    (h : Along s₀ t₀ s t) :
    Same (commit env source gcDays parts path) (commit env source gcDays parts path) s t
      (fun _ => Along s₀ t₀) (Failed s₀ t₀) := by
  have hgc : ∀ s t, Along s₀ t₀ s t →
      Same (gcOffsets env source.name (currentKeys parts) gcDays)
        (gcOffsets env source.name (currentKeys parts) gcDays) s t (fun _ => Along s₀ t₀)
        (Failed s₀ t₀) := by
    intro s t h
    refine Same.bind (same_lift (caught_days _) h h) fun _ s₁ t₁ h₁ => ?_
    refine Same.bind (same_lift (caught_ofMicros _ _) h₁ h₁) fun _ s₂ t₂ h₂ => ?_
    refine Same.bind (same_call henv h₂ h₂) fun _ s₃ t₃ h₃ => inStep_get ?_
    rw [offsets_along h₃ h₀]
    exact same_gcLoop _ henv h₃
  refine Same.bind (Same.bind (same_call henv h h) fun _ s₁ t₁ h₁ => same_emitted h₁)
    fun _ s₁ t₁ h₁ => ?_
  exact Same.bind (hgc _ _ h₁) fun _ s₂ t₂ h₂ => same_unlink henv h₂

/-- **A log source depends only on its own offsets**: from two worlds that agree on them, it ends
the same, and writes the same to both journals. -/
theorem same_shipSource (henv : Unkilled env)
    (h₀ : s₀.store.fileOffsets source.name = t₀.store.fileOffsets source.name) :
    Same (shipSource lib env source u ctx gcDays) (shipSource lib env source u ctx gcDays) s₀ t₀
      (fun _ => Along s₀ t₀) (Failed s₀ t₀) := by
  have hstart : Along s₀ t₀ s₀ t₀ := ⟨[], .nil, .nil⟩
  refine Same.bind (same_call (P := fun s' t' => s' = s₀ ∧ t' = t₀) henv hstart ⟨rfl, rfl⟩) ?_
  rintro _ s₁ t₁ ⟨rfl, rfl⟩
  refine inStep_get ?_
  rw [h₀]
  refine Same.bind (same_lift (caught_drainPlans _ _ _ _) hstart hstart) fun parts s₂ t₂ h₂ => ?_
  split_ifs
  · exact same_pure h₂
  unfold deliver
  simp only [writeRows_eq]
  refine same_filled henv h₂ fun result s₃ t₃ h₃ => ?_
  split_ifs
  · exact Same.bind (same_unlink henv h₃.1) fun _ _ _ h₄ => same_pure h₄
  refine Same.bind (same_caughtUpload henv h₃) fun outcome s₄ t₄ h₄ => ?_
  rcases outcome with e | res
  · exact Same.bind (same_abort henv h₄) fun _ _ _ h₅ => same_pure h₅
  · exact Same.bind (same_commit henv h₀ h₄) fun _ _ _ h₅ => same_pure h₅

/-- **The metrics depend on nothing.** -/
theorem same_shipMetrics {records : List MetricRecord} (henv : Unkilled env) :
    Same (shipMetrics lib u ctx env records) (shipMetrics lib u ctx env records) s₀ t₀
      (fun _ => Along s₀ t₀) (Failed s₀ t₀) := by
  have hstart : Along s₀ t₀ s₀ t₀ := ⟨[], .nil, .nil⟩
  unfold shipMetrics
  split_ifs
  · exact same_pure hstart
  · simp only [writeMetrics_eq]
    refine same_filled henv hstart fun result s₁ t₁ h₁ => ?_
    exact Same.bind (same_unlink henv h₁.1) fun _ _ _ h₂ => same_pure h₂
  · simp only [writeMetrics_eq]
    refine same_filled henv hstart fun result s₁ t₁ h₁ => ?_
    refine Same.bind (same_caughtUpload henv h₁) fun outcome s₂ t₂ h₂ => ?_
    rcases outcome with e | res
    · exact Same.bind (same_abort henv h₂) fun _ _ _ h₃ => same_pure h₃
    · exact Same.bind (same_unlink henv h₂) fun _ _ _ h₃ => same_pure h₃

end MongoSyncAgent.SourceIsolation
