import MongoSyncAgent.WatermarkColumn
import MongoSyncAgent.LoadConfig
import Mathlib.Data.Set.Finite.Lattice
import Mathlib.Data.Set.Finite.Lemmas
import Mathlib.Data.Set.Finite.List

/-!
The watermark field as MongoDB reads it, and as the agent does.

In a filter the dots of a field name lead into embedded documents. The agent looks for a field of
the document itself that has the whole name, dots included, so that the two agree on a document
with such a field only by accident, and on a name without dots always.
-/

namespace MongoSyncAgent.DottedFields

open MongoSyncAgent.Py MongoSyncAgent.Bson MongoSyncAgent.Config MongoSyncAgent.Timestamps
open MongoSyncAgent.Watermarks MongoSyncAgent.MutableCursor MongoSyncAgent.WatermarkColumn
open MongoSyncAgent.Mutable hiding filterFor_stored
open MongoSyncAgent.LoadConfig

variable {cfg : CollectionConfig} {field : String} {docs : List Doc} {text : Value → String}

/-- MongoDB finds this date, and none later. -/
def LatestFound (field : String) (docs : List Doc) (d : Datetime) : Prop :=
  (∃ doc ∈ docs, lookup field doc = some (.date d)) ∧
    ∀ doc ∈ docs, ∀ e, lookup field doc = some (.date e) → e.instant ≤ d.instant

/-- The watermark is the text of the latest date that MongoDB finds, and the column has the text
of the date that it finds in each document. -/
def ReadsFound (text : Value → String) (cfg : CollectionConfig) (field : String)
    (docs : List Doc) : Prop :=
  (∃ strategy m value, (makeStrategy cfg).observeAll text docs = .ok strategy ∧
      LatestFound field docs m ∧ formatTs m = .ok value ∧
      strategy.newWatermark text = .ok (some value)) ∧
    ∀ doc ∈ docs, ∀ d, lookup field doc = some (.date d) → ∃ value, formatTs d = .ok value ∧
      (makeStrategy cfg).watermarkColumnValue text doc = .ok value

/-- Where MongoDB finds a date, the document has the same one, to the millisecond, as a field of
its own under the whole name. Dates of such fields can be compared and written, and are no later
than what MongoDB finds. -/
structure OwnField (field : String) (docs : List Doc) : Prop where
  oneKind : OneKind field docs
  found : ∀ doc ∈ docs, ∀ d, lookup field doc = some (.date d) → InYears d ∧
    ∃ e, get doc field = some (.date e) ∧ millis e = millis d
  own : ∀ doc ∈ docs, ∀ e, get doc field = some (.date e) →
    ∃ doc' ∈ docs, ∃ d, lookup field doc' = some (.date d) ∧ millis e ≤ millis d

lemma exists_latestFound (h : ∃ doc ∈ docs, ∃ d, lookup field doc = some (.date d)) :
    ∃ m, LatestFound field docs m := by
  have hfinite : {d | ∃ doc ∈ docs, lookup field doc = some (.date d)}.Finite := by
    refine ((docs.filterMap fun doc => lookup field doc).finite_toSet.preimage
      (f := Value.date) fun a _ b _ hab => Value.date.inj hab).subset ?_
    rintro d ⟨doc, hdoc, hd⟩
    exact List.mem_filterMap.mpr ⟨doc, hdoc, hd⟩
  obtain ⟨doc, hdoc, d, hd⟩ := h
  obtain ⟨m, hm, hle⟩ := Set.exists_max_image _ Datetime.instant hfinite ⟨d, doc, hdoc, hd⟩
  exact ⟨m, hm, fun doc' hdoc' e he => hle e ⟨doc', hdoc', he⟩⟩

lemma millis_le {d e : Datetime} (h : d.instant ≤ e.instant) : millis d ≤ millis e :=
  Int.ediv_le_ediv (by decide) h

/-- Times of the same millisecond are in the same years. -/
lemma inYears_of_millis {d e : Datetime} (h : millis d = millis e) (hd : InYears d) :
    InYears e := by
  unfold InYears at hd ⊢
  unfold millis at h
  have hlimit : (wallLimit : ℤ) = 315537897600000 * 1000 := rfl
  omega

lemma readsFound_of_own (hmode : cfg.mode = .mutable) (hfield : cfg.watermarkField = some field)
    (hsome : ∃ doc ∈ docs, ∃ d, lookup field doc = some (.date d)) (h : OwnField field docs) :
    ReadsFound text cfg field docs := by
  rw [ReadsFound, makeStrategy_mutable hmode hfield]
  obtain ⟨strategy, hobs⟩ : ∃ strategy, Strategy.observeAll text docs (.timestamp cfg field none) =
      .ok strategy := observeAll_dates_iff.mpr h.oneKind
  obtain ⟨m, ⟨top, htop, hm⟩, hmle⟩ := exists_latestFound hsome
  obtain ⟨hyears, e, he, hem⟩ := h.found top htop m hm
  obtain ⟨maxVal, rfl, ⟨-, hnone⟩ | ⟨m', rfl, ⟨top', htop', hm'⟩, hle⟩⟩ := observeAll_latest hobs
  · exact absurd he (hnone top htop e)
  -- the latest of the documents' own dates is in the millisecond of the latest that was found
  have hsame : millis m' = millis m := by
    obtain ⟨doc, hdoc, d, hd, hd'⟩ := h.own top' htop' m' hm'
    have hup := millis_le (hmle doc hdoc d hd)
    have hdown := millis_le (hle top htop e he)
    omega
  obtain ⟨value, hvalue⟩ := formatTs_defined hyears
  obtain ⟨value', hvalue'⟩ := formatTs_defined (inYears_of_millis hsame.symm hyears)
  obtain rfl := (formatTs_eq_iff hvalue' hvalue).mpr hsame
  refine ⟨⟨_, m, value', hobs, ⟨⟨top, htop, hm⟩, hmle⟩, hvalue, ?_⟩, fun doc hdoc d hd => ?_⟩
  · simp only [Strategy.newWatermark, hvalue']
    rfl
  · obtain ⟨hyears, e, he, hed⟩ := h.found doc hdoc d hd
    obtain ⟨v, hv⟩ := formatTs_defined hyears
    obtain ⟨v', hv'⟩ := formatTs_defined (inYears_of_millis hed.symm hyears)
    obtain rfl := (formatTs_eq_iff hv' hv).mpr hed
    exact ⟨v', hv, (column_dated he).trans hv'⟩

lemma formatTs_ne_empty {d : Datetime} : formatTs d ≠ .ok "" := by
  intro h
  obtain ⟨t, ht, -⟩ := strptime_formatTs h
  cases ht

lemma own_of_readsFound (hmode : cfg.mode = .mutable) (hfield : cfg.watermarkField = some field)
    (h : ReadsFound text cfg field docs) : OwnField field docs := by
  rw [ReadsFound, makeStrategy_mutable hmode hfield] at h
  obtain ⟨⟨strategy, m, value, hobs, ⟨⟨top, htop, hm⟩, hmle⟩, hvalue, hwm⟩, hcolumn⟩ := h
  obtain ⟨m', hvalue', ⟨top', htop', hm'⟩, hle⟩ := newWatermark_latest hobs hwm
  have hsame := (formatTs_eq_iff hvalue' hvalue).mp rfl
  refine ⟨observeAll_dates_iff.mp ⟨strategy, hobs⟩, fun doc hdoc d hd => ?_,
    fun doc hdoc e he => ⟨top, htop, m, hm, ?_⟩⟩
  · obtain ⟨v, hv, hcol⟩ := hcolumn doc hdoc d hd
    refine ⟨inYears_of_formatTs hv, ?_⟩
    by_cases hdated : ∃ e, get doc field = some (.date e)
    · obtain ⟨e, he⟩ := hdated
      rw [column_dated he] at hcol
      exact ⟨e, he, (formatTs_eq_iff hcol hv).mp rfl⟩
    · rw [column_undated fun e he => hdated ⟨e, he⟩] at hcol
      obtain rfl := Except.ok.inj hcol
      exact absurd hv formatTs_ne_empty
  · rw [← hsame]
    exact millis_le (hle doc hdoc e he)

/-- **The agent reads the field that MongoDB finds** if and only if the documents have it as a
field of their own. -/
theorem readsFound_iff (hmode : cfg.mode = .mutable) (hfield : cfg.watermarkField = some field)
    (hsome : ∃ doc ∈ docs, ∃ d, lookup field doc = some (.date d)) :
    ReadsFound text cfg field docs ↔ OwnField field docs :=
  ⟨own_of_readsFound hmode hfield, readsFound_of_own hmode hfield hsome⟩

/-! ### Names with and without dots -/

/-- Under a name without dots the field that MongoDB finds is one of the document itself. -/
lemma ownField_of_plain (hplain : '.' ∉ field.toList) (hkind : OneKind field docs)
    (hyears : ∀ doc ∈ docs, ∀ d, get doc field = some (.date d) → InYears d) :
    OwnField field docs := by
  refine ⟨hkind, fun doc hdoc d hd => ?_, fun doc hdoc e he => ⟨doc, hdoc, e, ?_, le_rfl⟩⟩
  · rw [lookup_eq_get hplain] at hd
    exact ⟨hyears doc hdoc d hd, d, hd, rfl⟩
  · rwa [lookup_eq_get hplain]

/-- Without a field of the whole name there is never a watermark. -/
lemma newWatermark_none (hnone : ∀ doc ∈ docs, get doc field = none) {strategy : Strategy}
    (hobs : Strategy.observeAll text docs (.timestamp cfg field none) = .ok strategy) :
    strategy.newWatermark text = .ok none := by
  obtain ⟨maxVal, rfl, ⟨rfl, -⟩ | ⟨m, rfl, ⟨top, htop, hm⟩, -⟩⟩ := observeAll_latest hobs
  · rfl
  · rw [hnone top htop] at hm
    cases hm

/-! ### A date in an embedded document -/

def nestedToml : Table :=
  [("agent", .table [("state_db", .str "state.db"), ("spool_dir", .str "spool")]),
    ("s3", .table [("bucket", .str "landing")]),
    ("mongo", .table [("database", .str "AlteryxService"), ("collections", .array [.table
      [("name", .str "AS_Jobs"), ("mode", .str "mutable"),
        ("watermark_field", .str "meta.updated")]])])]

def nestedCollection : CollectionConfig where
  name := "AS_Jobs"
  mode := .mutable
  watermarkField := some "meta.updated"
  field_of_mutable := by decide

/-- A job whose time is in an embedded document. -/
def nestedJob (updated : Datetime) : Doc := [("meta", .doc [("updated", .date updated)])]

/-- A job that has the time under the whole name, too. -/
def doubleJob (updated : Datetime) : Doc :=
  [("meta", .doc [("updated", .date updated)]), ("meta.updated", .date updated)]

theorem readsFound_double :
    ReadsFound (fun _ => "") nestedCollection "meta.updated" [doubleJob (later 0)] := by
  have hown : ∀ d, get (doubleJob (later 0)) "meta.updated" = some (.date d) → later 0 = d :=
    fun d hd => Value.date.inj (Option.some.inj hd)
  have hfound : ∀ d, lookup "meta.updated" (doubleJob (later 0)) = some (.date d) → later 0 = d :=
    fun d hd => Value.date.inj (Option.some.inj hd)
  refine (readsFound_iff rfl rfl ⟨_, List.mem_singleton_self _, later 0, rfl⟩).mpr
    ⟨⟨true, ?_⟩, ?_, ?_⟩
  all_goals
    intro doc hdoc d hd
    obtain rfl := List.mem_singleton.mp hdoc
  · obtain rfl := hown d hd
    rfl
  · obtain rfl := hfound d hd
    exact ⟨⟨by decide, by decide⟩, later 0, rfl, rfl⟩
  · obtain rfl := hown d hd
    exact ⟨_, hdoc, later 0, rfl, le_rfl⟩

/-- MongoDB finds the time in every job; the agent stores no watermark, and the column is empty. -/
theorem nested_field_unread :
    (∃ agent, loadConfig "logs" "agent.toml" (.ok nestedToml) = .ok agent ∧
      nestedCollection ∈ agent.collections) ∧
    lookup "meta.updated" (nestedJob (later 0)) = some (.date (later 0)) ∧
    Strategy.observeAll (fun _ => "") [nestedJob (later 0)] (makeStrategy nestedCollection) =
      .ok (makeStrategy nestedCollection) ∧
    (makeStrategy nestedCollection).newWatermark (fun _ => "") = .ok none ∧
    (makeStrategy nestedCollection).watermarkColumnValue (fun _ => "") (nestedJob (later 0)) =
      .ok "" ∧
    ¬ ReadsFound (fun _ => "") nestedCollection "meta.updated" [nestedJob (later 0)] := by
  refine ⟨⟨_, rfl, List.mem_singleton_self _⟩, rfl, rfl, rfl, rfl, fun h => ?_⟩
  obtain ⟨-, e, he, -⟩ := (own_of_readsFound rfl rfl h).found _ (List.mem_singleton_self _)
    (later 0) rfl
  cases he

end MongoSyncAgent.DottedFields
