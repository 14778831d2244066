import MongoSyncAgent.WatermarkHistory
import Mathlib.Order.Bounds.Basic

/-!
The watermark of a run and the `_watermark` column of its rows.

The strategy compares ids and times, and writes down the greatest; the column holds a text for
every document, and a reader compares those. They come to the same, in whatever order the
documents come.
-/

namespace MongoSyncAgent.WatermarkColumn

open MongoSyncAgent.Py MongoSyncAgent.Bson MongoSyncAgent.Config MongoSyncAgent.Timestamps
open MongoSyncAgent.Watermarks MongoSyncAgent.AppendOnly MongoSyncAgent.MutableCursor
open MongoSyncAgent.WatermarkHistory MongoSyncAgent.Runtime
open MongoSyncAgent.Mutable hiding sampleCollection filterFor_stored

variable {cfg : CollectionConfig} {field : String} {docs : List Doc}

/-- The dates of a field are all naive or all with a time zone, so that they compare. -/
def OneKind (field : String) (docs : List Doc) : Prop :=
  ∃ aware, ∀ doc ∈ docs, ∀ d, get doc field = some (.date d) → d.tzinfo.isSome = aware

/-- The time in UTC is in the years 1 to 9999. -/
def InYears (d : Datetime) : Prop := 0 ≤ d.instant ∧ d.instant < wallLimit

/-- What the strategy of a collection goes by: ids that are ObjectIds, or dates that compare and
can be written in UTC, in as many of the documents as have one. -/
def Trackable (cfg : CollectionConfig) (docs : List Doc) : Prop :=
  match cfg.mode with
  | .appendOnly => docs ≠ [] ∧ ∀ doc ∈ docs, ∃ o, get doc "_id" = some (.oid o)
  | .mutable => ∃ field, cfg.watermarkField = some field ∧ OneKind field docs ∧
      (∀ doc ∈ docs, ∀ d, get doc field = some (.date d) → InYears d) ∧
      ∃ doc ∈ docs, ∃ d, get doc field = some (.date d)
  | .fullRefresh => False

variable (text : Value → String)

/-- After these documents the new watermark is the greatest text of their column. -/
def GreatestOfColumn (start : Strategy) (docs : List Doc) : Prop :=
  ∃ strategy value, start.observeAll text docs = .ok strategy ∧
    strategy.newWatermark text = .ok (some value) ∧
    (∀ doc ∈ docs, ∃ v, strategy.watermarkColumnValue text doc = .ok v) ∧
    IsGreatest {v | ∃ doc ∈ docs, strategy.watermarkColumnValue text doc = .ok v} value

variable {text}

/-! ### What can be written -/

lemma toUtc_defined {d : Datetime} (h : InYears d) : ∃ u, toUtc d = .ok u := by
  unfold toUtc
  split_ifs with haware
  · unfold InYears at h
    unfold Datetime.astimezoneUtc Datetime.ofMicros
    rw [dif_pos h]
    exact ⟨_, rfl⟩
  · exact ⟨_, rfl⟩

lemma formatTs_defined {d : Datetime} (h : InYears d) : ∃ v, formatTs d = .ok v := by
  obtain ⟨u, hu⟩ := toUtc_defined h
  exact ⟨String.ofList (tsChars u), by rw [formatTs, hu]; rfl⟩

lemma inYears_of_formatTs {d : Datetime} {v : String} (h : formatTs d = .ok v) : InYears d := by
  obtain ⟨u, hu, -⟩ := bind_ok h
  have hwall := toUtc_wall hu
  have hlt := u.wall_lt
  unfold InYears
  omega

/-- The text of a time tells its milliseconds, and nothing else. -/
lemma formatTs_eq_iff {d e : Datetime} {a b : String} (hd : formatTs d = .ok a)
    (he : formatTs e = .ok b) : a = b ↔ millis d = millis e := by
  unfold millis
  constructor
  · rintro rfl
    obtain ⟨t, ht, -, hwall⟩ := strptime_formatTs hd
    obtain ⟨t', ht', -, hwall'⟩ := strptime_formatTs he
    obtain rfl := Except.ok.inj (ht.symm.trans ht')
    omega
  · intro hmillis
    obtain ⟨u, hu, ha⟩ := bind_ok hd
    obtain ⟨v, hv, hb⟩ := bind_ok he
    obtain rfl := Except.ok.inj ha
    obtain rfl := Except.ok.inj hb
    have hwall := toUtc_wall hu
    have hwall' := toUtc_wall hv
    rw [tsChars_congr (d := u) (e := v) (by omega)]

lemma empty_le (v : String) : "" ≤ v := by
  refine String.not_lt.mp fun h => ?_
  rw [String.lt_iff] at h
  exact List.not_lt_nil _ h

/-! ### What can be observed -/

/-- A document that has no date there is passed over. -/
lemma observe_undated {doc : Doc} (h : ∀ d, get doc field ≠ some (.date d))
    {maxVal : Option Datetime} : Strategy.observe text doc (.timestamp cfg field maxVal) =
      .ok (.timestamp cfg field maxVal) := by
  simp only [Strategy.observe]

/-- It has an empty text in the column. -/
lemma column_undated {doc : Doc} (h : ∀ d, get doc field ≠ some (.date d))
    {maxVal : Option Datetime} :
    Strategy.watermarkColumnValue text doc (.timestamp cfg field maxVal) = .ok "" := by
  simp only [Strategy.watermarkColumnValue]

lemma column_dated {doc : Doc} {d : Datetime} (h : get doc field = some (.date d))
    {maxVal : Option Datetime} :
    Strategy.watermarkColumnValue text doc (.timestamp cfg field maxVal) = formatTs d := by
  simp only [Strategy.watermarkColumnValue, h]

lemma observeAll_ids {maxId : Option Value} (hmax : ∀ v, maxId = some v → ∃ m, v = .oid m)
    (hids : ∀ doc ∈ docs, ∃ o, get doc "_id" = some (.oid o)) :
    ∃ strategy, Strategy.observeAll text docs (.objectId cfg maxId) = .ok strategy := by
  induction docs generalizing maxId with
  | nil => exact ⟨_, rfl⟩
  | cons doc docs ih =>
    obtain ⟨o, ho⟩ := hids doc List.mem_cons_self
    have hrest := fun doc' hdoc' => hids doc' (List.mem_cons_of_mem doc hdoc')
    simp only [Strategy.observeAll, Strategy.observe, ho]
    rcases maxId with _ | v
    · exact ih (fun v hv => ⟨o, (Option.some.inj hv).symm⟩) hrest
    · obtain ⟨m, rfl⟩ := hmax v rfl
      refine ih (fun v hv => ?_) hrest
      obtain rfl := Option.some.inj hv
      by_cases hlt : m.val < o.val
      · exact ⟨o, by simp [hlt]⟩
      · exact ⟨m, by simp [hlt]⟩

/-- Dates of one kind can be observed one after the other. -/
lemma observeAll_dates {aware : Bool} {maxVal : Option Datetime}
    (hmax : ∀ d, maxVal = some d → d.tzinfo.isSome = aware)
    (hdates : ∀ doc ∈ docs, ∀ d, get doc field = some (.date d) → d.tzinfo.isSome = aware) :
    ∃ strategy, Strategy.observeAll text docs (.timestamp cfg field maxVal) = .ok strategy := by
  induction docs generalizing maxVal with
  | nil => exact ⟨_, rfl⟩
  | cons doc docs ih =>
    have hrest := fun doc' hdoc' => hdates doc' (List.mem_cons_of_mem doc hdoc')
    by_cases hdated : ∃ e, get doc field = some (.date e)
    · obtain ⟨e, he⟩ := hdated
      have hkind := hdates doc List.mem_cons_self e he
      simp only [Strategy.observeAll, Strategy.observe, he]
      rcases maxVal with _ | m
      · exact ih (fun d hd => by rw [← Option.some.inj hd, hkind]) hrest
      · have hm := hmax m rfl
        simp only [Strategy.observeDate, Datetime.gt, if_pos (hkind.trans hm.symm)]
        refine ih (fun d hd => ?_) hrest
        rw [← Option.some.inj hd]
        split_ifs
        · exact hkind
        · exact hm
    · rw [Strategy.observeAll, observe_undated fun d hd => hdated ⟨d, hd⟩]
      exact ih hmax hrest

/-- **Dates can be observed** if and only if they are of one kind. -/
theorem observeAll_dates_iff :
    (∃ strategy, Strategy.observeAll text docs (.timestamp cfg field none) = .ok strategy) ↔
      OneKind field docs := by
  refine ⟨fun ⟨strategy, h⟩ => ?_, fun ⟨aware, h⟩ => observeAll_dates (by simp) h⟩
  refine observeAll_invariant ?_ ?_ h
  · exact ⟨false, by simp⟩
  rintro docs doc before after hbefore ⟨aware, hall⟩ hlast
  obtain ⟨maxVal, rfl, hmax⟩ := observeAll_latest hbefore
  by_cases hdated : ∃ e, get doc field = some (.date e)
  · obtain ⟨e, he⟩ := hdated
    refine ⟨e.tzinfo.isSome, fun doc' hdoc' d hd => ?_⟩
    rcases List.mem_append.mp hdoc' with hdoc' | hdoc'
    · rcases hmax with ⟨-, hnone⟩ | ⟨m, rfl, ⟨top, htop, hm⟩, -⟩
      · exact absurd hd (hnone doc' hdoc' d)
      -- the comparison of this date with the latest one returned
      simp only [Strategy.observe, he] at hlast
      obtain ⟨_, hobs, -⟩ := bind_ok hlast
      obtain ⟨_, hgt, -⟩ := bind_ok hobs
      unfold Datetime.gt at hgt
      split_ifs at hgt with hkind
      · rw [hkind, hall doc' hdoc' d hd, hall top htop m hm]
      · cases hgt
    · rw [List.mem_singleton.mp hdoc', he] at hd
      rw [Value.date.inj (Option.some.inj hd)]
  · refine ⟨aware, fun doc' hdoc' d hd => ?_⟩
    rcases List.mem_append.mp hdoc' with hdoc' | hdoc'
    · exact hall doc' hdoc' d hd
    · rw [List.mem_singleton.mp hdoc'] at hd
      exact absurd ⟨d, hd⟩ hdated

/-- Whatever the documents, a watermark of theirs is the text of their latest date. -/
lemma newWatermark_latest {strategy : Strategy} {value : String}
    (hobs : Strategy.observeAll text docs (.timestamp cfg field none) = .ok strategy)
    (hwm : strategy.newWatermark text = .ok (some value)) :
    ∃ m, formatTs m = .ok value ∧ Latest field docs m := by
  obtain ⟨maxVal, rfl, ⟨rfl, -⟩ | ⟨m, rfl, hlatest⟩⟩ := observeAll_latest hobs
  · cases hwm
  · obtain ⟨v, hv, hwm⟩ := bind_ok hwm
    obtain rfl := Option.some.inj (Except.ok.inj hwm)
    exact ⟨m, hv, hlatest⟩

/-! ### The greatest text -/

lemma greatest_ids (hne : docs ≠ []) (hids : ∀ doc ∈ docs, ∃ o, get doc "_id" = some (.oid o)) :
    GreatestOfColumn text (.objectId cfg none) docs := by
  obtain ⟨strategy, hobs⟩ : ∃ strategy, Strategy.observeAll text docs (.objectId cfg none) =
      .ok strategy := observeAll_ids (by simp) hids
  obtain ⟨maxId, rfl, ⟨-, hnil⟩ | ⟨o, rfl, ⟨top, htop, ho⟩, hle⟩⟩ := observeAll_greatest hids hobs
  · exact absurd hnil hne
  have hcolumn : ∀ {doc o'}, get doc "_id" = some (.oid o') →
      Strategy.watermarkColumnValue text doc (.objectId cfg (some (.oid o))) = .ok o'.str := by
    intro doc o' ho'
    simp [Strategy.watermarkColumnValue, ho', pyStr]
  refine ⟨_, o.str, hobs, rfl, fun doc hdoc => ?_, ⟨top, htop, hcolumn ho⟩, ?_⟩
  · obtain ⟨o', ho'⟩ := hids doc hdoc
    exact ⟨_, hcolumn ho'⟩
  · rintro v ⟨doc, hdoc, hv⟩
    obtain ⟨o', ho'⟩ := hids doc hdoc
    obtain rfl := Except.ok.inj ((hcolumn ho').symm.trans hv)
    exact String.not_lt.mp fun hlt => (hle doc hdoc o' ho').not_gt (ObjectId.str_lt_iff.mp hlt)

lemma greatest_dates (hkind : OneKind field docs)
    (hyears : ∀ doc ∈ docs, ∀ d, get doc field = some (.date d) → InYears d)
    (hsome : ∃ doc ∈ docs, ∃ d, get doc field = some (.date d)) :
    GreatestOfColumn text (.timestamp cfg field none) docs := by
  obtain ⟨strategy, hobs⟩ : ∃ strategy, Strategy.observeAll text docs (.timestamp cfg field none) =
      .ok strategy := observeAll_dates_iff.mpr hkind
  obtain ⟨maxVal, rfl, ⟨-, hnone⟩ | ⟨m, rfl, ⟨top, htop, hm⟩, hle⟩⟩ := observeAll_latest hobs
  · obtain ⟨doc, hdoc, d, hd⟩ := hsome
    exact absurd hd (hnone doc hdoc d)
  obtain ⟨value, hvalue⟩ := formatTs_defined (hyears top htop m hm)
  have hempty : ∀ {doc}, (¬ ∃ d, get doc field = some (.date d)) →
      Strategy.watermarkColumnValue text doc (.timestamp cfg field (some m)) = .ok "" :=
    fun hdoc => column_undated fun d hd => hdoc ⟨d, hd⟩
  refine ⟨_, value, hobs, ?_, fun doc hdoc => ?_, ⟨top, htop, (column_dated hm).trans hvalue⟩, ?_⟩
  · simp only [Strategy.newWatermark, hvalue]
    rfl
  · by_cases hdated : ∃ d, get doc field = some (.date d)
    · obtain ⟨d, hd⟩ := hdated
      rw [column_dated hd]
      exact formatTs_defined (hyears doc hdoc d hd)
    · exact ⟨"", hempty hdated⟩
  · rintro v ⟨doc, hdoc, hv⟩
    by_cases hdated : ∃ d, get doc field = some (.date d)
    · obtain ⟨d, hd⟩ := hdated
      rw [column_dated hd] at hv
      exact formatTs_le hv hvalue (hle doc hdoc d hd)
    · obtain rfl := Except.ok.inj ((hempty hdated).symm.trans hv)
      exact empty_le value

/-- **The new watermark is the greatest text of the column.** -/
theorem newWatermark_greatest (h : Trackable cfg docs) :
    GreatestOfColumn text (makeStrategy cfg) docs := by
  unfold Trackable at h
  rcases hmode : cfg.mode <;> rw [hmode] at h
  · rw [makeStrategy_appendOnly hmode]
    exact greatest_ids h.1 h.2
  · obtain ⟨field, hfield, hkind, hyears, hsome⟩ := h
    rw [makeStrategy_mutable hmode hfield]
    exact greatest_dates hkind hyears hsome
  · exact h.elim

/-! ### Ids out of order, and times in two zones -/

def smallId (n : Fin 256) : ObjectId := ⟨n, by omega⟩

def sampleIds : List Doc :=
  [[("_id", .oid (smallId 5))], [("_id", .oid (smallId 255))], [("_id", .oid (smallId 31))]]

/-- An hour before the sample time on a clock that is two hours behind UTC. -/
def behindUtc : Datetime := ⟨62999996400000000, some (-7200000000), by unfold wallLimit; omega⟩

def sampleTimes : List Doc :=
  [[("dtModified", .date sampleNow)], [("dtModified", .str "never")], [],
    [("dtModified", .date behindUtc)]]

theorem newWatermark_greatest_sample :
    GreatestOfColumn (fun _ => "") (makeStrategy sampleCollection) sampleIds ∧
      GreatestOfColumn (fun _ => "") (makeStrategy Mutable.sampleCollection) sampleTimes := by
  refine ⟨newWatermark_greatest ⟨by decide, ?_⟩, newWatermark_greatest ⟨_, rfl, ⟨true, ?_⟩, ?_, ?_⟩⟩
  · simp [sampleIds, Bson.get]
  · simp [sampleTimes, Bson.get, sampleNow, behindUtc]
  · simp [sampleTimes, Bson.get, sampleNow, behindUtc, InYears, Datetime.instant, wallLimit]
  · exact ⟨_, List.mem_cons_self, _, rfl⟩

end MongoSyncAgent.WatermarkColumn
