import MongoSyncAgent.WatermarkColumn
import MongoSyncAgent.FirstBounds

/-!
The timestamp watermark, from the dates of one run to the filter of the next.

The text keeps milliseconds and reads back. The overlap is then taken off in the calendar, which
begins with the year 1: the round trip is good as long as the latest date is not within the overlap
of that beginning, where a system may well put its dates that mean "never".
-/

namespace MongoSyncAgent.EarlyDates

open MongoSyncAgent.Py MongoSyncAgent.Bson MongoSyncAgent.Config MongoSyncAgent.Timestamps
open MongoSyncAgent.Watermarks MongoSyncAgent.Mutable MongoSyncAgent.MutableCursor
open MongoSyncAgent.FirstBounds hiding sampleCollection
open MongoSyncAgent.WatermarkColumn

variable {cfg : CollectionConfig} {field : String} {docs : List Doc}

/-- There are documents, and each has a date in the field, naive or in UTC. -/
def AllDated (field : String) (docs : List Doc) : Prop :=
  docs ≠ [] ∧ ∀ doc ∈ docs, ∃ d, get doc field = some (.date d) ∧ d.tzinfo.getD 0 = 0

/-- The watermark of these documents gives a filter. It begins the overlap before the latest date,
floored to the millisecond, or where the calendar begins, and it finds whatever is written at that
date or later. -/
def RoundTrips (text : Value → String) (cfg : CollectionConfig) (field : String)
    (docs : List Doc) : Prop :=
  ∃ strategy value m lb, (makeStrategy cfg).observeAll text docs = .ok strategy ∧
    strategy.newWatermark text = .ok (some value) ∧ Latest field docs m ∧
    (makeStrategy cfg).buildFilter (some value) = .ok (.fieldGte field lb) ∧
    lb.instant = max 0 (m.instant / 1000 * 1000 - cfg.overlapSeconds * 1000000) ∧
    lb.instant ≤ m.instant ∧
    ∀ doc d, lookup field doc = some (.date d) → m.instant ≤ d.instant →
      (Filter.fieldGte field lb).matches doc

/-- One of the dates, floored to the millisecond, is as far from the beginning of the calendar as
the overlap is long. -/
def ReachesOverlap (cfg : CollectionConfig) (field : String) (docs : List Doc) : Prop :=
  ∃ doc ∈ docs, ∃ d, get doc field = some (.date d) ∧
    cfg.overlapSeconds * 1000000 ≤ d.instant / 1000 * 1000

variable {text : Value → String}

lemma instant_eq_wall {d : Datetime} (h : d.tzinfo.getD 0 = 0) : d.instant = d.wall := by
  rw [Datetime.instant, h, sub_zero]

lemma buildFilter_timestamp (value : String) :
    Strategy.buildFilter (some value) (.timestamp cfg field none) =
      (do return .fieldGte field (← timestampBound cfg value)) := rfl

lemma reaches_of_roundTrips (hmode : cfg.mode = .mutable)
    (hfield : cfg.watermarkField = some field) (h : RoundTrips text cfg field docs) :
    OneKind field docs ∧ ReachesOverlap cfg field docs := by
  obtain ⟨strategy, value, -, lb, hobs, hwm, -, hfilter, -⟩ := h
  rw [makeStrategy_mutable hmode hfield] at hobs hfilter
  refine ⟨observeAll_dates_iff.mp ⟨strategy, hobs⟩, ?_⟩
  obtain ⟨m, hvalue, ⟨top, htop, hm⟩, -⟩ := newWatermark_latest hobs hwm
  rw [buildFilter_timestamp] at hfilter
  obtain ⟨lb', hlb, -⟩ := bind_ok hfilter
  have hpos := timestampBound_nonneg hlb
  rw [timestampBound_denotes ⟨m, hvalue, rfl⟩ hlb] at hpos
  exact ⟨top, htop, m, hm, by omega⟩

lemma roundTrips_of_reaches (hmode : cfg.mode = .mutable)
    (hfield : cfg.watermarkField = some field) (hpos : 0 ≤ cfg.overlapSeconds)
    (hdated : AllDated field docs) (hkind : OneKind field docs)
    (hreach : ReachesOverlap cfg field docs) : RoundTrips text cfg field docs := by
  obtain ⟨doc, hdoc, d, hd, hfar⟩ := hreach
  obtain ⟨strategy, hobs⟩ : ∃ strategy, Strategy.observeAll text docs (.timestamp cfg field none) =
      .ok strategy := observeAll_dates_iff.mpr hkind
  obtain ⟨maxVal, rfl, ⟨-, hnone⟩ | ⟨m, rfl, hlatest⟩⟩ := observeAll_latest hobs
  · exact absurd hd (hnone doc hdoc d)
  obtain ⟨⟨top, htop, hm⟩, hle⟩ := hlatest
  have hwall : m.instant = m.wall := by
    obtain ⟨m', hm', hutc⟩ := hdated.2 top htop
    obtain rfl := Value.date.inj (Option.some.inj (hm.symm.trans hm'))
    exact instant_eq_wall hutc
  have hyears : InYears m := by
    have hlt := m.wall_lt
    unfold InYears
    omega
  obtain ⟨value, hvalue⟩ := formatTs_defined hyears
  obtain ⟨t, ht, -, htwall⟩ := strptime_formatTs hvalue
  have hlater := hle doc hdoc d hd
  obtain ⟨lb, hlb⟩ : ∃ lb, timestampBound cfg value = .ok lb :=
    timestampBound_defined ht hpos (by omega)
  have hinstant := timestampBound_denotes ⟨m, hvalue, rfl⟩ hlb
  refine ⟨_, value, m, lb, by rw [makeStrategy_mutable hmode hfield]; exact hobs, ?_,
    ⟨⟨top, htop, hm⟩, hle⟩, ?_, by omega, by omega, fun doc' d' hd' hle' => ?_⟩
  · simp only [Strategy.newWatermark, hvalue]
    rfl
  · rw [makeStrategy_mutable hmode hfield, buildFilter_timestamp, hlb]
    rfl
  · exact matches_of_instant (by omega) hd'

/-- **The watermark round-trips into the next filter** if and only if its dates are of one kind
and one of them is no nearer to the beginning of the calendar than the overlap is long. -/
theorem roundTrips_iff (hmode : cfg.mode = .mutable) (hfield : cfg.watermarkField = some field)
    (hpos : 0 ≤ cfg.overlapSeconds) (hdated : AllDated field docs) :
    RoundTrips text cfg field docs ↔ OneKind field docs ∧ ReachesOverlap cfg field docs :=
  ⟨reaches_of_roundTrips hmode hfield, fun h =>
    roundTrips_of_reaches hmode hfield hpos hdated h.1 h.2⟩

/-! ### A date that means never -/

/-- `datetime.min`. -/
def minDate : Datetime := ⟨0, none, by decide⟩

/-- The first second after the overlap, less a little. -/
def halfMinute : Datetime := ⟨30000999, none, by decide⟩

lemma allDated_jobs (modified : List Datetime) (hne : modified ≠ [])
    (hutc : ∀ d ∈ modified, d.tzinfo.getD 0 = 0) :
    AllDated "dtModified" (modified.map (job 1)) := by
  refine ⟨by simpa using hne, fun doc hdoc => ?_⟩
  obtain ⟨d, hd, rfl⟩ := List.mem_map.mp hdoc
  exact ⟨d, rfl, hutc d hd⟩

theorem roundTrips_sample : RoundTrips (fun _ => "") sampleCollection "dtModified"
    ([minDate, halfMinute].map (job 1)) := by
  have hdated := allDated_jobs [minDate, halfMinute] (by simp) (by simp [minDate, halfMinute])
  refine (roundTrips_iff rfl rfl (by decide) hdated).mpr ⟨⟨false, fun doc hdoc d hd => ?_⟩, ?_⟩
  · obtain ⟨e, he, rfl⟩ := List.mem_map.mp hdoc
    obtain rfl : e = d := Value.date.inj (Option.some.inj hd)
    rcases List.mem_pair.mp he with rfl | rfl <;> rfl
  · exact ⟨job 1 halfMinute, by simp, halfMinute, rfl, by decide⟩

/-- A collection in which nothing was ever modified: the watermark is written, and no run that
finds it stored can go on from it. -/
theorem minimum_date_overflows :
    AllDated "dtModified" [job 1 minDate] ∧ OneKind "dtModified" [job 1 minDate] ∧
    Datetime.timedelta sampleCollection.overlapSeconds = .ok 30000000 ∧
    formatTs minDate = .ok "0001-01-01T00:00:00.000Z" ∧
    (makeStrategy sampleCollection).buildFilter (some "0001-01-01T00:00:00.000Z") =
      .error ⟨.overflowError, "date value out of range"⟩ ∧
    ¬ RoundTrips (fun _ => "") sampleCollection "dtModified" [job 1 minDate] := by
  refine ⟨allDated_jobs [minDate] (by simp) (by simp [minDate]), ⟨false, ?_⟩, rfl, rfl, rfl,
    fun h => ?_⟩
  · intro doc hdoc d hd
    obtain rfl := List.mem_singleton.mp hdoc
    obtain rfl : minDate = d := Value.date.inj (Option.some.inj hd)
    rfl
  · obtain ⟨doc, hdoc, d, hd, hfar⟩ := (reaches_of_roundTrips rfl rfl h).2
    obtain rfl := List.mem_singleton.mp hdoc
    obtain rfl : minDate = d := Value.date.inj (Option.some.inj hd)
    exact absurd hfar (by decide)

end MongoSyncAgent.EarlyDates
