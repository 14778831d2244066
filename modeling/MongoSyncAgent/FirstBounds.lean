import MongoSyncAgent.AppendOnly
import MongoSyncAgent.LoadConfig
import MongoSyncAgent.Mutable

/-!
The first run of a collection: what an accepted configuration asks for before anything is stored.

The configured initial watermark is a text and the overlap is any integer, so the lower bound is
computed only when the run asks for it. The texts and the overlaps with which it lies before the
initial watermark are characterised.
-/

namespace MongoSyncAgent.FirstBounds

open MongoSyncAgent.Py MongoSyncAgent.Bson MongoSyncAgent.Config MongoSyncAgent.Timestamps
open MongoSyncAgent.Watermarks MongoSyncAgent.Extract MongoSyncAgent.LoadConfig

/-- The lower bound of a filter, if it has one, is not above the initial watermark. -/
def NotAbove (cfg : CollectionConfig) : Filter → Prop
  | .all => True
  | .idGt lb => ∃ text o, cfg.initialWatermark = some text ∧ ObjectId.ofStr text = .ok o ∧
      lb.val ≤ o.val
  | .fieldGte _ lb => ∃ text t, cfg.initialWatermark = some text ∧ strptime text = .ok t ∧
      lb.instant ≤ t.wall

/-- The document is at or after the initial watermark, in the field that the collection goes by. -/
def FromInitial (cfg : CollectionConfig) (doc : Doc) : Prop :=
  ∀ text, cfg.initialWatermark = some text →
    match cfg.mode with
    | .appendOnly => ∃ o p, ObjectId.ofStr text = .ok o ∧ lookup "_id" doc = some (.oid p) ∧
        o.val ≤ p.val
    | .mutable => ∃ t field d, strptime text = .ok t ∧ cfg.watermarkField = some field ∧
        lookup field doc = some (.date d) ∧ t.wall ≤ d.instant
    | .fullRefresh => True

/-- `build_filter(None)` returns, its bound is not above the initial watermark, and nothing from
there on is left out. -/
def Usable (cfg : CollectionConfig) : Prop :=
  ∃ filter, filterFor cfg none = .ok filter ∧ NotAbove cfg filter ∧
    ∀ doc, FromInitial cfg doc → filter.matches doc

/-- The initial watermark is one of the mode, and the overlap reaches back from it, but not too
far; an overlap of nothing must not begin at an ObjectId with a zero tail. -/
def ReachesBack (cfg : CollectionConfig) : Prop :=
  ∀ text, cfg.initialWatermark = some text →
    match cfg.mode with
    | .appendOnly => ∃ o, ObjectId.ofStr text = .ok o ∧ 0 ≤ cfg.overlapSeconds ∧
        cfg.overlapSeconds ≤ o.seconds ∧ (cfg.overlapSeconds = 0 → o.low ≠ 0)
    | .mutable => ∃ t, strptime text = .ok t ∧ 0 ≤ cfg.overlapSeconds ∧
        cfg.overlapSeconds * 1000000 ≤ t.wall
    | .fullRefresh => True

variable {cfg : CollectionConfig} {text field : String}

/-! ### What the first run asks for -/

lemma filterFor_fullRefresh (h : cfg.mode = .fullRefresh) (stored : Option State.Watermark) :
    filterFor cfg stored = .ok .all := by
  unfold filterFor makeStrategy
  split
  · rename_i hm
    rw [h] at hm
    cases hm
  · rename_i hm
    rw [h] at hm
    cases hm
  · rfl

lemma filterFor_objectId (h : cfg.mode = .appendOnly) (ht : cfg.initialWatermark = some text) :
    filterFor cfg none = do return .idGt (← objectIdBound cfg text) := by
  rw [filterFor, AppendOnly.makeStrategy_appendOnly h]
  simp only [Strategy.buildFilter, boundText, ht]
  rfl

lemma filterFor_timestamp (h : cfg.mode = .mutable) (hfield : cfg.watermarkField = some field)
    (ht : cfg.initialWatermark = some text) :
    filterFor cfg none = do return .fieldGte field (← timestampBound cfg text) := by
  rw [filterFor, Mutable.makeStrategy_mutable h hfield]
  simp only [Strategy.buildFilter, boundText, ht]
  rfl

lemma usable_of_all (h : filterFor cfg none = .ok .all) : Usable cfg :=
  ⟨.all, h, trivial, fun _ _ => rfl⟩

/-! ### Append-only collections -/

lemma usable_objectId (h : cfg.mode = .appendOnly) (ht : cfg.initialWatermark = some text) :
    Usable cfg ↔ ∃ o, ObjectId.ofStr text = .ok o ∧ 0 ≤ cfg.overlapSeconds ∧
      cfg.overlapSeconds ≤ o.seconds ∧ (cfg.overlapSeconds = 0 → o.low ≠ 0) := by
  unfold Usable
  rw [filterFor_objectId h ht]
  constructor
  · rintro ⟨filter, hf, hle, hall⟩
    obtain ⟨lb, hlb, hf⟩ := bind_ok hf
    obtain rfl := Except.ok.inj hf
    obtain ⟨o, ho, hval⟩ := objectIdBound_ok hlb
    obtain ⟨text', o', ht', ho', hle⟩ := hle
    obtain rfl := Option.some.inj (ht.symm.trans ht')
    obtain rfl := Except.ok.inj (ho.symm.trans ho')
    have hsplit := o.val_eq
    have hlow := o.low_lt
    refine ⟨o, ho, by omega, by omega, fun hzero hnone => ?_⟩
    -- the document at the initial watermark itself is not above the bound
    have hmatch := hall [("_id", .oid o)] fun text' ht' => by
      obtain rfl := Option.some.inj (ht.symm.trans ht')
      rw [h]
      exact ⟨o, o, ho, rfl, le_rfl⟩
    have hlt : lb.val < o.val := by
      simpa [Filter.matches, AppendOnly.lookup_id, Bson.get] using hmatch
    omega
  · rintro ⟨o, ho, hpos, hle, hzero⟩
    obtain ⟨lb, hlb⟩ := objectIdBound_defined hpos ho hle
    obtain ⟨o', ho', hval⟩ := objectIdBound_ok hlb
    obtain rfl := Except.ok.inj (ho.symm.trans ho')
    have hsplit := o.val_eq
    have hlt : lb.val < o.val := by
      rcases Nat.eq_zero_or_pos o.low with hlow | hlow
      · have hne : cfg.overlapSeconds ≠ 0 := fun h0 => hzero h0 hlow
        omega
      · omega
    refine ⟨.idGt lb, by rw [hlb]; rfl, ⟨text, o, ht, ho, hlt.le⟩, fun doc hdoc => ?_⟩
    have hfrom := hdoc text ht
    rw [h] at hfrom
    obtain ⟨o', p, ho', hp, hop⟩ := hfrom
    obtain rfl := Except.ok.inj (ho.symm.trans ho')
    simp [Filter.matches, hp, hlt.trans_le hop]

/-! ### Mutable collections -/

/-- A bound that does not reach behind the first year. -/
lemma timestampBound_defined {t : Datetime} (ht : strptime text = .ok t)
    (hpos : 0 ≤ cfg.overlapSeconds) (hle : cfg.overlapSeconds * 1000000 ≤ t.wall) :
    ∃ lb, timestampBound cfg text = .ok lb := by
  have hwall := t.wall_lt
  have hdelta : Datetime.timedelta cfg.overlapSeconds = .ok (cfg.overlapSeconds * 1000000) := by
    unfold Datetime.timedelta
    unfold wallLimit at hwall
    rw [if_pos (by omega)]
  obtain ⟨lb, hlb⟩ : ∃ lb, t.replaceUtc.sub (cfg.overlapSeconds * 1000000) = .ok lb := by
    unfold Datetime.sub Datetime.ofMicros
    rw [Datetime.replaceUtc_wall, dif_pos (by omega)]
    exact ⟨_, rfl⟩
  exact ⟨lb, by rw [timestampBound, ht, ok_bind, hdelta, ok_bind, hlb]⟩

lemma timestampBound_nonneg {lb : Datetime} (h : timestampBound cfg text = .ok lb) :
    0 ≤ lb.instant := by
  obtain ⟨t, -, h⟩ := bind_ok h
  obtain ⟨delta, -, h⟩ := bind_ok h
  obtain ⟨-, -, htz⟩ := Datetime.ofMicros_ok h
  simp [Datetime.instant, htz, Datetime.replaceUtc]

lemma usable_timestamp (h : cfg.mode = .mutable) (hfield : cfg.watermarkField = some field)
    (ht : cfg.initialWatermark = some text) :
    Usable cfg ↔ ∃ t, strptime text = .ok t ∧ 0 ≤ cfg.overlapSeconds ∧
      cfg.overlapSeconds * 1000000 ≤ t.wall := by
  unfold Usable
  rw [filterFor_timestamp h hfield ht]
  constructor
  · rintro ⟨filter, hf, hle, -⟩
    obtain ⟨lb, hlb, hf⟩ := bind_ok hf
    obtain rfl := Except.ok.inj hf
    obtain ⟨t, hparse, hinstant⟩ := timestampBound_ok hlb
    obtain ⟨text', t', ht', hparse', hle⟩ := hle
    obtain rfl := Option.some.inj (ht.symm.trans ht')
    obtain rfl := Except.ok.inj (hparse.symm.trans hparse')
    have := timestampBound_nonneg hlb
    exact ⟨t, hparse, by omega, by omega⟩
  · rintro ⟨t, hparse, hpos, hle⟩
    obtain ⟨lb, hlb⟩ := timestampBound_defined hparse hpos hle
    obtain ⟨t', hparse', hinstant⟩ := timestampBound_ok hlb
    obtain rfl := Except.ok.inj (hparse.symm.trans hparse')
    refine ⟨.fieldGte field lb, by rw [hlb]; rfl, ⟨text, t, ht, hparse, by omega⟩,
      fun doc hdoc => ?_⟩
    have hfrom := hdoc text ht
    rw [h] at hfrom
    obtain ⟨t', field', d, hparse', hfield', hd, htd⟩ := hfrom
    obtain rfl := Except.ok.inj (hparse.symm.trans hparse')
    obtain rfl := Option.some.inj (hfield.symm.trans hfield')
    exact Mutable.matches_of_instant (by omega) hd

/-! ### All modes -/

lemma usable_iff : Usable cfg ↔ ReachesBack cfg := by
  unfold ReachesBack
  rcases ht : cfg.initialWatermark with _ | text
  · simpa using usable_of_all (filterFor_none ht)
  simp only [Option.some.injEq, forall_eq']
  rcases hmode : cfg.mode
  · exact usable_objectId hmode ht
  · obtain ⟨field, hfield⟩ := Option.isSome_iff_exists.mp (cfg.field_of_mutable hmode)
    exact usable_timestamp hmode hfield ht
  · simpa using usable_of_all (filterFor_fullRefresh hmode none)

/-- **An accepted configuration is usable exactly when its overlaps reach back** from initial
watermarks that are of their modes. -/
theorem accepted_usable_iff {dir path : String} {file : Except LoadFailure Table}
    {agent : AgentConfig} (h : loadConfig dir path file = .ok agent) :
    (∀ c ∈ agent.collections, ValidCollection c ∧ Usable c) ↔
      ∀ c ∈ agent.collections, ReachesBack c := by
  refine ⟨fun hall c hc => usable_iff.mp (hall c hc).2, fun hall c hc => ?_⟩
  exact ⟨(loadConfig_valid h).collections c hc, usable_iff.mpr (hall c hc)⟩

/-! ### Two documents -/

/-- A document with one mutable collection, with an initial watermark and an overlap. -/
def sampleToml (initial : String) (overlap : ℤ) : Table :=
  [("agent", .table [("state_db", .str "state.db"), ("spool_dir", .str "spool")]),
    ("s3", .table [("bucket", .str "landing")]),
    ("mongo", .table [("database", .str "AlteryxService"), ("collections", .array [.table
      [("name", .str "AS_Jobs"), ("mode", .str "mutable"), ("watermark_field", .str "dtModified"),
        ("overlap_seconds", .int overlap), ("initial_watermark", .str initial)]])])]

def sampleCollection (initial : String) (overlap : ℤ) : CollectionConfig where
  name := "AS_Jobs"
  mode := .mutable
  watermarkField := some "dtModified"
  overlapSeconds := overlap
  initialWatermark := some initial
  field_of_mutable _ := rfl

def sampleAgent (initial : String) (overlap : ℤ) : AgentConfig where
  stateDb := "state.db"
  spoolDir := "spool"
  logDir := "logs"
  logLevel := "WARNING"
  mongoEnabled := true
  mongo := some { database := "AlteryxService" }
  collections := [sampleCollection initial overlap]
  s3 := { bucket := "landing" }
  logs := {}
  hostmetrics := {}

lemma loadConfig_sample (initial : String) (overlap : ℤ) :
    loadConfig "logs" "agent.toml" (.ok (sampleToml initial overlap)) =
      .ok (sampleAgent initial overlap) := rfl

theorem accepted_usable_sample :
    ValidCollection (sampleCollection "2024-01-01T00:00:00.000Z" 30) ∧
      Usable (sampleCollection "2024-01-01T00:00:00.000Z" 30) := by
  refine (accepted_usable_iff (loadConfig_sample _ _)).mpr (fun c hc => ?_) _
    (List.mem_singleton_self _)
  obtain rfl := List.mem_singleton.mp hc
  intro text ht
  obtain rfl := Option.some.inj ht
  show ∃ t, strptime "2024-01-01T00:00:00.000Z" = .ok t ∧ (0 : ℤ) ≤ 30 ∧ (30 : ℤ) * 1000000 ≤ t.wall
  have hwall : (strptime "2024-01-01T00:00:00.000Z").toOption.any
      (fun t => decide (30000000 ≤ (t.wall : ℤ))) = true := by decide +kernel
  rcases hparse : strptime "2024-01-01T00:00:00.000Z" with e | t
  · rw [hparse] at hwall
    cases hwall
  · rw [hparse] at hwall
    have hle : (30000000 : ℤ) ≤ t.wall := of_decide_eq_true hwall
    exact ⟨t, rfl, by omega, by omega⟩

/-- The overlap is negative, and the text is no timestamp: both are accepted. -/
theorem accepted_not_usable :
    (∃ agent, loadConfig "logs" "agent.toml" (.ok (sampleToml "2024-01-01T00:00:00.000Z" (-60))) =
      .ok agent ∧ ∃ c ∈ agent.collections, ¬ Usable c) ∧
    ∃ agent, loadConfig "logs" "agent.toml" (.ok (sampleToml "yesterday" 30)) = .ok agent ∧
      ∃ c ∈ agent.collections, ∃ e, filterFor c none = .error e := by
  refine ⟨⟨_, loadConfig_sample _ _, _, List.mem_singleton_self _, fun h => ?_⟩,
    _, loadConfig_sample _ _, _, List.mem_singleton_self _, _, rfl⟩
  obtain ⟨t, -, hpos, -⟩ := usable_iff.mp h _ rfl
  exact absurd hpos (by decide)

end MongoSyncAgent.FirstBounds
