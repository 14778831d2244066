import MongoSyncAgent.Bson
import MongoSyncAgent.Config
import MongoSyncAgent.State
import Mathlib.Data.List.Induction

/-!
The watermark strategies: what a run asks for, and what it remembers of the documents it got.

A strategy is the value of the strategy object: its configuration, which never changes, and the
greatest value it has observed.
-/

namespace MongoSyncAgent.Watermarks

open MongoSyncAgent.Py MongoSyncAgent.Bson MongoSyncAgent.Config MongoSyncAgent.Timestamps

inductive Strategy
  | objectId (cfg : CollectionConfig) (maxId : Option Value)
  | timestamp (cfg : CollectionConfig) (field : String) (maxVal : Option Datetime)
  | fullRefresh

/-- `make_strategy`. -/
def makeStrategy (cfg : CollectionConfig) : Strategy :=
  match h : cfg.mode with
  | .appendOnly => .objectId cfg none
  | .mutable => .timestamp cfg (cfg.watermarkField.get (cfg.field_of_mutable h)) none
  | .fullRefresh => .fullRefresh

/-! ### The lower bounds -/

/-- `lb_obj`, from the text of a bound. -/
def objectIdBound (cfg : CollectionConfig) (bound : String) : Except Exc ObjectId := do
  let prevObj ← ObjectId.ofStr bound
  let overlap ← Datetime.timedelta cfg.overlapSeconds
  let lbTs ← prevObj.generationTime.sub overlap
  ObjectId.fromDatetime lbTs

/-- `lb_dt`, from the text of a bound. -/
def timestampBound (cfg : CollectionConfig) (lbStr : String) : Except Exc Datetime := do
  let lbDt ← strptime lbStr
  let overlap ← Datetime.timedelta cfg.overlapSeconds
  lbDt.replaceUtc.sub overlap

/-- The stored watermark, or else the configured one. -/
def boundText (cfg : CollectionConfig) (previous : Option String) : Option String :=
  previous.or cfg.initialWatermark

namespace Strategy

/-- The document field whose greatest value the strategy tracks. -/
def tracks : Strategy → Option String
  | .objectId .. => some "_id"
  | .timestamp _ field _ => some field
  | .fullRefresh => none

def kind : Strategy → String
  | .objectId .. => "objectid"
  | .timestamp .. => "timestamp"
  | .fullRefresh => "full_refresh"

def buildFilter (previous : Option String) : Strategy → Except Exc Filter
  | .objectId cfg _ =>
    match boundText cfg previous with
    | none => .ok .all
    | some bound => do return .idGt (← objectIdBound cfg bound)
  | .timestamp cfg field _ =>
    match boundText cfg previous with
    | none => .ok .all
    | some lbStr => do return .fieldGte field (← timestampBound cfg lbStr)
  | .fullRefresh => .ok .all

def sortSpec : Strategy → Option (List (String × ℤ))
  | .objectId .. => some [("_id", 1)]
  | _ => none

variable (text : Value → String)

/-- `ObjectIdWatermark.observe`, on an `_id`. -/
def observeId (maxId : Option Value) (oid : Value) : Except Exc (Option Value) :=
  match maxId with
  | none => .ok (some oid)
  | some m =>
    match pyGt oid m with
    | .ok bigger => .ok (some (if bigger then oid else m))
    | .error e =>
      if e.cls = .typeError then .ok (some (if pyStr text m < pyStr text oid then oid else m))
      else .error e

/-- `TimestampWatermark.observe`, on a datetime. -/
def observeDate (maxVal : Option Datetime) (d : Datetime) : Except Exc (Option Datetime) :=
  match maxVal with
  | none => .ok (some d)
  | some m => do return some (if ← d.gt m then d else m)

def observe (doc : Doc) : Strategy → Except Exc Strategy
  | .objectId cfg maxId =>
    match get doc "_id" with
    | none | some .null => .ok (.objectId cfg maxId)
    | some oid => do return .objectId cfg (← observeId text maxId oid)
  | .timestamp cfg field maxVal =>
    match get doc field with
    | some (.date d) => do return .timestamp cfg field (← observeDate maxVal d)
    | _ => .ok (.timestamp cfg field maxVal)
  | .fullRefresh => .ok .fullRefresh

/-- The documents of a cursor, one after the other. -/
def observeAll : List Doc → Strategy → Except Exc Strategy
  | [], s => .ok s
  | doc :: docs, s => do observeAll docs (← s.observe text doc)

def newWatermark : Strategy → Except Exc (Option String)
  | .objectId _ maxId => .ok (maxId.map (pyStr text))
  | .timestamp _ _ maxVal =>
    match maxVal with
    | none => .ok none
    | some d => do return some (← formatTs d)
  | .fullRefresh => .ok none

def watermarkColumnValue (doc : Doc) : Strategy → Except Exc String
  | .objectId .. => .ok (((get doc "_id").map (pyStr text)).getD "")
  | .timestamp _ field _ =>
    match get doc field with
    | some (.date d) => formatTs d
    | _ => .ok ""
  | .fullRefresh => .ok ""

end Strategy

def kindMismatchText (stored configured : String) : String :=
  "Watermark kind mismatch for collection: stored='" ++ stored ++ "', configured='" ++
    configured ++ "'. Change the mode back or reset the watermark."

def validateWatermarkKind (stored : State.Watermark) (strategy : Strategy) : Except Exc Unit :=
  if stored.kind ≠ strategy.kind then
    raise .configError (kindMismatchText stored.kind strategy.kind)
  else .ok ()

/-! ### The bounds as numbers -/

/-- The bound of an ObjectId watermark: the overlap before its second, with a zero tail. -/
lemma objectIdBound_ok {cfg : CollectionConfig} {bound : String} {lb : ObjectId}
    (h : objectIdBound cfg bound = .ok lb) : ∃ o, ObjectId.ofStr bound = .ok o ∧
      (lb.val : ℤ) = (o.seconds - cfg.overlapSeconds) * 2 ^ 64 := by
  obtain ⟨o, ho, h⟩ := bind_ok h
  obtain ⟨delta, hdelta, h⟩ := bind_ok h
  obtain ⟨ts, hts, h⟩ := bind_ok h
  refine ⟨o, ho, ?_⟩
  rw [ObjectId.fromDatetime_ok h, (Datetime.sub_ok hts).1, Datetime.timedelta_ok hdelta,
    o.generationTime_instant]
  congr 1
  omega

/-- It is defined when the overlap does not reach behind the epoch. -/
lemma objectIdBound_defined {cfg : CollectionConfig} (hpos : 0 ≤ cfg.overlapSeconds)
    {bound : String} {o : ObjectId} (ho : ObjectId.ofStr bound = .ok o)
    (hle : cfg.overlapSeconds ≤ o.seconds) : ∃ lb, objectIdBound cfg bound = .ok lb := by
  have hsecs := o.seconds_lt
  have hdelta : Datetime.timedelta cfg.overlapSeconds = .ok (cfg.overlapSeconds * 1000000) := by
    unfold Datetime.timedelta
    rw [if_pos (by omega)]
  obtain ⟨ts, hts⟩ : ∃ ts, o.generationTime.sub (cfg.overlapSeconds * 1000000) = .ok ts := by
    have hwall : o.generationTime.wall = epoch + o.seconds * 1000000 := rfl
    unfold Datetime.sub Datetime.ofMicros
    rw [hwall, dif_pos (by unfold epoch wallLimit; omega)]
    exact ⟨_, rfl⟩
  have hinst := (Datetime.sub_ok hts).1
  rw [o.generationTime_instant] at hinst
  obtain ⟨lb, hlb⟩ : ∃ lb, ObjectId.fromDatetime ts = .ok lb := by
    unfold ObjectId.fromDatetime
    rw [dif_pos (by rw [hinst]; omega)]
    exact ⟨_, rfl⟩
  refine ⟨lb, ?_⟩
  rw [objectIdBound, ho, ok_bind, hdelta, ok_bind, hts, ok_bind, hlb]

lemma timestampBound_ok {cfg : CollectionConfig} {lbStr : String} {lb : Datetime}
    (h : timestampBound cfg lbStr = .ok lb) : ∃ t, strptime lbStr = .ok t ∧
      lb.instant = t.wall - cfg.overlapSeconds * 1000000 := by
  obtain ⟨t, ht, h⟩ := bind_ok h
  obtain ⟨delta, hdelta, h⟩ := bind_ok h
  refine ⟨t, ht, ?_⟩
  rw [(Datetime.sub_ok h).1, Datetime.replaceUtc_instant, Datetime.timedelta_ok hdelta]

lemma makeStrategy_fullRefresh {cfg : CollectionConfig} (hmode : cfg.mode = .fullRefresh) :
    makeStrategy cfg = .fullRefresh := by
  unfold makeStrategy
  split
  · rename_i h
    rw [hmode] at h
    cases h
  · rename_i h
    rw [hmode] at h
    cases h
  · rfl

/-- What a strategy tracks, by its kind. -/
lemma tracks_makeStrategy (cfg : CollectionConfig) :
    cfg.mode = .appendOnly ∧ (makeStrategy cfg).kind = "objectid" ∧
        (makeStrategy cfg).tracks = some "_id" ∨
      cfg.mode = .mutable ∧ (makeStrategy cfg).kind = "timestamp" ∧
        (makeStrategy cfg).tracks = cfg.watermarkField ∧ cfg.watermarkField.isSome ∨
      cfg.mode = .fullRefresh ∧ (makeStrategy cfg).kind = "full_refresh" ∧
        (makeStrategy cfg).tracks = none := by
  unfold makeStrategy
  split
  · rename_i h
    exact .inl ⟨h, rfl, rfl⟩
  · rename_i h
    exact .inr (.inl ⟨h, rfl, by simp [Strategy.tracks], cfg.field_of_mutable h⟩)
  · rename_i h
    exact .inr (.inr ⟨h, rfl, rfl⟩)

/-! ### What observing leaves alone -/

variable {text : Value → String}

/-- One strategy object, at two times. -/
def SameObject : Strategy → Strategy → Prop
  | .objectId cfg _, .objectId cfg' _ => cfg = cfg'
  | .timestamp cfg field _, .timestamp cfg' field' _ => cfg = cfg' ∧ field = field'
  | .fullRefresh, .fullRefresh => True
  | _, _ => False

lemma observe_same {s t : Strategy} {doc : Doc} (h : s.observe text doc = .ok t) :
    SameObject s t := by
  cases s with
  | objectId cfg maxId =>
    simp only [Strategy.observe] at h
    split at h
    · cases h; rfl
    · cases h; rfl
    · obtain ⟨m, -, hm⟩ := bind_ok h
      cases hm; rfl
  | timestamp cfg field maxVal =>
    simp only [Strategy.observe] at h
    split at h
    · obtain ⟨m, -, hm⟩ := bind_ok h
      cases hm; exact ⟨rfl, rfl⟩
    · cases h; exact ⟨rfl, rfl⟩
  | fullRefresh => cases h; trivial

lemma SameObject.trans {a b c : Strategy} (h : SameObject a b) (h' : SameObject b c) :
    SameObject a c := by
  cases a <;> cases b <;> cases c <;> simp_all [SameObject]

lemma SameObject.refl (a : Strategy) : SameObject a a := by
  cases a <;> simp [SameObject]

lemma observeAll_same {docs : List Doc} {s t : Strategy}
    (h : s.observeAll text docs = .ok t) : SameObject s t := by
  induction docs generalizing s with
  | nil => cases h; exact .refl _
  | cons doc docs ih =>
    obtain ⟨m, hm, hrest⟩ := bind_ok h
    exact (observe_same hm).trans (ih hrest)

lemma observeAll_snoc (docs : List Doc) (doc : Doc) (s : Strategy) :
    s.observeAll text (docs ++ [doc]) = s.observeAll text docs >>= fun s => s.observe text doc := by
  induction docs generalizing s with
  | nil =>
    show (s.observe text doc >>= fun s => .ok s) = s.observe text doc
    cases s.observe text doc <;> rfl
  | cons d docs ih =>
    simp only [List.cons_append, Strategy.observeAll]
    cases s.observe text d with
    | error e => rfl
    | ok s => exact ih s

/-- What holds of the strategy before any document, and after one more, holds after all. -/
@[elab_as_elim] theorem observeAll_invariant {P : List Doc → Strategy → Prop} {s : Strategy}
    (hnil : P [] s)
    (hsnoc : ∀ docs doc t t', s.observeAll text docs = .ok t → P docs t →
      t.observe text doc = .ok t' → P (docs ++ [doc]) t')
    {docs : List Doc} {t : Strategy} (h : s.observeAll text docs = .ok t) : P docs t := by
  induction docs using List.reverseRecOn generalizing t with
  | nil =>
    obtain rfl := Except.ok.inj h
    exact hnil
  | append_singleton docs doc ih =>
    rw [observeAll_snoc] at h
    obtain ⟨before, hbefore, hlast⟩ := bind_ok h
    exact hsnoc docs doc before t hbefore (ih hbefore) hlast

/-- A full refresh has no watermark, whatever it observes. -/
lemma newWatermark_fullRefresh {cfg : CollectionConfig} (hmode : cfg.mode = .fullRefresh)
    {docs : List Doc} {t : Strategy} (h : (makeStrategy cfg).observeAll text docs = .ok t) :
    t.newWatermark text = .ok none := by
  have hsame := observeAll_same h
  rw [makeStrategy_fullRefresh hmode] at hsame
  cases t with
  | fullRefresh => rfl
  | objectId => exact hsame.elim
  | timestamp => exact hsame.elim

lemma SameObject.kind {a b : Strategy} (h : SameObject a b) : a.kind = b.kind := by
  cases a <;> cases b <;> first | rfl | exact h.elim

lemma SameObject.watermarkColumnValue {a b : Strategy} (h : SameObject a b) (doc : Doc) :
    a.watermarkColumnValue text doc = b.watermarkColumnValue text doc := by
  cases a <;> cases b <;> simp_all [SameObject, Strategy.watermarkColumnValue]

end MongoSyncAgent.Watermarks
