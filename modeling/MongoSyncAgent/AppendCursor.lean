import MongoSyncAgent.ForeignIds

/-!
Append-only collections that are inserted into while the cursor is open.

The cursor goes up the `_id`s. A document that is inserted below its position is not returned;
it is found by the next run only if the cursor does not go on for longer than the overlap.
-/

namespace MongoSyncAgent.AppendCursor

open MongoSyncAgent.Py MongoSyncAgent.Bson MongoSyncAgent.Config MongoSyncAgent.State
open MongoSyncAgent.Runtime MongoSyncAgent.Sinks MongoSyncAgent.Watermarks MongoSyncAgent.Extract
open MongoSyncAgent.Systems MongoSyncAgent.CollectionRuns MongoSyncAgent.AppendOnly
open MongoSyncAgent.ForeignIds

/-! ### The scan -/

structure ScanState where
  /-- In seconds. -/
  clock : ℕ
  docs : List Doc
  returned : List Doc
  /-- What was inserted below the position of the cursor. -/
  behind : List Doc

inductive ScanEvent
  | tick (clock : ℕ)
  | insert (doc : Doc)
  | next (doc : Doc)

/-- The number that an ObjectId is. -/
def idOf (doc : Doc) : ℕ :=
  match get doc "_id" with
  | some (.oid o) => o.val
  | _ => 0

/-- The second that it carries. -/
def secondOf (doc : Doc) : ℕ := idOf doc / 2 ^ 64

/-- The `_id` is an ObjectId whose low bytes are not all zero. -/
def Proper (doc : Doc) : Prop := ∃ o, get doc "_id" = some (.oid o) ∧ o.low ≠ 0

lemma idOf_eq {doc : Doc} {o : ObjectId} (h : get doc "_id" = some (.oid o)) :
    idOf doc = o.val := by
  rw [idOf, h]

lemma secondOf_eq {doc : Doc} {o : ObjectId} (h : get doc "_id" = some (.oid o)) :
    secondOf doc = o.seconds := by
  rw [secondOf, idOf_eq h]
  rfl

namespace ScanState

/-- The document is above the last one that the cursor returned. -/
def Ahead (s : ScanState) (doc : Doc) : Prop := ∀ p ∈ s.returned.getLast?, idOf p < idOf doc

instance (s : ScanState) (doc : Doc) : Decidable (s.Ahead doc) := by
  unfold Ahead
  exact inferInstance

def insert (s : ScanState) (doc : Doc) : ScanState :=
  { s with docs := doc :: s.docs, behind := if s.Ahead doc then s.behind else doc :: s.behind }

end ScanState

variable (filter : Filter)

inductive ScanStep : ScanState → ScanEvent → ScanState → Prop
  | tick {s clock} (h : s.clock ≤ clock) : ScanStep s (.tick clock) { s with clock }
  | insert {s doc} (hid : Proper doc) (hsecond : secondOf doc = s.clock)
    (hnew : ∀ d ∈ s.docs, idOf d ≠ idOf doc) : ScanStep s (.insert doc) (s.insert doc)
  /-- The least of the documents ahead that match. -/
  | next {s doc} (hmem : doc ∈ s.docs) (hmatch : filter.matches doc) (hahead : s.Ahead doc)
    (hleast : ∀ d ∈ s.docs, filter.matches d → s.Ahead d → idOf doc ≤ idOf d) :
    ScanStep s (.next doc) { s with returned := s.returned ++ [doc] }

/-- A cursor that was just opened. -/
structure ScanInit (s : ScanState) : Prop where
  proper : ∀ d ∈ s.docs, Proper d ∧ secondOf d ≤ s.clock
  distinct : ∀ d ∈ s.docs, ∀ d' ∈ s.docs, idOf d = idOf d' → d = d'
  returned : s.returned = []
  behind : s.behind = []

def scans : System ScanState ScanEvent where
  init := ScanInit
  step := ScanStep filter

/-- The cursor has nothing more to return. -/
def Exhausted (s : ScanState) : Prop := ∀ d ∈ s.docs, filter.matches d → ¬ s.Ahead d

variable {filter}

/-! ### What the scan keeps -/

structure ScanInv (filter : Filter) (s : ScanState) : Prop where
  proper : ∀ d ∈ s.docs, Proper d ∧ secondOf d ≤ s.clock
  distinct : ∀ d ∈ s.docs, ∀ d' ∈ s.docs, idOf d = idOf d' → d = d'
  returned : ∀ d ∈ s.returned, d ∈ s.docs ∧ filter.matches d
  ascending : s.returned.Pairwise fun a b => idOf a < idOf b
  behind : ∀ d ∈ s.behind, d ∈ s.docs ∧ filter.matches d ∧ d ∉ s.returned ∧ ¬ s.Ahead d
  covered : ∀ d ∈ s.docs, filter.matches d → d ∈ s.returned ∨ d ∈ s.behind ∨ s.Ahead d

/-- What matches is all that is proper from some second on. -/
def FromSecond (filter : Filter) : Prop :=
  ∀ d d', Proper d → Proper d' → filter.matches d → secondOf d ≤ secondOf d' → filter.matches d'

/-- The last of an ascending list is its greatest. -/
lemma le_last {docs : List Doc} {d p : Doc} (h : docs.Pairwise fun a b => idOf a < idOf b)
    (hp : docs.getLast? = some p) (hd : d ∈ docs) : idOf d ≤ idOf p := by
  obtain ⟨init, rfl⟩ := List.getLast?_eq_some_iff.mp hp
  rcases List.mem_append.mp hd with hd | hd
  · exact ((List.pairwise_append.mp h).2.2 d hd p List.mem_cons_self).le
  · rw [List.mem_singleton.mp hd]

lemma ahead_next {s : ScanState} {doc d : Doc} :
    ScanState.Ahead { s with returned := s.returned ++ [doc] } d ↔ idOf doc < idOf d := by
  simp [ScanState.Ahead]

lemma scanInv_insert (hfrom : FromSecond filter) {s : ScanState} {doc : Doc}
    (h : ScanInv filter s) (hid : Proper doc) (hsecond : secondOf doc = s.clock)
    (hnew : ∀ d ∈ s.docs, idOf d ≠ idOf doc) : ScanInv filter (s.insert doc) := by
  have hfresh : doc ∉ s.docs := fun hmem => hnew doc hmem rfl
  refine ⟨?_, ?_, fun d hd => ?_, h.ascending, fun d hd => ?_, ?_⟩
  · rintro d hd
    rcases List.mem_cons.mp hd with rfl | hd
    · exact ⟨hid, hsecond.le⟩
    · exact h.proper d hd
  · rintro d hd d' hd' heq
    rcases List.mem_cons.mp hd with h₁ | h₁ <;> rcases List.mem_cons.mp hd' with h₂ | h₂
    · rw [h₁, h₂]
    · exact absurd (heq.symm.trans (congrArg idOf h₁)) (hnew d' h₂)
    · exact absurd (heq.trans (congrArg idOf h₂)) (hnew d h₁)
    · exact h.distinct d h₁ d' h₂ heq
  · exact ⟨List.mem_cons_of_mem _ (h.returned d hd).1, (h.returned d hd).2⟩
  · have hold : d ∈ s.behind → d ∈ (s.insert doc).docs ∧ filter.matches d ∧ d ∉ s.returned ∧
        ¬ s.Ahead d := fun hd => by
      obtain ⟨hmem, hrest⟩ := h.behind d hd
      exact ⟨List.mem_cons_of_mem _ hmem, hrest⟩
    by_cases ha : s.Ahead doc
    · rw [ScanState.insert, if_pos ha] at hd
      exact hold hd
    · rw [ScanState.insert, if_neg ha] at hd
      rcases List.mem_cons.mp hd with rfl | hd
      · -- the clock has reached the second of the last returned document
        obtain ⟨p, hp, hle⟩ : ∃ p ∈ s.returned.getLast?, ¬ idOf p < idOf d := by
          simpa [ScanState.Ahead] using ha
        obtain ⟨hpd, hpm⟩ := h.returned p (List.mem_of_getLast? hp)
        obtain ⟨hpp, hps⟩ := h.proper p hpd
        refine ⟨List.mem_cons_self, hfrom p d hpp hid hpm (hps.trans hsecond.ge), ?_, ha⟩
        exact fun hr => hfresh (h.returned d hr).1
      · exact hold hd
  · intro d hd hm
    by_cases ha : s.Ahead doc
    · rw [ScanState.insert, if_pos ha]
      rcases List.mem_cons.mp hd with rfl | hd
      · exact .inr (.inr ha)
      · exact h.covered d hd hm
    · rw [ScanState.insert, if_neg ha]
      rcases List.mem_cons.mp hd with rfl | hd
      · exact .inr (.inl List.mem_cons_self)
      · rcases h.covered d hd hm with hr | hb | ha
        · exact .inl hr
        · exact .inr (.inl (List.mem_cons_of_mem _ hb))
        · exact .inr (.inr ha)

lemma scanInv_next {s : ScanState} {doc : Doc} (h : ScanInv filter s) (hmem : doc ∈ s.docs)
    (hmatch : filter.matches doc) (hahead : s.Ahead doc)
    (hleast : ∀ d ∈ s.docs, filter.matches d → s.Ahead d → idOf doc ≤ idOf d) :
    ScanInv filter { s with returned := s.returned ++ [doc] } := by
  -- the position moves up to the document
  have hup : ∀ d ∈ s.returned, idOf d < idOf doc := by
    intro d hd
    rcases hlast : s.returned.getLast? with _ | p
    · rw [List.getLast?_eq_none_iff.mp hlast] at hd
      cases hd
    · exact (le_last h.ascending hlast hd).trans_lt (hahead p hlast)
  refine ⟨h.proper, h.distinct, fun d hd => ?_, ?_, fun d hd => ?_, fun d hd hm => ?_⟩
  · rcases List.mem_append.mp hd with hd | hd
    · exact h.returned d hd
    · obtain rfl := List.mem_singleton.mp hd
      exact ⟨hmem, hmatch⟩
  · rw [List.pairwise_append]
    refine ⟨h.ascending, List.pairwise_singleton _ _, fun a ha b hb => ?_⟩
    rw [List.mem_singleton.mp hb]
    exact hup a ha
  · obtain ⟨hd', hm, hr, hna⟩ := h.behind d hd
    refine ⟨hd', hm, ?_, ?_⟩
    · intro hmem
      rcases List.mem_append.mp hmem with hmem | hmem
      · exact hr hmem
      · rw [List.mem_singleton.mp hmem] at hna
        exact hna hahead
    · rw [ahead_next]
      intro hlt
      refine hna fun p hp => (hahead p hp).trans hlt
  · rcases h.covered d hd hm with hr | hb | ha
    · exact .inl (List.mem_append_left _ hr)
    · exact .inr (.inl hb)
    · rcases Nat.eq_or_lt_of_le (hleast d hd hm ha) with heq | hlt
      · rw [← h.distinct doc hmem d hd heq]
        exact .inl (List.mem_append_right _ List.mem_cons_self)
      · exact .inr (.inr (ahead_next.mpr hlt))

theorem scanInv (hfrom : FromSecond filter) {s : ScanState} (h : (scans filter).Reachable s) :
    ScanInv filter s := by
  refine h.invariant (fun s hs => ?_) fun s e s' _ hinv hstep => ?_
  · refine ⟨hs.proper, hs.distinct, ?_, ?_, ?_, fun d _ _ => .inr (.inr fun p hp => ?_)⟩
    · simp [hs.returned]
    · simp [hs.returned]
    · simp [hs.behind]
    · simp [hs.returned] at hp
  · cases hstep with
    | tick hle =>
      exact { hinv with
        proper := fun d hd => ⟨(hinv.proper d hd).1, (hinv.proper d hd).2.trans hle⟩ }
    | insert hid hsecond hnew => exact scanInv_insert hfrom hinv hid hsecond hnew
    | next hmem hmatch hahead hleast => exact scanInv_next hinv hmem hmatch hahead hleast

/-! ### The run that reads the cursor -/

variable {lib : Libs} {cfg : CollectionConfig} {u : S3Uploader} {dbName : String}

lemma filterFor_fromSecond (hmode : cfg.mode = .appendOnly) {stored : Option State.Watermark}
    (hf : filterFor cfg stored = .ok filter) : FromSecond filter := by
  unfold filterFor at hf
  rw [makeStrategy_appendOnly hmode] at hf
  simp only [Strategy.buildFilter] at hf
  split at hf
  · obtain rfl := Except.ok.inj hf
    exact fun _ _ _ _ _ _ => rfl
  · obtain ⟨lb, hlb, hf⟩ := bind_ok hf
    obtain rfl := Except.ok.inj hf
    obtain ⟨o', -, hval⟩ := objectIdBound_ok hlb
    rintro d d' ⟨o, ho, hlow⟩ ⟨p, hp, hplow⟩ hm hle
    have hlt : lb.val < o.val := by simpa [Filter.matches, lookup_id, ho] using hm
    refine matches_of_seconds hval hplow ?_ hp
    rw [secondOf_eq ho, secondOf_eq hp] at hle
    have := o.val_eq
    have := o.low_lt
    omega

/-- Of ascending ObjectIds the last is the foremost. -/
lemma last_of_foremost {docs : List Doc} (hproper : ∀ d ∈ docs, Proper d)
    (hasc : docs.Pairwise fun a b => idOf a < idOf b) {v : Value} {text : Value → String}
    (hv : Foremost text (idsOf docs) v) :
    ∃ last o, docs.getLast? = some last ∧ get last "_id" = some (.oid o) ∧ v = .oid o := by
  obtain ⟨d, hd, hdv⟩ := List.mem_filterMap.mp hv.1.1
  obtain ⟨p, hp, -⟩ := hproper d hd
  obtain rfl := Option.some.inj (hp.symm.trans hdv)
  obtain ⟨last, hlast⟩ := Option.isSome_iff_exists.mp
    (List.getLast?_isSome.mpr (List.ne_nil_of_mem hd))
  have hmem := List.mem_of_getLast? hlast
  obtain ⟨o, ho, -⟩ := hproper last hmem
  have hle := le_last hasc hlast hd
  rw [idOf_eq hp, idOf_eq ho] at hle
  have hcontends : Contender (idsOf docs) (.oid o) :=
    ⟨List.mem_filterMap.mpr ⟨last, hmem, ho⟩, fun n hn => by cases hn⟩
  have hge := hv.2 _ hcontends
  simp only [pyStr, ObjectId.str_lt_iff] at hge
  have hpo : p = o := ObjectId.ext (Nat.le_antisymm hle (Nat.not_lt.mp hge))
  exact ⟨last, o, hlast, ho, by rw [hpo]⟩

/-- What a run over a scan leaves stored: the `_id` of the last document. -/
lemma scan_stored (hmode : cfg.mode = .appendOnly) {m : MongoState} {env : Env}
    {ctx : RunContext} {docs : List Doc} (hproper : ∀ d ∈ docs, Proper d)
    (hasc : docs.Pairwise fun a b => idOf a < idOf b) (hread : m.asked cfg dbName env = docs)
    (hend : EndedWell ctx (extraction lib cfg u dbName env ctx m.store).1) :
    docs = [] ∨ ∃ last o wm, docs.getLast? = some last ∧ get last "_id" = some (.oid o) ∧
      (m.run lib cfg u dbName env ctx).stored cfg dbName = some wm ∧ wm.value = o.str := by
  have hplain : ∀ d ∈ docs, ∃ v, get d "_id" = some v ∧ Plain v := fun d hd => by
    obtain ⟨o, ho, -⟩ := hproper d hd
    exact ⟨.oid o, ho, trivial⟩
  have hsorted : Ascending (idsOf docs) := by
    refine List.pairwise_filterMap.mpr (hasc.imp_of_mem fun {a b} ha hb hlt v hv w hw => ?_)
    obtain ⟨o, ho, -⟩ := hproper a ha
    obtain ⟨p, hp, -⟩ := hproper b hb
    obtain rfl := Option.some.inj (ho.symm.trans hv)
    obtain rfl := Option.some.inj (hp.symm.trans hw)
    rw [idOf_eq ho, idOf_eq hp] at hlt
    simp [bsonLe, kindRank, hlt.le]
  obtain ⟨maxId, hobs, hmax⟩ := observeAll_foremost cfg lib.text hplain hsorted
  have hsame : ∀ {strategy}, (makeStrategy cfg).observeAll lib.text docs = .ok strategy →
      strategy = .objectId cfg maxId := fun h => by
    rw [makeStrategy_appendOnly hmode, hobs] at h
    exact (Except.ok.inj h).symm
  have hran := run_cases lib cfg u dbName m env ctx
  generalize m.run lib cfg u dbName env ctx = m' at hran ⊢
  cases hran with
  | nothing h => exact absurd hend h
  | empty hf h => exact .inl (by rw [← hread, asked_eq hf, h])
  | uploaded hf hrows hobs' h =>
    rw [← asked_eq hf, hread] at hobs'
    obtain rfl := hsame hobs'
    left
    rcases hmax with ⟨-, hnil⟩ | ⟨v, rfl, -⟩
    · by_contra hne
      obtain ⟨d, hd⟩ := List.exists_mem_of_ne_nil _ hne
      obtain ⟨v, hv, -⟩ := hplain d hd
      have hmem : v ∈ idsOf docs := List.mem_filterMap.mpr ⟨d, hd, hv⟩
      rw [hnil] at hmem
      cases hmem
    · cases h hend
  | @committed _ _ _ value hf hrows hobs' hwm =>
    rw [← asked_eq hf, hread] at hobs'
    obtain rfl := hsame hobs'
    right
    rcases hmax with ⟨rfl, -⟩ | ⟨v, rfl, hv⟩
    · cases hwm
    · obtain ⟨last, o, hlast, ho, rfl⟩ := last_of_foremost hproper hasc hv
      refine ⟨last, o, _, hlast, ho, if_pos rfl, ?_⟩
      exact (Option.some.inj (Except.ok.inj hwm)).symm

/-! ### The next run -/

/-- Every document that the run asked for and that was inserted before the cursor was exhausted
is in its upload, or is found by the filter of the next run. -/
def Kept (filter : Filter) (cfg : CollectionConfig) (stored : Option State.Watermark)
    (s : ScanState) : Prop :=
  ∀ d ∈ s.docs, filter.matches d → d ∈ s.returned ∨
    ∃ next, filterFor cfg stored = .ok next ∧ next.matches d

/-- What was inserted behind the cursor is at most the overlap older than what it returned last,
and the overlap does not reach behind the epoch. -/
def InTime (cfg : CollectionConfig) (s : ScanState) : Prop :=
  ∀ d ∈ s.behind, ∀ last ∈ s.returned.getLast?, cfg.overlapSeconds ≤ secondOf last ∧
    (secondOf last : ℤ) ≤ secondOf d + cfg.overlapSeconds

/-- What the filter of a stored ObjectId finds. -/
lemma next_matches (hmode : cfg.mode = .appendOnly) (hpos : 0 ≤ cfg.overlapSeconds)
    {wm : State.Watermark} {o : ObjectId} (hwm : wm.value = o.str) {d : Doc} (hd : Proper d) :
    (∃ next, filterFor cfg (some wm) = .ok next ∧ next.matches d) ↔
      cfg.overlapSeconds ≤ o.seconds ∧ (o.seconds : ℤ) ≤ secondOf d + cfg.overlapSeconds := by
  obtain ⟨p, hp, hlow⟩ := hd
  rw [filterFor_stored hmode, hwm, secondOf_eq hp]
  constructor
  · rintro ⟨next, hf, hm⟩
    obtain ⟨lb, hlb, hf⟩ := bind_ok hf
    obtain rfl := Except.ok.inj hf
    obtain ⟨o', ho', hval⟩ := objectIdBound_ok hlb
    rw [ObjectId.ofStr_str] at ho'
    obtain rfl := Except.ok.inj ho'
    have hlt : lb.val < p.val := by simpa [Filter.matches, lookup_id, hp] using hm
    have := p.val_eq
    have := p.low_lt
    omega
  · rintro ⟨hle, hsecs⟩
    obtain ⟨lb, hlb⟩ := objectIdBound_defined hpos (ObjectId.ofStr_str o) hle
    obtain ⟨o', ho', hval⟩ := objectIdBound_ok hlb
    rw [ObjectId.ofStr_str] at ho'
    obtain rfl := Except.ok.inj ho'
    exact ⟨.idGt lb, by rw [hlb]; rfl, matches_of_seconds hval hlow (by omega) hp⟩

/-- **When the overlap covers the inserts of an open cursor.** For every interleaving of inserts
and reads, the run uploads what the cursor returned, and everything else is kept for the next run
if and only if what was inserted behind the cursor is in time. -/
theorem overlap_covers_scan (hmode : cfg.mode = .appendOnly) (hpos : 0 ≤ cfg.overlapSeconds)
    {m : MongoState} {env : Env} {ctx : RunContext} {s : ScanState}
    (hf : filterFor cfg (m.stored cfg dbName) = .ok filter) (hs : (scans filter).Reachable s)
    (hexhausted : Exhausted filter s) (hread : env.find filter (some [("_id", 1)]) = s.returned)
    (hend : EndedWell ctx (extraction lib cfg u dbName env ctx m.store).1) :
    (∀ d ∈ s.returned, Uploaded lib (m.run lib cfg u dbName env ctx) d) ∧
      (Kept filter cfg ((m.run lib cfg u dbName env ctx).stored cfg dbName) s ↔
        InTime cfg s) := by
  have hinv := scanInv (filterFor_fromSecond hmode hf) hs
  have hsort : env.find filter (makeStrategy cfg).sortSpec = s.returned := by
    rw [makeStrategy_appendOnly hmode]
    exact hread
  have hasked : m.asked cfg dbName env = s.returned := (asked_eq hf).trans hsort
  have hproper : ∀ d ∈ s.returned, Proper d := fun d hd =>
    (hinv.proper d (hinv.returned d hd).1).1
  refine ⟨fun d hd => ?_, ?_⟩
  · rcases run_uploaded lib cfg u dbName m env ctx with ⟨-, hnot⟩ | ⟨filter', hf', hup⟩
    · exact absurd hend hnot
    · obtain rfl := Except.ok.inj (hf.symm.trans hf')
      exact hup d (hsort ▸ hd)
  have hrest : ∀ d ∈ s.docs, filter.matches d → d ∈ s.returned ∨ d ∈ s.behind := by
    intro d hd hm
    rcases hinv.covered d hd hm with hr | hb | ha
    · exact .inl hr
    · exact .inr hb
    · exact absurd ha (hexhausted d hd hm)
  rcases scan_stored hmode hproper hinv.ascending hasked hend with
    hnil | ⟨last, o, wm, hlast, ho, hstored, hwm⟩
  · -- the cursor has not moved, so nothing is behind it
    have hbehind : ∀ d, d ∉ s.behind := fun d hd => by
      refine (hinv.behind d hd).2.2.2 fun p hp => ?_
      rw [hnil] at hp
      cases hp
    exact ⟨fun _ d hd => absurd hd (hbehind d), fun _ d hd hm => .inl
      ((hrest d hd hm).resolve_right (hbehind d))⟩
  · rw [hstored]
    constructor
    · intro hkept d hd last' hlast'
      obtain rfl := Option.some.inj (hlast.symm.trans hlast')
      obtain ⟨hmem, hm, hnr, -⟩ := hinv.behind d hd
      have hnext := (hkept d hmem hm).resolve_left hnr
      rw [secondOf_eq ho]
      exact (next_matches hmode hpos hwm (hinv.proper d hmem).1).mp hnext
    · intro hin d hd hm
      rcases hrest d hd hm with hr | hb
      · exact .inl hr
      · have hsecs := hin d hb last hlast
        rw [secondOf_eq ho] at hsecs
        exact .inr ((next_matches hmode hpos hwm (hinv.proper d hd).1).mpr hsecs)

/-! ### A document behind a cursor that goes on for longer than the overlap -/

/-- A document with the ObjectId of this second and these low bytes. -/
def sampleInsert (second : Fin (2 ^ 32)) (low : Fin (2 ^ 64)) : Doc :=
  [("_id", .oid ⟨second * 2 ^ 64 + low, by omega⟩)]

lemma sampleInsert_proper {second : Fin (2 ^ 32)} {low : Fin (2 ^ 64)} (h : low.val ≠ 0) :
    Proper (sampleInsert second low) := by
  refine ⟨_, rfl, ?_⟩
  show (second.val * 2 ^ 64 + low.val) % 2 ^ 64 ≠ 0
  omega

/-- A document was returned, and another one then inserted below it in the same second. -/
def samplePassed : ScanState where
  clock := 100
  docs := [sampleInsert 100 5, sampleInsert 100 10]
  returned := [sampleInsert 100 10]
  behind := [sampleInsert 100 5]

/-- The cursor has followed the collection for 31 seconds. -/
def sampleFollowed : ScanState where
  clock := 131
  docs := [sampleInsert 131 1, sampleInsert 100 5, sampleInsert 100 10]
  returned := [sampleInsert 100 10, sampleInsert 131 1]
  behind := [sampleInsert 100 5]

lemma samplePassed_reachable : (scans .all).Reachable samplePassed := by
  have hinit : (scans .all).Reachable ⟨100, [sampleInsert 100 10], [], []⟩ := by
    refine .init ⟨fun d hd => ?_, fun d hd d' hd' _ => ?_, rfl, rfl⟩
    · rw [List.mem_singleton.mp hd]
      exact ⟨sampleInsert_proper (by decide), by decide +kernel⟩
    · rw [List.mem_singleton.mp hd, List.mem_singleton.mp hd']
  have hnext : (scans .all).Reachable ⟨100, [sampleInsert 100 10], [sampleInsert 100 10], []⟩ := by
    refine .step hinit (.next List.mem_cons_self rfl (fun p hp => by cases hp) fun d hd _ _ => ?_)
    rw [List.mem_singleton.mp hd]
  refine .step hnext (e := .insert (sampleInsert 100 5)) ?_
  refine .insert (sampleInsert_proper (by decide)) (by decide +kernel) fun d hd => ?_
  rw [List.mem_singleton.mp hd]
  decide +kernel

lemma sampleFollowed_reachable : (scans .all).Reachable sampleFollowed := by
  have htick : (scans .all).Reachable { samplePassed with clock := 131 } := by
    refine .step samplePassed_reachable (e := .tick 131) ?_
    exact .tick (by decide)
  have hinsert : (scans .all).Reachable
      { sampleFollowed with returned := [sampleInsert 100 10] } := by
    refine .step htick (e := .insert (sampleInsert 131 1)) ?_
    refine .insert (sampleInsert_proper (by decide)) (by decide +kernel) fun d hd => ?_
    have hnew : ∀ d ∈ samplePassed.docs, idOf d ≠ idOf (sampleInsert 131 1) := by
      decide +kernel
    exact hnew d hd
  refine .step hinsert (e := .next (sampleInsert 131 1)) ?_
  refine .next List.mem_cons_self rfl (by decide +kernel) fun d hd _ ha => ?_
  have hleast : ∀ d ∈ sampleFollowed.docs, samplePassed.Ahead d →
      idOf (sampleInsert 131 1) ≤ idOf d := by
    decide +kernel
  exact hleast d hd ha

/-- A run that reads what a scan returned. -/
def scanEnv (s : ScanState) : Env :=
  { calmReads [] sampleNow with find := fun _ _ => s.returned }

/-- What such a run leaves stored. -/
def scanStored (s : ScanState) : Option State.Watermark :=
  ((MongoState.start []).run plainLibs sampleCollection sampleUploader "db" (scanEnv s)
    sampleCtx).stored sampleCollection "db"

theorem overlap_covers_scan_sample : Kept .all sampleCollection (scanStored samplePassed)
    samplePassed ↔ InTime sampleCollection samplePassed := by
  have hend : EndedWell sampleCtx (extraction plainLibs sampleCollection sampleUploader "db"
      (scanEnv samplePassed) sampleCtx StateStore.empty).1 :=
    ⟨rfl, _, rfl, .inl rfl⟩
  have hexhausted : ∀ d ∈ samplePassed.docs, ¬ samplePassed.Ahead d := by
    decide +kernel
  exact (overlap_covers_scan (m := .start []) rfl (by decide) rfl samplePassed_reachable
    (fun d hd _ => hexhausted d hd) rfl hend).2

/-- The cursor is exhausted and the run ends well, and the document behind it is lost. -/
theorem passed_document_lost : (scans .all).Reachable sampleFollowed ∧
    Exhausted .all sampleFollowed ∧
    EndedWell sampleCtx (extraction plainLibs sampleCollection sampleUploader "db"
      (scanEnv sampleFollowed) sampleCtx StateStore.empty).1 ∧
    ¬ Kept .all sampleCollection (scanStored sampleFollowed) sampleFollowed := by
  have hend : EndedWell sampleCtx (extraction plainLibs sampleCollection sampleUploader "db"
      (scanEnv sampleFollowed) sampleCtx StateStore.empty).1 :=
    ⟨rfl, _, rfl, .inl rfl⟩
  refine ⟨sampleFollowed_reachable, ?_, hend, fun hkept => ?_⟩
  · have hexhausted : ∀ d ∈ sampleFollowed.docs, ¬ sampleFollowed.Ahead d := by
      decide +kernel
    exact fun d hd _ => hexhausted d hd
  · have hinv := scanInv (fun _ _ _ _ _ _ => rfl) sampleFollowed_reachable
    have hproper : ∀ d ∈ sampleFollowed.returned, Proper d := fun d hd =>
      (hinv.proper d (hinv.returned d hd).1).1
    rcases scan_stored (m := .start []) rfl hproper hinv.ascending rfl hend with
      hnil | ⟨last, o, wm, hlast, ho, hstored, hwm⟩
    · cases hnil
    obtain rfl := Option.some.inj hlast
    have hmem : sampleInsert 100 5 ∈ sampleFollowed.docs :=
      List.mem_cons_of_mem _ List.mem_cons_self
    rcases hkept _ hmem rfl with hr | hnext
    · have hid : idOf (sampleInsert 100 5) ∈ sampleFollowed.returned.map idOf :=
        List.mem_map_of_mem hr
      revert hid
      decide +kernel
    · rw [scanStored, hstored, next_matches rfl (by decide) hwm (sampleInsert_proper (by decide)),
        ← secondOf_eq ho] at hnext
      revert hnext
      decide +kernel

end MongoSyncAgent.AppendCursor
