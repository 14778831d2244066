import MongoSyncAgent.Mutable

/-!
Mutable collections that are written to while the cursor is open.

The cursor takes the documents in no order and each as it stands at that moment. A document that
is updated after the cursor has passed it is found by the next run only if it was not updated
longer than the overlap before the latest document that the cursor returned.
-/

namespace MongoSyncAgent.MutableCursor

open MongoSyncAgent.Py MongoSyncAgent.Bson MongoSyncAgent.Config MongoSyncAgent.State
open MongoSyncAgent.Runtime MongoSyncAgent.Sinks MongoSyncAgent.Watermarks MongoSyncAgent.Timestamps
open MongoSyncAgent.Extract MongoSyncAgent.Systems MongoSyncAgent.CollectionRuns
open MongoSyncAgent.Mutable

/-! ### The scan -/

structure ScanState where
  /-- In microseconds of UTC. -/
  clock : ℤ
  docs : List Doc
  /-- The places that the cursor has passed. -/
  visited : List ℕ
  returned : List Doc
  /-- The places that were written to after the cursor had passed them. -/
  late : List ℕ

inductive ScanEvent
  | tick (clock : ℤ)
  | update (i : ℕ) (new : Doc)
  | visit (i : ℕ)

variable (field : String) (filter : Filter) (sent : List Doc)

namespace ScanState

def update (s : ScanState) (i : ℕ) (new : Doc) : ScanState :=
  { s with docs := s.docs.set i new, late := if i ∈ s.visited then i :: s.late else s.late }

def visit (s : ScanState) (i : ℕ) (doc : Doc) : ScanState :=
  { s with
    visited := i :: s.visited
    returned := if filter.matches doc then s.returned ++ [doc] else s.returned }

/-- The cursor has passed every document. -/
def Exhausted (s : ScanState) : Prop := ∀ i < s.docs.length, i ∈ s.visited

end ScanState

inductive ScanStep : ScanState → ScanEvent → ScanState → Prop
  | tick {s clock} (h : s.clock ≤ clock) : ScanStep s (.tick clock) { s with clock }
  | update {s i new d} (hdate : lookup field new = some (.date d)) (hnow : d.instant = s.clock) :
    ScanStep s (.update i new) (s.update i new)
  | visit {s i doc} (hdoc : s.docs[i]? = some doc) (honce : i ∉ s.visited) :
    ScanStep s (.visit i) (s.visit filter i doc)

/-- The filter lets through what is dated at this time or later. -/
def FromClock (clock : ℤ) : Prop :=
  ∀ doc d, lookup field doc = some (.date d) → clock ≤ d.instant → filter.matches doc

/-- A cursor that was just opened. What it will not return was sent by an earlier run. -/
structure ScanInit (s : ScanState) : Prop where
  fromClock : FromClock field filter s.clock
  covered : ∀ doc ∈ s.docs, doc ∈ sent ∨ filter.matches doc
  visited : s.visited = []
  returned : s.returned = []
  late : s.late = []

def scans : System ScanState ScanEvent where
  init := ScanInit field filter sent
  step := ScanStep field filter

/-! ### What the scan keeps -/

structure ScanInv (s : ScanState) : Prop where
  fromClock : FromClock field filter s.clock
  covered : ∀ i doc, s.docs[i]? = some doc →
    doc ∈ sent ++ s.returned ∨ filter.matches doc ∧ (i ∉ s.visited ∨ i ∈ s.late)
  dated : ∀ i ∈ s.late, ∀ doc, s.docs[i]? = some doc → ∃ d, lookup field doc = some (.date d)

variable {field filter sent}

lemma scanInv_update {s : ScanState} {i : ℕ} {new : Doc} {d : Datetime}
    (h : ScanInv field filter sent s) (hdate : lookup field new = some (.date d))
    (hnow : d.instant = s.clock) : ScanInv field filter sent (s.update i new) := by
  have hplace : ∀ {j doc}, (s.update i new).docs[j]? = some doc →
      j = i ∧ doc = new ∨ j ≠ i ∧ s.docs[j]? = some doc := by
    intro j doc hj
    simp only [ScanState.update, List.getElem?_set] at hj
    split_ifs at hj with heq hlt
    · exact .inl ⟨heq.symm, (Option.some.inj hj).symm⟩
    · exact .inr ⟨Ne.symm heq, hj⟩
  have hlate : ∀ {j}, j ∈ (s.update i new).late → j = i ∨ j ∈ s.late := by
    intro j hj
    simp only [ScanState.update] at hj
    split_ifs at hj with hpassed
    · exact List.mem_cons.mp hj
    · exact .inr hj
  have hkept : ∀ {j}, j ∈ s.late → j ∈ (s.update i new).late := by
    intro j hj
    simp only [ScanState.update]
    split_ifs
    · exact List.mem_cons_of_mem _ hj
    · exact hj
  refine ⟨h.fromClock, fun j doc hj => ?_, fun j hj doc hdoc => ?_⟩
  · rcases hplace hj with ⟨rfl, rfl⟩ | ⟨-, hj⟩
    · refine .inr ⟨h.fromClock doc d hdate hnow.ge, ?_⟩
      by_cases hpassed : j ∈ s.visited
      · exact .inr (by simp [ScanState.update, hpassed])
      · exact .inl hpassed
    · rcases h.covered j doc hj with hs | ⟨hm, hv⟩
      · exact .inl hs
      · exact .inr ⟨hm, hv.imp_right hkept⟩
  · rcases hplace hdoc with ⟨rfl, rfl⟩ | ⟨hne, hdoc⟩
    · exact ⟨d, hdate⟩
    · exact h.dated j ((hlate hj).resolve_left hne) doc hdoc

lemma scanInv_visit {s : ScanState} {i : ℕ} {doc : Doc} (h : ScanInv field filter sent s)
    (hdoc : s.docs[i]? = some doc) : ScanInv field filter sent (s.visit filter i doc) := by
  have hreturned : ∀ {d}, d ∈ sent ++ s.returned →
      d ∈ sent ++ (s.visit filter i doc).returned := by
    intro d hd
    simp only [ScanState.visit]
    split_ifs
    · rw [← List.append_assoc]
      exact List.mem_append_left _ hd
    · exact hd
  refine ⟨h.fromClock, fun j d hj => ?_, h.dated⟩
  rcases h.covered j d hj with hs | ⟨hm, hv⟩
  · exact .inl (hreturned hs)
  by_cases heq : j = i
  · -- the cursor takes the document as it is now
    subst heq
    obtain rfl := Option.some.inj (hdoc.symm.trans hj)
    refine .inl (List.mem_append_right _ ?_)
    simp [ScanState.visit, hm]
  · refine .inr ⟨hm, hv.imp_left fun hnot hmem => ?_⟩
    exact hnot ((List.mem_cons.mp hmem).resolve_left heq)

theorem scanInv {s : ScanState} (h : (scans field filter sent).Reachable s) :
    ScanInv field filter sent s := by
  refine h.invariant (fun s hs => ?_) fun s e s' _ hinv hstep => ?_
  · refine ⟨hs.fromClock, fun i doc hdoc => ?_, ?_⟩
    · rcases hs.covered doc (List.mem_of_getElem? hdoc) with hsent | hm
      · exact .inl (List.mem_append_left _ hsent)
      · exact .inr ⟨hm, .inl (by simp [hs.visited])⟩
    · simp [hs.late]
  · cases hstep with
    | tick hle =>
      exact { hinv with
        fromClock := fun doc d hdate hd => hinv.fromClock doc d hdate (hle.trans hd) }
    | update hdate hnow => exact scanInv_update hinv hdate hnow
    | visit hdoc => exact scanInv_visit hinv hdoc

/-! ### The latest document -/

variable {lib : Libs} {cfg : CollectionConfig} {u : S3Uploader} {dbName : String}
  {text : Value → String}

/-- One of the documents carries this time, and none of them a later one. -/
def Latest (field : String) (docs : List Doc) (d : Datetime) : Prop :=
  (∃ doc ∈ docs, get doc field = some (.date d)) ∧
    ∀ doc ∈ docs, ∀ e, get doc field = some (.date e) → e.instant ≤ d.instant

lemma observeDate_latest {docs : List Doc} {doc : Doc} {maxVal maxVal' : Option Datetime}
    {e : Datetime} (hdate : get doc field = some (.date e))
    (hmax : maxVal = none ∧ (∀ doc ∈ docs, ∀ d, get doc field ≠ some (.date d)) ∨
      ∃ d, maxVal = some d ∧ Latest field docs d)
    (h : Strategy.observeDate maxVal e = .ok maxVal') :
    ∃ d, maxVal' = some d ∧ Latest field (docs ++ [doc]) d := by
  have hself : ∀ d, get doc field = some (.date d) → d = e := fun d hd =>
    Value.date.inj (Option.some.inj (hd.symm.trans hdate))
  rcases hmax with ⟨rfl, hnone⟩ | ⟨d, rfl, hlatest⟩
  · obtain rfl := Except.ok.inj h
    refine ⟨e, rfl, ⟨doc, by simp, hdate⟩, fun doc' hdoc' d hd => ?_⟩
    rcases List.mem_append.mp hdoc' with hdoc' | hdoc'
    · exact absurd hd (hnone doc' hdoc' d)
    · rw [List.mem_singleton.mp hdoc'] at hd
      rw [hself d hd]
  · obtain ⟨bigger, hgt, h⟩ := bind_ok h
    obtain rfl := Except.ok.inj h
    have hbigger : bigger = decide (d.instant < e.instant) := by
      unfold Datetime.gt at hgt
      split_ifs at hgt
      · exact (Except.ok.inj hgt).symm
      · cases hgt
    obtain ⟨⟨top, htop, hd⟩, hle⟩ := hlatest
    by_cases hlt : d.instant < e.instant
    · refine ⟨e, by simp [hbigger, hlt], ⟨doc, by simp, hdate⟩, fun doc' hdoc' d' hd' => ?_⟩
      rcases List.mem_append.mp hdoc' with hdoc' | hdoc'
      · exact (hle doc' hdoc' d' hd').trans hlt.le
      · rw [List.mem_singleton.mp hdoc'] at hd'
        rw [hself d' hd']
    · refine ⟨d, by simp [hbigger, hlt], ⟨top, List.mem_append_left _ htop, hd⟩,
        fun doc' hdoc' d' hd' => ?_⟩
      rcases List.mem_append.mp hdoc' with hdoc' | hdoc'
      · exact hle doc' hdoc' d' hd'
      · rw [List.mem_singleton.mp hdoc'] at hd'
        rw [hself d' hd']
        omega

/-- **All observations**: the watermark is the latest time. -/
theorem observeAll_latest {docs : List Doc} {strategy : Strategy}
    (h : Strategy.observeAll text docs (.timestamp cfg field none) = .ok strategy) :
    ∃ maxVal, strategy = .timestamp cfg field maxVal ∧
      (maxVal = none ∧ (∀ doc ∈ docs, ∀ d, get doc field ≠ some (.date d)) ∨
        ∃ d, maxVal = some d ∧ Latest field docs d) := by
  refine observeAll_invariant ?_ ?_ h
  · exact ⟨none, rfl, .inl ⟨rfl, by simp⟩⟩
  clear h strategy docs
  rintro docs doc before strategy - ⟨maxVal, rfl, hmax⟩ h
  by_cases hdated : ∃ e, get doc field = some (.date e)
  · obtain ⟨e, hdate⟩ := hdated
    simp only [Strategy.observe, hdate] at h
    obtain ⟨maxVal', hobs, h⟩ := bind_ok h
    obtain rfl := Except.ok.inj h
    exact ⟨maxVal', rfl, .inr (observeDate_latest hdate hmax hobs)⟩
  · have hskip : ∀ d, get doc field ≠ some (.date d) := fun d hd => hdated ⟨d, hd⟩
    have hold : ∀ doc' ∈ docs ++ [doc], ∀ d, get doc' field = some (.date d) →
        doc' ∈ docs := by
      intro doc' hdoc' d hd
      rcases List.mem_append.mp hdoc' with hdoc' | hdoc'
      · exact hdoc'
      · rw [List.mem_singleton.mp hdoc'] at hd
        exact absurd hd (hskip d)
    simp only [Strategy.observe] at h
    refine ⟨maxVal, (Except.ok.inj h).symm, ?_⟩
    rcases hmax with ⟨rfl, hnone⟩ | ⟨d, rfl, ⟨top, htop, hdate⟩, hle⟩
    · exact .inl ⟨rfl, fun doc' hdoc' d hd => hnone doc' (hold doc' hdoc' d hd) d hd⟩
    · exact .inr ⟨d, rfl, ⟨top, List.mem_append_left _ htop, hdate⟩,
        fun doc' hdoc' e he => hle doc' (hold doc' hdoc' e he) e he⟩

/-! ### The run that reads the cursor, and the next one -/

/-- What a run that ends well leaves stored: the time of the latest document, if one has any. -/
lemma scan_stored (hmode : cfg.mode = .mutable) (hfield : cfg.watermarkField = some field)
    {m : MongoState} {env : Env} {ctx : RunContext} {docs : List Doc}
    (hf : filterFor cfg (m.stored cfg dbName) = .ok filter) (hread : env.find filter none = docs)
    (hend : EndedWell ctx (extraction lib cfg u dbName env ctx m.store).1) :
    (m.run lib cfg u dbName env ctx).sent = m.sent ++ docs ∧
      ((m.run lib cfg u dbName env ctx).stored cfg dbName = m.stored cfg dbName ∧
          (∀ doc ∈ docs, ∀ d, get doc field ≠ some (.date d)) ∨
        ∃ wm d, (m.run lib cfg u dbName env ctx).stored cfg dbName = some wm ∧
          formatTs d = .ok wm.value ∧ Latest field docs d) := by
  have hstrategy := makeStrategy_mutable hmode hfield
  have hsort : (makeStrategy cfg).sortSpec = none := by rw [hstrategy]; rfl
  have hran := run_cases lib cfg u dbName m env ctx
  generalize m.run lib cfg u dbName env ctx = m' at hran ⊢
  have hdocs : ∀ {f}, filterFor cfg (m.stored cfg dbName) = .ok f →
      env.find f (makeStrategy cfg).sortSpec = docs := by
    intro f hf'
    obtain rfl := Except.ok.inj (hf.symm.trans hf')
    rw [hsort, hread]
  cases hran with
  | nothing h => exact absurd hend h
  | empty hf' h =>
    obtain rfl : docs = [] := (hdocs hf').symm.trans h
    simp
  | uploaded hf' hrows hobs h =>
    rw [hdocs hf', hstrategy] at hobs
    obtain ⟨maxVal, rfl, ⟨rfl, hnone⟩ | ⟨d, rfl, hlatest⟩⟩ := observeAll_latest hobs
    · exact ⟨by rw [hdocs hf'], .inl ⟨rfl, hnone⟩⟩
    · obtain ⟨t, -, h⟩ := bind_ok (h hend)
      cases h
  | committed hf' hrows hobs hwm =>
    rw [hdocs hf', hstrategy] at hobs
    obtain ⟨maxVal, rfl, ⟨rfl, hnone⟩ | ⟨d, rfl, hlatest⟩⟩ := observeAll_latest hobs
    · cases hwm
    · obtain ⟨t, ht, hwm⟩ := bind_ok hwm
      obtain rfl := Option.some.inj (Except.ok.inj hwm)
      exact ⟨by rw [hdocs hf'], .inr ⟨_, d, if_pos rfl, ht, hlatest⟩⟩

/-- What is sent once a run that reads at once has ended well. -/
lemma mem_sent_run {m : MongoState} {env : Env} {ctx : RunContext} {docs : List Doc}
    (hreads : ReadsAtOnce env docs)
    (hend : EndedWell ctx (extraction lib cfg u dbName env ctx m.store).1) :
    ∃ next, filterFor cfg (m.stored cfg dbName) = .ok next ∧ ∀ doc ∈ docs,
      (doc ∈ (m.run lib cfg u dbName env ctx).sent ↔ doc ∈ m.sent ∨ next.matches doc) := by
  have hfind : ∀ {next : Filter} {sort doc}, doc ∈ docs →
      (doc ∈ env.find next sort ↔ next.matches doc) := by
    intro next sort doc hdoc
    rw [(hreads next sort).mem_iff, List.mem_filter]
    exact and_iff_right hdoc
  have hran := run_cases lib cfg u dbName m env ctx
  generalize m.run lib cfg u dbName env ctx = m' at hran ⊢
  cases hran with
  | nothing h => exact absurd hend h
  | empty hf h =>
    refine ⟨_, hf, fun doc hdoc => (or_iff_left ?_).symm⟩
    rw [← hfind hdoc, h]
    exact List.not_mem_nil
  | uploaded hf => exact ⟨_, hf, fun doc hdoc => by rw [List.mem_append, hfind hdoc]⟩
  | committed hf => exact ⟨_, hf, fun doc hdoc => by rw [List.mem_append, hfind hdoc]⟩

/-- What was updated behind the cursor is not updated longer than the overlap before what the
cursor returned. Times count in milliseconds, and what was sent before does not count. -/
def InTime (cfg : CollectionConfig) (field : String) (sent : List Doc) (s : ScanState) : Prop :=
  ∀ i ∈ s.late, ∀ doc, s.docs[i]? = some doc → doc ∉ sent ++ s.returned →
    ∀ d, lookup field doc = some (.date d) → ∀ doc' ∈ s.returned, ∀ e,
      get doc' field = some (.date e) → millis e ≤ millis d + cfg.overlapSeconds * 1000

/-- What the filter of a stored time finds. -/
lemma next_matches (hmode : cfg.mode = .mutable) (hfield : cfg.watermarkField = some field)
    {wm : State.Watermark} {e : Datetime} (hwm : formatTs e = .ok wm.value) {next : Filter}
    (hf : filterFor cfg (some wm) = .ok next) {doc : Doc} {d : Datetime}
    (hdate : lookup field doc = some (.date d)) :
    next.matches doc ↔ millis e ≤ millis d + cfg.overlapSeconds * 1000 := by
  rw [filterFor_stored hmode hfield] at hf
  obtain ⟨lb, hlb, hf⟩ := bind_ok hf
  obtain rfl := Except.ok.inj hf
  have hinst := timestampBound_denotes ⟨e, hwm, rfl⟩ hlb
  have hmillis : millis lb = millis e - cfg.overlapSeconds * 1000 := by
    unfold millis
    omega
  simp only [Filter.matches, hdate, hmillis, decide_eq_true_eq]
  omega

/-- **When the overlap covers the updates of an open cursor.** For every interleaving of updates
and reads, the next run leaves the current version of every document sent if and only if what was
updated behind the cursor is in time. What is sent has rows in the bucket. -/
theorem overlap_covers_updates (hmode : cfg.mode = .mutable)
    (hfield : cfg.watermarkField = some field) {m : MongoState} {env env' : Env}
    {ctx ctx' : RunContext} {s : ScanState} (hrows : ∀ doc ∈ m.sent, Uploaded lib m doc)
    (hf : filterFor cfg (m.stored cfg dbName) = .ok filter)
    (hs : (scans field filter m.sent).Reachable s) (hexhausted : s.Exhausted)
    (hread : env.find filter none = s.returned)
    (hend : EndedWell ctx (extraction lib cfg u dbName env ctx m.store).1)
    (hreads' : ReadsAtOnce env' s.docs)
    (hend' : EndedWell ctx' (extraction lib cfg u dbName env' ctx'
      (m.run lib cfg u dbName env ctx).store).1) :
    (∀ doc ∈ ((m.run lib cfg u dbName env ctx).run lib cfg u dbName env' ctx').sent,
      Uploaded lib ((m.run lib cfg u dbName env ctx).run lib cfg u dbName env' ctx') doc) ∧
    ((∀ doc ∈ s.docs,
        doc ∈ ((m.run lib cfg u dbName env ctx).run lib cfg u dbName env' ctx').sent) ↔
      InTime cfg field m.sent s) := by
  have hinv := scanInv hs
  obtain ⟨hsent, hstored⟩ := scan_stored hmode hfield hf hread hend
  obtain ⟨next, hnext, hmem⟩ := mem_sent_run (u := u) hreads' hend'
  refine ⟨sent_uploaded (sent_uploaded hrows), ?_⟩
  -- what is neither sent nor returned was updated behind the cursor
  have hlate : ∀ {i doc}, s.docs[i]? = some doc → doc ∉ m.sent ++ s.returned →
      filter.matches doc ∧ i ∈ s.late := by
    intro i doc hdoc hmissed
    obtain ⟨hm, hv⟩ := (hinv.covered i doc hdoc).resolve_left hmissed
    refine ⟨hm, hv.resolve_left fun hnot => hnot (hexhausted i ?_)⟩
    exact (List.getElem?_eq_some_iff.mp hdoc).1
  rcases hstored with ⟨hsame, hnone⟩ | ⟨wm, e, hwm, hformat, ⟨top, htop, he⟩, hle⟩
  · -- no watermark was committed, so the next run asks for the same
    rw [hsame, hf] at hnext
    obtain rfl := Except.ok.inj hnext
    refine ⟨fun _ i _ doc _ _ d _ doc' hdoc' e he => absurd he (hnone doc' hdoc' e), ?_⟩
    intro _ doc hdoc
    obtain ⟨i, hi⟩ := List.mem_iff_getElem?.mp hdoc
    rw [hmem doc hdoc, hsent]
    by_cases hmissed : doc ∈ m.sent ++ s.returned
    · exact .inl hmissed
    · exact .inr (hlate hi hmissed).1
  · rw [hwm] at hnext
    constructor
    · intro hall i hi doc hdoc hmissed d hd doc' hdoc' e' he'
      have hmatch :=
        (hmem doc (List.mem_of_getElem? hdoc)).mp (hall doc (List.mem_of_getElem? hdoc))
      rw [hsent] at hmatch
      have hbound := (next_matches hmode hfield hformat hnext hd).mp
        (hmatch.resolve_left hmissed)
      have hmillis : millis e' ≤ millis e := Int.ediv_le_ediv (by decide) (hle doc' hdoc' e' he')
      exact hmillis.trans hbound
    · intro hin doc hdoc
      obtain ⟨i, hi⟩ := List.mem_iff_getElem?.mp hdoc
      rw [hmem doc hdoc, hsent]
      by_cases hmissed : doc ∈ m.sent ++ s.returned
      · exact .inl hmissed
      · have hi' := (hlate hi hmissed).2
        obtain ⟨d, hd⟩ := hinv.dated i hi' doc hi
        refine .inr ((next_matches hmode hfield hformat hnext hd).mpr ?_)
        exact hin i hi' doc hi hmissed d hd top htop e he

/-! ### An update behind the cursor, and a later one ahead of it -/

/-- So many seconds after the sample time. -/
def later (seconds : Fin 3600) : Datetime :=
  ⟨63000000000000000 + seconds * 1000000, some 0, by unfold wallLimit; omega⟩

/-- The cursor passed the first job, which was then updated, and was about to get to the second
one when that was updated, too. -/
def sampleScan (first second : Fin 3600) : ScanState where
  clock := (later second).instant
  docs := [job 1 (later first), job 2 (later second)]
  visited := [1, 0]
  returned := [job 1 (later 0), job 2 (later second)]
  late := [0]

lemma lookup_modified (id : ℤ) (modified : Datetime) :
    lookup "dtModified" (job id modified) = some (.date modified) :=
  lookup_eq_get (by decide) _

lemma later_instant {a b : Fin 3600} (h : a ≤ b) : (later a).instant ≤ (later b).instant := by
  have hle : a.val ≤ b.val := h
  simp only [later, Datetime.instant, Option.getD_some]
  omega

lemma sampleScan_reachable {first second : Fin 3600} (h : first ≤ second) :
    (scans "dtModified" .all []).Reachable (sampleScan first second) := by
  have hopen : (scans "dtModified" .all []).Reachable
      ⟨(later 0).instant, [job 1 (later 0), job 2 (later 0)], [], [], []⟩ :=
    .init ⟨fun _ _ _ _ => rfl, fun _ _ => .inr rfl, rfl, rfl, rfl⟩
  have hvisit := hopen.step (show ScanStep "dtModified" .all _ (.visit 0) _ from
    .visit rfl (by simp))
  have htick := hvisit.step (show ScanStep "dtModified" .all _ (.tick (later first).instant) _ from
    .tick (later_instant (Fin.zero_le _)))
  have hupdate := htick.step (show ScanStep "dtModified" .all _
    (.update 0 (job 1 (later first))) _ from .update (lookup_modified _ _) rfl)
  have htick := hupdate.step (show ScanStep "dtModified" .all _ (.tick (later second).instant) _
    from .tick (later_instant h))
  have hupdate := htick.step (show ScanStep "dtModified" .all _
    (.update 1 (job 2 (later second))) _ from .update (lookup_modified _ _) rfl)
  exact hupdate.step (show ScanStep "dtModified" .all _ (.visit 1) _ from
    .visit rfl (show 1 ∉ [0] by decide))

lemma sampleScan_exhausted (first second : Fin 3600) : (sampleScan first second).Exhausted := by
  intro i hi
  have hi : i < 2 := hi
  show i ∈ [1, 0]
  simp only [List.mem_cons, List.not_mem_nil, or_false]
  omega

/-- A run that reads what a scan returned. -/
def scanEnv (s : ScanState) : Env :=
  { calmReads [] sampleNow with find := fun _ _ => s.returned }

/-- What such a run leaves. -/
def scanned (s : ScanState) : MongoState :=
  (MongoState.start []).run plainLibs sampleCollection sampleUploader "db" (scanEnv s) sampleCtx

/-- The run after it, with nothing going on. -/
def rescanned (s : ScanState) : MongoState :=
  (scanned s).run plainLibs sampleCollection sampleUploader "db" (calmReads s.docs sampleNow)
    sampleCtx

theorem overlap_covers_updates_sample :
    (∀ doc ∈ (sampleScan 1 10).docs, doc ∈ (rescanned (sampleScan 1 10)).sent) ↔
      InTime sampleCollection "dtModified" [] (sampleScan 1 10) := by
  have hend : EndedWell sampleCtx (extraction plainLibs sampleCollection sampleUploader "db"
      (scanEnv (sampleScan 1 10)) sampleCtx StateStore.empty).1 :=
    ⟨rfl, _, rfl, .inl rfl⟩
  have hend' : EndedWell sampleCtx (extraction plainLibs sampleCollection sampleUploader "db"
      (calmReads (sampleScan 1 10).docs sampleNow) sampleCtx (scanned (sampleScan 1 10)).store).1 :=
    ⟨rfl, _, rfl, .inl rfl⟩
  exact (overlap_covers_updates (m := .start []) rfl rfl (fun _ h => by cases h) rfl
    (sampleScan_reachable (by decide)) (sampleScan_exhausted 1 10) rfl hend
    (calmReads_reads _ _) hend').2

/-- Both runs end well, and the update behind the cursor is not sent. -/
theorem passed_update_lost :
    (scans "dtModified" .all []).Reachable (sampleScan 1 60) ∧ (sampleScan 1 60).Exhausted ∧
    EndedWell sampleCtx (extraction plainLibs sampleCollection sampleUploader "db"
      (scanEnv (sampleScan 1 60)) sampleCtx StateStore.empty).1 ∧
    EndedWell sampleCtx (extraction plainLibs sampleCollection sampleUploader "db"
      (calmReads (sampleScan 1 60).docs sampleNow) sampleCtx (scanned (sampleScan 1 60)).store).1 ∧
    job 1 (later 1) ∈ (sampleScan 1 60).docs ∧
    job 1 (later 1) ∉ (rescanned (sampleScan 1 60)).sent := by
  refine ⟨sampleScan_reachable (by decide), sampleScan_exhausted 1 60, ⟨rfl, _, rfl, .inl rfl⟩,
    ⟨rfl, _, rfl, .inl rfl⟩, List.mem_cons_self, ?_⟩
  have hsent : (rescanned (sampleScan 1 60)).sent =
      [job 1 (later 0), job 2 (later 60), job 2 (later 60)] := rfl
  rw [hsent]
  simp [job, later]

end MongoSyncAgent.MutableCursor
