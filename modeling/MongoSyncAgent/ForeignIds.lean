import MongoSyncAgent.AppendOnly

/-!
Append-only collections whose `_id`s are strings, integers and ObjectIds in any mixture.

The watermark of a run is the text of an `_id`: the greatest text of all, where of the integers
only the greatest one counts. The next run can use it only if it happens to be the hex string of
an ObjectId that is not too near the epoch.
-/

namespace MongoSyncAgent.ForeignIds

open MongoSyncAgent.Py MongoSyncAgent.Bson MongoSyncAgent.Config MongoSyncAgent.State
open MongoSyncAgent.Runtime MongoSyncAgent.Sinks MongoSyncAgent.Watermarks
open MongoSyncAgent.Extract MongoSyncAgent.CollectionRuns MongoSyncAgent.AppendOnly

variable {lib : Libs} {cfg : CollectionConfig} {u : S3Uploader} {dbName : String}
  {text : Value → String}

/-- The kinds of `_id`s. -/
def Plain : Value → Prop
  | .int _ | .str _ | .oid _ => True
  | _ => False

/-- An integer that no other integer exceeds, or another `_id`. -/
def Contender (ids : List Value) (v : Value) : Prop :=
  v ∈ ids ∧ ∀ n, v = .int n → ∀ k, .int k ∈ ids → k ≤ n

/-- The contender with the greatest text. -/
def Foremost (text : Value → String) (ids : List Value) (v : Value) : Prop :=
  Contender ids v ∧ ∀ v', Contender ids v' → ¬ pyStr text v < pyStr text v'

/-! ### What is observed -/

/-- But for two integers, `observe` compares texts. -/
lemma observeId_text {m v : Value} (hm : Plain m) (hv : Plain v)
    (h : ∀ n k, m = .int n → v ≠ .int k) : Strategy.observeId text (some m) v =
      .ok (some (if pyStr text m < pyStr text v then v else m)) := by
  cases m with
  | null | bool | date | doc => exact hm.elim
  | int n =>
    cases v with
    | null | bool | date | doc => exact hv.elim
    | int k => exact absurd rfl (h n k rfl)
    | str s => rfl
    | oid o => rfl
  | str s =>
    cases v with
    | null | bool | date | doc => exact hv.elim
    | int k => rfl
    | str s' => by_cases hlt : s < s' <;> simp [Strategy.observeId, pyGt, pyStr, hlt]
    | oid o => rfl
  | oid o =>
    cases v with
    | null | bool | date | doc => exact hv.elim
    | int k => rfl
    | str s => rfl
    | oid o' => simp only [Strategy.observeId, pyGt, pyStr, ObjectId.str_lt_iff, decide_eq_true_eq]

lemma observeId_int (n k : ℤ) : Strategy.observeId text (some (.int n)) (.int k) =
    .ok (some (.int (if n < k then k else n))) := by
  by_cases h : n < k <;> simp [Strategy.observeId, pyGt, Value.number, h]

/-- The order in which the cursor yields the `_id`s. -/
def Ascending (ids : List Value) : Prop := ids.Pairwise fun a b => bsonLe (some a) (some b)

lemma contender_snoc {ids : List Value} {v x : Value} (hv : ∀ k, v ≠ .int k) :
    Contender (ids ++ [v]) x ↔ Contender ids x ∨ x = v := by
  unfold Contender
  simp only [List.mem_append, List.mem_singleton]
  constructor
  · rintro ⟨hx | rfl, hmax⟩
    · exact .inl ⟨hx, fun n hn k hk => hmax n hn k (.inl hk)⟩
    · exact .inr rfl
  · rintro (⟨hx, hmax⟩ | rfl)
    · exact ⟨.inl hx, fun n hn k hk => hmax n hn k (hk.resolve_right fun h => hv k h.symm)⟩
    · exact ⟨.inr rfl, fun n hn => absurd hn (hv n)⟩

/-- Only integers come before an integer, and no greater ones. -/
lemma int_before {v : Value} {k : ℤ} (hv : Plain v) (h : bsonLe (some v) (some (.int k))) :
    ∃ n, v = .int n ∧ n ≤ k := by
  cases v with
  | null | bool | date | doc => exact hv.elim
  | int n => exact ⟨n, rfl, by simpa [bsonLe, kindRank] using h⟩
  | str s => simp [bsonLe, kindRank] at h
  | oid o => simp [bsonLe, kindRank] at h

/-- **One observation**: the greatest value stays the foremost of what has been seen. -/
lemma observeId_foremost {ids : List Value} {m v : Value} (hplain : ∀ x ∈ ids ++ [v], Plain x)
    (hsorted : Ascending (ids ++ [v])) (hm : Foremost text ids m) :
    ∃ m', Strategy.observeId text (some m) v = .ok (some m') ∧
      Foremost text (ids ++ [v]) m' := by
  have hmem := hm.1.1
  have hpm := hplain m (List.mem_append_left _ hmem)
  have hpv := hplain v (by simp)
  have hbefore : ∀ x ∈ ids, bsonLe (some x) (some v) := fun x hx =>
    (List.pairwise_append.mp hsorted).2.2 x hx v List.mem_cons_self
  by_cases hint : ∃ k, v = .int k
  · obtain ⟨k, rfl⟩ := hint
    obtain ⟨n, rfl, hn⟩ := int_before hpm (hbefore m hmem)
    refine ⟨_, observeId_int n k, ?_⟩
    rw [show (if n < k then k else n) = k by split_ifs <;> omega]
    refine ⟨⟨by simp, fun n' hn' j hj => ?_⟩, fun x hx => ?_⟩
    · obtain rfl := Value.int.inj hn'
      rcases List.mem_append.mp hj with hj | hj
      · obtain ⟨i, hi, hle⟩ := int_before (hplain _ (List.mem_append_left _ hj)) (hbefore _ hj)
        obtain rfl := Value.int.inj hi
        exact hle
      · obtain rfl := Value.int.inj (List.mem_singleton.mp hj)
        exact le_rfl
    · have hx' : ∃ j, x = .int j ∧ j ≤ k := by
        rcases List.mem_append.mp hx.1 with h | h
        · exact int_before (hplain _ (List.mem_append_left _ h)) (hbefore _ h)
        · exact ⟨k, List.mem_singleton.mp h, le_rfl⟩
      obtain ⟨j, rfl, hj⟩ := hx'
      have hk := hx.2 j rfl k (by simp)
      rw [show j = k by omega]
      exact String.lt_irrefl _
  · have hv : ∀ k, v ≠ .int k := fun k h => hint ⟨k, h⟩
    refine ⟨_, observeId_text hpm hpv fun _ k _ => hv k, ?_⟩
    split_ifs with hlt
    · refine ⟨(contender_snoc hv).mpr (.inr rfl), fun x hx hgt => ?_⟩
      rcases (contender_snoc hv).mp hx with hx | rfl
      · exact hm.2 x hx (String.lt_trans hlt hgt)
      · exact String.lt_irrefl _ hgt
    · refine ⟨(contender_snoc hv).mpr (.inl hm.1), fun x hx => ?_⟩
      rcases (contender_snoc hv).mp hx with hx | rfl
      · exact hm.2 x hx
      · exact hlt

lemma foremost_singleton (v : Value) : Foremost text [v] v := by
  refine ⟨⟨by simp, fun n hn k hk => ?_⟩, fun x hx => ?_⟩
  · have hv := List.mem_singleton.mp hk
    rw [hn] at hv
    exact (Value.int.inj hv).le
  · rw [List.mem_singleton.mp hx.1]
    exact String.lt_irrefl _

/-- The `_id`s of some documents. -/
def idsOf (docs : List Doc) : List Value := docs.filterMap fun doc => get doc "_id"

variable (cfg text) in
/-- **All observations**: the watermark is the foremost of the `_id`s. -/
theorem observeAll_foremost {docs : List Doc}
    (hplain : ∀ doc ∈ docs, ∃ v, get doc "_id" = some v ∧ Plain v)
    (hsorted : Ascending (idsOf docs)) :
    ∃ maxId, Strategy.observeAll text docs (.objectId cfg none) = .ok (.objectId cfg maxId) ∧
      (maxId = none ∧ idsOf docs = [] ∨ ∃ m, maxId = some m ∧ Foremost text (idsOf docs) m) := by
  induction docs using List.reverseRecOn with
  | nil => exact ⟨none, rfl, .inl ⟨rfl, rfl⟩⟩
  | append_singleton docs doc ih =>
    obtain ⟨v, hv, hpv⟩ := hplain doc (by simp)
    have hids : idsOf (docs ++ [doc]) = idsOf docs ++ [v] := by
      simp [idsOf, hv]
    rw [hids] at hsorted ⊢
    have hobserve : ∀ maxId, Strategy.observe text doc (.objectId cfg maxId) =
        (do return .objectId cfg (← Strategy.observeId text maxId v)) := by
      intro maxId
      simp only [Strategy.observe, hv]
      cases v with
      | null => exact hpv.elim
      | _ => rfl
    obtain ⟨maxId, hobs, h⟩ := ih (fun d hd => hplain d (by simp [hd]))
      (List.pairwise_append.mp hsorted).1
    rcases h with ⟨rfl, hnil⟩ | ⟨m, rfl, hm⟩
    · refine ⟨some v, by rw [observeAll_snoc, hobs, ok_bind, hobserve]; rfl, .inr ⟨v, rfl, ?_⟩⟩
      rw [hnil]
      exact foremost_singleton v
    · have hids' : ∀ x ∈ idsOf docs ++ [v], Plain x := by
        intro x hx
        rw [← hids] at hx
        obtain ⟨d, hd, hx⟩ := List.mem_filterMap.mp hx
        obtain ⟨y, hy, hpy⟩ := hplain d hd
        rw [hy] at hx
        rwa [← Option.some.inj hx]
      obtain ⟨m', hm', hf⟩ := observeId_foremost hids' hsorted hm
      refine ⟨some m', ?_, .inr ⟨m', rfl, hf⟩⟩
      rw [observeAll_snoc, hobs, ok_bind, hobserve, hm']
      rfl

/-! ### The next filter -/

/-- A cursor sorted on `_id` yields the documents in ascending order. -/
def SortsById (env : Env) : Prop :=
  ∀ filter, Ascending (idsOf (env.find filter (some [("_id", 1)])))

lemma asked_ascending (hmode : cfg.mode = .appendOnly) {env : Env} (h : SortsById env)
    (s : MongoState) : Ascending (idsOf (s.asked cfg dbName env)) := by
  unfold MongoState.asked
  rw [makeStrategy_appendOnly hmode]
  split
  · exact h _
  · exact List.Pairwise.nil

/-- The foremost of the `_id`s is the hex string of an ObjectId, of a second that the overlap can
be taken from. -/
def Usable (text : Value → String) (cfg : CollectionConfig) (ids : List Value) : Prop :=
  ∃ v o, Foremost text ids v ∧ ObjectId.ofStr (pyStr text v) = .ok o ∧
    cfg.overlapSeconds ≤ o.seconds

lemma filterFor_defined (hmode : cfg.mode = .appendOnly) (hpos : 0 ≤ cfg.overlapSeconds)
    (wm : State.Watermark) : (∃ filter, filterFor cfg (some wm) = .ok filter) ↔
      ∃ o, ObjectId.ofStr wm.value = .ok o ∧ cfg.overlapSeconds ≤ o.seconds := by
  rw [filterFor_stored hmode]
  constructor
  · rintro ⟨filter, hf⟩
    obtain ⟨lb, hlb, -⟩ := bind_ok hf
    obtain ⟨o, ho, hval⟩ := objectIdBound_ok hlb
    exact ⟨o, ho, by omega⟩
  · rintro ⟨o, ho, hle⟩
    obtain ⟨lb, hlb⟩ := objectIdBound_defined hpos ho hle
    exact ⟨.idGt lb, by rw [hlb]; rfl⟩

/-- **When a committed watermark can be used again.** The next run can build its filter if and
only if the foremost of the `_id`s that this run got is usable. -/
theorem next_filter_builds (hmode : cfg.mode = .appendOnly) (hpos : 0 ≤ cfg.overlapSeconds)
    {s : MongoState} {env : Env} {ctx : RunContext} (hsorts : SortsById env)
    (hplain : ∀ doc ∈ s.asked cfg dbName env, ∃ v, get doc "_id" = some v ∧ Plain v)
    {wm : State.Watermark}
    (hcommit : Commits (extraction lib cfg u dbName env ctx s.store).2.journal cfg dbName wm) :
    (∃ filter, filterFor cfg (some wm) = .ok filter) ↔
      Usable lib.text cfg (idsOf (s.asked cfg dbName env)) := by
  have hids : Ascending (idsOf (s.asked cfg dbName env)) := asked_ascending hmode hsorts s
  obtain ⟨strategy, hobs, hwm⟩ := commits_cases hcommit
  rw [makeStrategy_appendOnly hmode] at hobs
  obtain ⟨maxId, hobs', hfore⟩ := observeAll_foremost cfg lib.text hplain hids
  rw [hobs] at hobs'
  obtain rfl := Except.ok.inj hobs'
  rcases hfore with ⟨rfl, -⟩ | ⟨m, rfl, hm⟩
  · cases hwm
  -- the watermark is the text of the foremost
  have hvalue : wm.value = pyStr lib.text m := (Option.some.inj (Except.ok.inj hwm)).symm
  rw [filterFor_defined hmode hpos, hvalue]
  constructor
  · rintro ⟨o, ho, hle⟩
    exact ⟨m, o, hm, ho, hle⟩
  · rintro ⟨v, o, hv, ho, hle⟩
    have htext : pyStr lib.text v = pyStr lib.text m :=
      String.le_antisymm (String.not_lt.mp (hm.2 v hv.1)) (String.not_lt.mp (hv.2 m hm.1))
    exact ⟨o, htext ▸ ho, hle⟩

/-! ### An ObjectId and a string -/

/-- What a run of the sample collection over one document commits. -/
def sampleCommit (value : String) : State.Watermark :=
  ⟨"objectid", value, sampleNow, "r1"⟩

lemma calmReads_sorts {docs : List Doc} (h : Ascending (idsOf docs)) (now : Timestamps.Datetime) :
    SortsById (calmReads docs now) :=
  fun _ => List.Pairwise.sublist (List.filter_sublist.filterMap _) h

lemma sampleIds_usable : Usable plainLibs.text sampleCollection (idsOf sampleState.docs) := by
  have hmem : .oid sampleId ∈ idsOf sampleState.docs := List.mem_cons_of_mem _ List.mem_cons_self
  refine ⟨.oid sampleId, sampleId, ⟨⟨hmem, fun n hn => by cases hn⟩, ?_⟩,
    ObjectId.ofStr_str _, by decide⟩
  rintro v ⟨hv, -⟩
  rcases List.mem_cons.mp hv with rfl | hv
  · decide +kernel
  · obtain rfl := List.mem_singleton.mp hv
    exact String.lt_irrefl _

/-- The second run commits the watermark of the first one again, and a third one can use it. -/
theorem next_filter_builds_sample :
    sampleState.stored sampleCollection "db" = some (sampleCommit sampleId.str) ∧
    Commits (extraction plainLibs sampleCollection sampleUploader "db"
      (calmReads sampleState.docs sampleNow) sampleCtx sampleState.store).2.journal
        sampleCollection "db" (sampleCommit sampleId.str) ∧
    ∃ filter, filterFor sampleCollection (some (sampleCommit sampleId.str)) = .ok filter := by
  have hcommit : Commits (extraction plainLibs sampleCollection sampleUploader "db"
      (calmReads sampleState.docs sampleNow) sampleCtx sampleState.store).2.journal
        sampleCollection "db" (sampleCommit sampleId.str) :=
    List.mem_cons_of_mem _ List.mem_cons_self
  have hasked : sampleState.asked sampleCollection "db" (calmReads sampleState.docs sampleNow) =
      sampleState.docs := rfl
  have hascending : Ascending (idsOf sampleState.docs) :=
    List.pairwise_pair.mpr (by decide)
  refine ⟨sampleState_stored, hcommit, ?_⟩
  refine (next_filter_builds rfl (by decide) (calmReads_sorts hascending _) (fun doc hdoc => ?_)
    hcommit).mpr (hasked ▸ sampleIds_usable)
  rw [hasked] at hdoc
  rcases List.mem_cons.mp hdoc with rfl | hdoc
  · exact ⟨_, rfl, trivial⟩
  · obtain rfl := List.mem_singleton.mp hdoc
    exact ⟨_, rfl, trivial⟩

/-- The watermark of a collection with a string `_id`, which no later run can use. -/
theorem string_id_unusable :
    Commits (extraction plainLibs sampleCollection sampleUploader "db"
      (calmReads [[("_id", .str "abc")]] sampleNow) sampleCtx StateStore.empty).2.journal
        sampleCollection "db" (sampleCommit "abc") ∧
      filterFor sampleCollection (some (sampleCommit "abc")) =
        raise .invalidId "abc is not a valid ObjectId" :=
  ⟨List.mem_cons_of_mem _ List.mem_cons_self, rfl⟩

end MongoSyncAgent.ForeignIds
