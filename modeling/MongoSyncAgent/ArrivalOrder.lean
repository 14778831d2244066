import Mathlib
import MongoSyncAgent.Batches
import MongoSyncAgent.Champions
import MongoSyncAgent.ForeignIds

/-!
The maximum that `observe` keeps, and the order in which the documents arrive.

Two integers compare as numbers, and an integer and any other `_id` by their texts. The two
comparisons disagree on integers of different lengths, so among `_id`s of both kinds a smaller
one may take the place of the greatest, by way of one that compares with both.
-/

namespace MongoSyncAgent.ArrivalOrder

open MongoSyncAgent.Py MongoSyncAgent.Bson MongoSyncAgent.Config MongoSyncAgent.Watermarks
open MongoSyncAgent.Batches MongoSyncAgent.ForeignIds MongoSyncAgent.Champions

variable {cfg : CollectionConfig} {text : Value → String}

variable (cfg text) in
/-- `new_watermark()`, after `observe` of the documents in their order. -/
def observedMaximum (docs : List Doc) : Except Exc (Option String) := do
  (← Strategy.observeAll text docs (.objectId cfg none)).newWatermark text

/-! ### The comparison of `observe` -/

/-- But for two integers, the greater text exceeds the other. -/
lemma exceeds_text {v m : Value} (hv : Plain v) (hm : Plain m)
    (h : ∀ n k, m = .int n → v ≠ .int k) : exceeds text v m ↔ pyStr text m < pyStr text v := by
  have hobs : Strategy.observeId text (some m) v = _ := observeId_text hm hv h
  rw [observeId_exceeds] at hobs
  have hval := Option.some.inj (Except.ok.inj hobs)
  by_cases heq : v = m
  · subst heq
    exact iff_of_false (exceeds_irrefl v) (String.lt_irrefl _)
  · split_ifs at hval with h1 h2
    · exact iff_of_true h1 h2
    · exact absurd hval heq
    · exact absurd hval.symm heq
    · exact iff_of_false h1 ‹_›

/-- Plain `_id`s of different texts compare one way or the other, and those of one text do not. -/
lemma contest {ids : List Value} (hplain : ∀ v ∈ ids, Plain v) :
    Contest (exceeds text) (pyStr text) ids where
  tie a ha b hb hkey := by
    by_cases hints : ∃ n k, b = .int n ∧ a = .int k
    · obtain ⟨n, k, rfl, rfl⟩ := hints
      obtain rfl : k = n := Int.repr_injective hkey
      exact exceeds_irrefl _
    · rw [exceeds_text (hplain a ha) (hplain b hb) fun n k hb ha => hints ⟨n, k, hb, ha⟩, hkey]
      exact String.lt_irrefl _
  total a ha b hb hkey := by
    by_cases hints : ∃ n k, b = .int n ∧ a = .int k
    · obtain ⟨n, k, rfl, rfl⟩ := hints
      rw [exceeds_int, exceeds_int]
      have hne : n ≠ k := fun h => hkey (by rw [h])
      omega
    · rw [exceeds_text (hplain a ha) (hplain b hb) fun n k hb ha => hints ⟨n, k, hb, ha⟩,
        exceeds_text (hplain b hb) (hplain a ha) fun n k ha hb => hints ⟨k, n, hb, ha⟩]
      rcases lt_trichotomy (pyStr text a) (pyStr text b) with hlt | heq | hgt
      · exact .inr hlt
      · exact absurd heq hkey
      · exact .inl hgt

/-! ### Documents -/

/-- The documents have these `_id`s, one each. -/
abbrev Holds (docs : List Doc) (ids : List Value) : Prop :=
  List.Forall₂ (fun doc v => get doc "_id" = some v) docs ids

lemma holds_idsOf {docs : List Doc} (h : ∀ doc ∈ docs, ∃ v, get doc "_id" = some v ∧ Plain v) :
    Holds docs (idsOf docs) ∧ ∀ v ∈ idsOf docs, Plain v := by
  induction docs with
  | nil => exact ⟨.nil, fun v hv => by cases hv⟩
  | cons doc docs ih =>
    obtain ⟨v, hv, hplain⟩ := h doc List.mem_cons_self
    obtain ⟨hids, hall⟩ := ih fun d hd => h d (List.mem_cons_of_mem _ hd)
    have hcons : idsOf (doc :: docs) = v :: idsOf docs := List.filterMap_cons_some hv
    rw [hcons]
    exact ⟨.cons hv hids, List.forall_mem_cons.mpr ⟨hplain, hall⟩⟩

/-- These are the `_id`s that `observe` goes by. -/
lemma Holds.seenIds_eq {docs : List Doc} {ids : List Value} (h : Holds docs ids)
    (hplain : ∀ v ∈ ids, Plain v) : seenIds docs = ids := by
  induction h with
  | nil => rfl
  | @cons doc v docs ids hv _ ih =>
    have hseen : seenId doc = some v := by
      unfold seenId
      rw [hv]
      have hp := hplain v List.mem_cons_self
      cases v with
      | null | bool | date | doc => exact hp.elim
      | int | str | oid => rfl
    rw [seenIds, List.filterMap_cons_some hseen]
    exact congrArg (v :: ·) (ih fun w hw => hplain w (List.mem_cons_of_mem _ hw))

lemma observedMaximum_eq {docs : List Doc} {ids : List Value} (h : Holds docs ids)
    (hplain : ∀ v ∈ ids, Plain v) : observedMaximum cfg text docs =
      .ok ((champion (exceeds text) ids).map (pyStr text)) := by
  rw [observedMaximum, observeAll_champion, h.seenIds_eq hplain]
  rfl

/-- Orders of the documents are orders of their `_id`s. -/
lemma orders_iff {docs : List Doc} {ids : List Value} (h : Holds docs ids)
    (hplain : ∀ v ∈ ids, Plain v) :
    (∀ docs' : List Doc, docs'.Perm docs →
      observedMaximum cfg text docs' = observedMaximum cfg text docs) ↔
    ∀ ids' : List Value, ids'.Perm ids →
      (champion (exceeds text) ids').map (pyStr text) =
        (champion (exceeds text) ids).map (pyStr text) := by
  rw [observedMaximum_eq h hplain]
  constructor
  · intro hall ids' hperm
    obtain ⟨docs', hids', hdocs'⟩ := List.perm_comp_forall₂ hperm h.flip
    have heq := hall docs' hdocs'
    rw [observedMaximum_eq hids'.flip fun v hv => hplain v (hperm.subset hv)] at heq
    exact Except.ok.inj heq
  · intro hall docs' hperm
    obtain ⟨ids', hids', hperm'⟩ := List.perm_comp_forall₂ hperm h
    rw [observedMaximum_eq hids' fun v hv => hplain v (hperm'.subset hv), hall ids' hperm']

/-- **When the order of arrival does not matter**: where there are no documents, or some `_id`
among them whose text is exceeded, as `observe` compares, by no `_id` of another text. -/
theorem arrival_order_iff {docs : List Doc}
    (hplain : ∀ doc ∈ docs, ∃ v, get doc "_id" = some v ∧ Plain v) :
    (∀ docs' : List Doc, docs'.Perm docs →
      observedMaximum cfg text docs' = observedMaximum cfg text docs) ↔
    docs = [] ∨ ∃ v, Settled (exceeds text) (pyStr text) (idsOf docs) v := by
  obtain ⟨hids, hall⟩ := holds_idsOf hplain
  rw [orders_iff hids hall, order_free_iff (contest hall)]
  refine or_congr_left ⟨fun hnil => ?_, fun hnil => by rw [hnil]; rfl⟩
  rw [hnil] at hids
  exact List.forall₂_nil_right_iff.mp hids

/-- The documents have a greatest `_id` just where the order of their arrival does not matter. -/
theorem ranked_iff_settled {docs : List Doc}
    (hplain : ∀ doc ∈ docs, ∃ v, get doc "_id" = some v ∧ Plain v) :
    Ranked (exceeds text) (seenIds docs) ↔
      ∃ v, Settled (exceeds text) (pyStr text) (idsOf docs) v := by
  obtain ⟨hids, hall⟩ := holds_idsOf hplain
  rw [hids.seenIds_eq hall]
  exact ranked_iff (contest hall)

/-! ### Two integers and a string -/

def idDoc (v : Value) : Doc := [("_id", v)]

/-- `"95"` is above `"9"` and `"10"`. -/
theorem arrival_order_settled :
    Settled (exceeds fun _ => "") (pyStr fun _ => "") [.int 9, .str "95", .int 10] (.str "95") ∧
      ∀ docs' : List Doc, docs'.Perm [idDoc (.int 9), idDoc (.str "95"), idDoc (.int 10)] →
        observedMaximum AppendOnly.sampleCollection (fun _ => "") docs' =
          observedMaximum AppendOnly.sampleCollection (fun _ => "")
            [idDoc (.int 9), idDoc (.str "95"), idDoc (.int 10)] := by
  have hsettled : Settled (exceeds fun _ => "") (pyStr fun _ => "")
      [.int 9, .str "95", .int 10] (.str "95") := ⟨.tail _ (.head _), by decide⟩
  refine ⟨hsettled, (arrival_order_iff fun doc hdoc => ?_).mpr (.inr ⟨_, hsettled⟩)⟩
  simp only [List.mem_cons, List.not_mem_nil, or_false] at hdoc
  rcases hdoc with rfl | rfl | rfl
  · exact ⟨_, rfl, trivial⟩
  · exact ⟨_, rfl, trivial⟩
  · exact ⟨_, rfl, trivial⟩

/-- `9 < 10`, but `"10" < "5"` and `"5" < "9"`: of the integers the one that comes last wins. -/
theorem arrival_order_matters :
    ¬ ∀ docs : List Doc, docs.Perm [idDoc (.int 9), idDoc (.str "5"), idDoc (.int 10)] →
      observedMaximum AppendOnly.sampleCollection (fun _ => "") docs =
        observedMaximum AppendOnly.sampleCollection (fun _ => "")
          [idDoc (.int 9), idDoc (.str "5"), idDoc (.int 10)] := by
  intro h
  have heq := h [idDoc (.int 10), idDoc (.str "5"), idDoc (.int 9)]
    (List.reverse_perm [idDoc (.int 9), idDoc (.str "5"), idDoc (.int 10)])
  revert heq
  decide

end MongoSyncAgent.ArrivalOrder
