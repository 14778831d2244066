import Mathlib.Data.List.Perm.Basic
import Mathlib.Data.List.Nodup
import Mathlib.Order.Lattice
import Mathlib.Tactic.Basic

/-!
Tables of rows with a key and a stamp: numbering the rows of each key from the latest stamp on,
and merging the first ones into a table that has one row for each key.

A table has no order, and neither have rows of one key and one stamp: whatever arrangement a
numbering goes by, only the stamps are to descend in it.
-/

namespace MongoSyncAgent.Tables

variable {β κ τ : Type*} [DecidableEq κ]

/-! ### Numbering -/

/-- The rows of an arrangement with their numbers, each among the rows of its key; `before` has
come already. -/
def number (key : β → κ) (before : List β) : List β → List (β × ℕ)
  | [] => []
  | b :: rows => (b, (before.filter fun c => key c = key b).length + 1) ::
      number key (before ++ [b]) rows

/-- Within each key, the stamps descend. -/
def Descending [LE τ] (key : β → κ) (stamp : β → τ) (rows : List β) : Prop :=
  rows.Pairwise fun a b => key a = key b → stamp b ≤ stamp a

/-- `ROW_NUMBER() OVER (PARTITION BY key ORDER BY stamp DESC)`, with ties broken in any way. -/
def RowNumbers [LE τ] (key : β → κ) (stamp : β → τ) (rows : List β)
    (numbered : List (β × ℕ)) : Prop :=
  ∃ arranged, arranged.Perm rows ∧ Descending key stamp arranged ∧
    numbered.Perm (number key [] arranged)

/-- The rows with the number one. -/
def firsts (numbered : List (β × ℕ)) : List β :=
  (numbered.filter fun n => n.2 = 1).map Prod.fst

variable {key : β → κ} {before rows : List β} {a b : β}

lemma firsts_cons (n : β × ℕ) (numbered : List (β × ℕ)) :
    firsts (n :: numbered) = if n.2 = 1 then n.1 :: firsts numbered else firsts numbered := by
  unfold firsts
  by_cases h : n.2 = 1 <;> simp [h]

/-- The first of its key, if none has come before. -/
lemma firsts_number_cons : firsts (number key before (b :: rows)) =
    if ∀ c ∈ before, key c ≠ key b then b :: firsts (number key (before ++ [b]) rows)
    else firsts (number key (before ++ [b]) rows) := by
  rw [number, firsts_cons]
  have hiff : (before.filter fun c => key c = key b).length + 1 = 1 ↔
      ∀ c ∈ before, key c ≠ key b := by
    simp [List.filter_eq_nil_iff]
  simp only [hiff]

lemma mem_firsts_number (h : b ∈ firsts (number key before rows)) :
    b ∈ rows ∧ ∀ c ∈ before, key c ≠ key b := by
  induction rows generalizing before with
  | nil => cases h
  | cons a rows ih =>
    rw [firsts_number_cons] at h
    have hrest : b ∈ firsts (number key (before ++ [a]) rows) →
        b ∈ a :: rows ∧ ∀ c ∈ before, key c ≠ key b := by
      intro h
      obtain ⟨hb, hnew⟩ := ih h
      exact ⟨List.mem_cons_of_mem _ hb, fun c hc => hnew c (List.mem_append_left _ hc)⟩
    split_ifs at h with hnew
    · rcases List.mem_cons.mp h with rfl | h
      · exact ⟨List.mem_cons_self, hnew⟩
      · exact hrest h
    · exact hrest h

/-- A key has at most one first row. -/
lemma firsts_number_nodup : ((firsts (number key before rows)).map key).Nodup := by
  induction rows generalizing before with
  | nil => exact List.nodup_nil
  | cons a rows ih =>
    rw [firsts_number_cons]
    split_ifs
    · rw [List.map_cons, List.nodup_cons]
      refine ⟨fun h => ?_, ih⟩
      obtain ⟨b, hb, heq⟩ := List.mem_map.mp h
      exact (mem_firsts_number hb).2 a (by simp) heq.symm
    · exact ih

/-- A key that has not come before has a first row. -/
lemma exists_first (before : List β) (ha : a ∈ rows) (hnew : ∀ c ∈ before, key c ≠ key a) :
    ∃ b ∈ firsts (number key before rows), key b = key a := by
  induction rows generalizing before with
  | nil => cases ha
  | cons c rows ih =>
    rw [firsts_number_cons]
    by_cases hc : key c = key a
    · rw [if_pos (hc ▸ hnew)]
      exact ⟨c, List.mem_cons_self, hc⟩
    · have ha' : a ∈ rows := (List.mem_cons.mp ha).resolve_left fun h => hc (h ▸ rfl)
      obtain ⟨b, hb, hkey⟩ := ih (before ++ [c]) ha' (by
        intro d hd
        rcases List.mem_append.mp hd with hd | hd
        · exact hnew d hd
        · rwa [List.mem_singleton.mp hd])
      refine ⟨b, ?_, hkey⟩
      split_ifs
      · exact List.mem_cons_of_mem _ hb
      · exact hb

section Stamps

variable [LinearOrder τ] {stamp : β → τ} {numbered : List (β × ℕ)}

/-- No row of the same key has a later stamp. -/
def Latest (key : β → κ) (stamp : β → τ) (rows : List β) (b : β) : Prop :=
  b ∈ rows ∧ ∀ c ∈ rows, key c = key b → stamp c ≤ stamp b

lemma latest_of_first (hdesc : Descending key stamp rows)
    (h : b ∈ firsts (number key before rows)) : Latest key stamp rows b := by
  induction rows generalizing before with
  | nil => cases h
  | cons a rows ih =>
    obtain ⟨hhead, htail⟩ := List.pairwise_cons.mp hdesc
    rw [firsts_number_cons] at h
    have hrest : b ∈ firsts (number key (before ++ [a]) rows) →
        Latest key stamp (a :: rows) b := by
      intro h
      obtain ⟨hb, hle⟩ := ih htail h
      refine ⟨List.mem_cons_of_mem _ hb, fun c hc hkey => ?_⟩
      rcases List.mem_cons.mp hc with rfl | hc
      · exact absurd hkey ((mem_firsts_number h).2 c (by simp))
      · exact hle c hc hkey
    split_ifs at h
    · rcases List.mem_cons.mp h with rfl | h
      · refine ⟨List.mem_cons_self, fun c hc hkey => ?_⟩
        rcases List.mem_cons.mp hc with rfl | hc
        · exact le_rfl
        · exact hhead c hc hkey.symm
      · exact hrest h
    · exact hrest h

lemma firsts_perm {numbered numbered' : List (β × ℕ)} (h : numbered.Perm numbered') :
    (firsts numbered).Perm (firsts numbered') :=
  (h.filter _).map _

/-- **The first rows** are latest rows, one for each key. -/
theorem RowNumbers.firsts (h : RowNumbers key stamp rows numbered) :
    ((Tables.firsts numbered).map key).Nodup ∧
      (∀ b ∈ Tables.firsts numbered, Latest key stamp rows b) ∧
      ∀ a ∈ rows, ∃ b ∈ Tables.firsts numbered, key b = key a := by
  obtain ⟨arranged, hperm, hdesc, hnumbered⟩ := h
  have hfirsts := firsts_perm hnumbered
  refine ⟨(hfirsts.map key).nodup_iff.mpr firsts_number_nodup, fun b hb => ?_, fun a ha => ?_⟩
  · obtain ⟨hmem, hle⟩ := latest_of_first hdesc (hfirsts.mem_iff.mp hb)
    exact ⟨hperm.mem_iff.mp hmem, fun c hc => hle c (hperm.mem_iff.mpr hc)⟩
  · have hfirst : ∃ b ∈ Tables.firsts (number key [] arranged), key b = key a :=
      exists_first [] (hperm.mem_iff.mpr ha) fun c hc => absurd hc List.not_mem_nil
    obtain ⟨b, hb, hkey⟩ := hfirst
    exact ⟨b, hfirsts.mem_iff.mpr hb, hkey⟩

/-- **Ties are broken in any way**: every latest row is the first of its key in some numbering. -/
theorem exists_rowNumbers (hb : Latest key stamp rows b) :
    ∃ numbered, RowNumbers key stamp rows numbered ∧ b ∈ firsts numbered := by
  classical
  let sorted := (rows.erase b).mergeSort fun c d => decide (stamp d ≤ stamp c)
  have hperm : (b :: sorted).Perm rows :=
    ((List.mergeSort_perm _ _).cons b).trans (List.perm_cons_erase hb.1).symm
  have hsorted : sorted.Pairwise fun c d => stamp d ≤ stamp c := by
    have h : sorted.Pairwise fun c d => decide (stamp d ≤ stamp c) = true :=
      List.pairwise_mergeSort
        (by simp only [decide_eq_true_eq]; exact fun _ _ _ h h' => h'.trans h)
        (by simp only [Bool.or_eq_true, decide_eq_true_eq]; exact fun _ _ => le_total _ _) _
    exact h.imp fun h => by simpa using h
  have hdesc : Descending key stamp (b :: sorted) :=
    List.pairwise_cons.mpr
      ⟨fun c hc hkey => hb.2 c (hperm.mem_iff.mp (List.mem_cons_of_mem _ hc)) hkey.symm,
        hsorted.imp (S := fun c d => key c = key d → stamp d ≤ stamp c) fun h _ => h⟩
  refine ⟨number key [] (b :: sorted), ⟨b :: sorted, hperm, hdesc, List.Perm.refl _⟩, ?_⟩
  rw [firsts_number_cons, if_pos (by simp)]
  exact List.mem_cons_self

end Stamps

/-! ### Merging -/

variable {target source : List β}

/-- `MERGE`: rows of the target that the source has a row for are replaced, and rows of the
source that match none of the target are inserted. -/
def upsert (key : β → κ) (target source : List β) : List β :=
  target.map (fun t => (source.find? fun s => key s = key t).getD t) ++
    source.filter fun s => ∀ t ∈ target, key t ≠ key s

lemma replaced_key (t : β) :
    key ((source.find? fun s => key s = key t).getD t) = key t := by
  rcases h : source.find? fun s => key s = key t with _ | s
  · rfl
  · simpa using List.find?_some h

/-- The only row of the source with its key is the one that is found. -/
lemma find_key (hs : (source.map key).Nodup) (hb : b ∈ source) {t : β} (hkey : key b = key t) :
    (source.find? fun s => key s = key t) = some b := by
  rcases h : source.find? fun s => key s = key t with _ | s
  · have hnone := List.find?_eq_none.mp h b hb
    simp [hkey] at hnone
  · have hs' : key s = key b := by
      rw [hkey]
      simpa using List.find?_some h
    rw [List.inj_on_of_nodup_map hs (List.mem_of_find?_eq_some h) hb hs']

/-- **What a merge leaves**: the rows of the source, and the rows of the target whose keys the
source does not have. -/
theorem mem_upsert (hs : (source.map key).Nodup) : b ∈ upsert key target source ↔
    b ∈ source ∨ b ∈ target ∧ ∀ s ∈ source, key s ≠ key b := by
  unfold upsert
  rw [List.mem_append, List.mem_map, List.mem_filter, decide_eq_true_eq]
  constructor
  · rintro (⟨t, ht, rfl⟩ | ⟨hb, -⟩)
    · rcases h : source.find? fun s => key s = key t with _ | s
      · exact .inr ⟨ht, fun s hs' => by simpa using List.find?_eq_none.mp h s hs'⟩
      · exact .inl (List.mem_of_find?_eq_some h)
    · exact .inl hb
  · rintro (hb | ⟨hb, hnone⟩)
    · by_cases hmatch : ∀ t ∈ target, key t ≠ key b
      · exact .inr ⟨hb, hmatch⟩
      · push Not at hmatch
        obtain ⟨t, ht, hkey⟩ := hmatch
        exact .inl ⟨t, ht, by rw [find_key hs hb hkey.symm]; rfl⟩
    · have hfind : (source.find? fun s => key s = key b) = none :=
        List.find?_eq_none.mpr fun s hs' => by simpa using hnone s hs'
      exact .inl ⟨b, hb, by rw [hfind]; rfl⟩

/-- One row for each key stays one row for each key. -/
lemma upsert_nodup (ht : (target.map key).Nodup) (hs : (source.map key).Nodup) :
    ((upsert key target source).map key).Nodup := by
  have hmap : (target.map fun t => (source.find? fun s => key s = key t).getD t).map key =
      target.map key := by
    rw [List.map_map]
    exact List.map_congr_left fun t _ => replaced_key t
  unfold upsert
  rw [List.map_append, hmap, List.nodup_append]
  refine ⟨ht, hs.sublist ((List.filter_sublist).map key), ?_⟩
  rintro k hk k' hk' rfl
  obtain ⟨t, ht', rfl⟩ := List.mem_map.mp hk
  obtain ⟨s, hs', heq⟩ := List.mem_map.mp hk'
  have hnone := (List.mem_filter.mp hs').2
  simp only [decide_eq_true_eq] at hnone
  exact hnone t ht' heq.symm

/-- Merging rows that are there already changes nothing. -/
lemma upsert_self (ht : (target.map key).Nodup) (h : ∀ s ∈ source, s ∈ target) :
    upsert key target source = target := by
  have hmap : target.map (fun t => (source.find? fun s => key s = key t).getD t) = target := by
    refine (List.map_congr_left fun t ht' => ?_).trans (List.map_id _)
    rcases hf : source.find? fun s => key s = key t with _ | s
    · rfl
    · have hkey : key s = key t := by simpa using List.find?_some hf
      exact List.inj_on_of_nodup_map ht (h s (List.mem_of_find?_eq_some hf)) ht' hkey
  have hfilter : (source.filter fun s => ∀ t ∈ target, key t ≠ key s) = [] := by
    rw [List.filter_eq_nil_iff]
    intro s hs hnone
    rw [decide_eq_true_eq] at hnone
    exact hnone s (h s hs) rfl
  rw [upsert, hmap, hfilter, List.append_nil]

/-! ### Merging the latest rows -/

section Latest

variable [LinearOrder τ] {stamp : β → τ} {numbered : List (β × ℕ)}

omit [DecidableEq κ] in
lemma Latest.congr {rows' : List β} (h : ∀ b, b ∈ rows ↔ b ∈ rows') :
    Latest key stamp rows b ↔ Latest key stamp rows' b := by
  simp only [Latest, h]

/-- Rows of one key and the latest stamp of it are the same. -/
def Settled (key : β → κ) (stamp : β → τ) (rows : List β) : Prop :=
  ∀ b c, Latest key stamp rows b → Latest key stamp rows c → key b = key c → b = c

/-- If all keys of the target are among the rows, the first rows are what a merge leaves. -/
lemma mem_upsert_firsts (htarget : ∀ t ∈ target, ∃ a ∈ rows, key a = key t)
    (h : RowNumbers key stamp rows numbered) :
    b ∈ upsert key target (firsts numbered) ↔ b ∈ firsts numbered := by
  obtain ⟨hnodup, -, hall⟩ := h.firsts
  rw [mem_upsert hnodup]
  refine or_iff_left ?_
  rintro ⟨hb, hnone⟩
  obtain ⟨a, ha, hkey⟩ := htarget b hb
  obtain ⟨c, hc, hkey'⟩ := hall a ha
  exact hnone c hc (hkey'.trans hkey)

/-- **Settled rows** have one merge, whatever the numbering: their latest rows. -/
theorem mem_upsert_settled (hsettled : Settled key stamp rows)
    (htarget : ∀ t ∈ target, ∃ a ∈ rows, key a = key t)
    (h : RowNumbers key stamp rows numbered) :
    b ∈ upsert key target (firsts numbered) ↔ Latest key stamp rows b := by
  rw [mem_upsert_firsts htarget h]
  obtain ⟨-, hlatest, hall⟩ := h.firsts
  refine ⟨hlatest b, fun hb => ?_⟩
  obtain ⟨c, hc, hkey⟩ := hall b hb.1
  rwa [← hsettled c b (hlatest c hc) hb hkey]

/-- **Rows that are not settled** have different merges. -/
theorem settled_of_stable (ht : (target.map key).Nodup)
    (htarget : ∀ t ∈ target, ∃ a ∈ rows, key a = key t)
    (hstable : ∀ numbered numbered', RowNumbers key stamp rows numbered →
      RowNumbers key stamp rows numbered' →
      (upsert key target (firsts numbered)).Perm (upsert key target (firsts numbered'))) :
    Settled key stamp rows := by
  intro b c hb hc hkey
  obtain ⟨numbered, hnum, hb⟩ := exists_rowNumbers hb
  obtain ⟨numbered', hnum', hc⟩ := exists_rowNumbers hc
  have hb' := (hstable _ _ hnum hnum').mem_iff.mp ((mem_upsert_firsts htarget hnum).mpr hb)
  have hc' := (mem_upsert_firsts htarget hnum').mpr hc
  exact List.inj_on_of_nodup_map (upsert_nodup ht hnum'.firsts.1) hb' hc' hkey

end Latest

end MongoSyncAgent.Tables
