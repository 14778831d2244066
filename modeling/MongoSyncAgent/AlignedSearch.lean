import MongoSyncAgent.Tailer
import Mathlib.Logic.Relation

/-!
The search for the last aligned newline, as the loop that `tail_file` runs.

An odd match overlaps no even one, so what is left below it still holds every aligned newline
of the bytes, and the greatest of them is where the loop stops.
-/

namespace MongoSyncAgent.AlignedSearch

open MongoSyncAgent.Codecs MongoSyncAgent.Tailer

/-- A newline of a file of two-byte units, at a unit boundary. -/
def AlignedNewline (raw : Bytes) (i : ℕ) : Prop :=
  i % 2 = 0 ∧ raw[i]? = some 0x0A ∧ raw[i + 1]? = some 0x00

instance (raw : Bytes) (i : ℕ) : Decidable (AlignedNewline raw i) := by
  unfold AlignedNewline; exact inferInstance

/-- One turn of the loop: from an odd `last_nl_pos` to the match before it. -/
inductive Turn (nl raw : Bytes) : Option ℕ → Option ℕ → Prop
  | odd {p : ℕ} : p % 2 ≠ 0 → Turn nl raw (some p) (rfind nl raw p)

/-- What `last_nl_pos` is at the start of the loop. -/
def firstMatch (encoding : String) (raw : Bytes) : Option ℕ :=
  rfind (newlinePattern encoding) raw raw.length

/-- The loop gets from one value of `last_nl_pos` to another. -/
abbrev Reaches (encoding : String) (raw : Bytes) : Option ℕ → Option ℕ → Prop :=
  Relation.ReflTransGen (Turn (newlinePattern encoding) raw)

lemma twoByte_pattern {encoding : String} (h : twoByte encoding = true) :
    newlinePattern encoding = [0x0A, 0x00] := by
  rcases pattern_cases encoding with ⟨-, hp⟩ | ⟨hno, -⟩
  · exact hp
  · rw [h] at hno; cases hno

lemma newline_prefix_iff {raw : Bytes} {i : ℕ} :
    [0x0A, 0x00] <+: raw.drop i ↔ raw[i]? = some 0x0A ∧ raw[i + 1]? = some 0x00 := by
  have h0 : raw[i]? = (raw.drop i)[0]? := by simp
  have h1 : raw[i + 1]? = (raw.drop i)[1]? := by simp
  rw [h0, h1]
  generalize raw.drop i = rest
  rcases rest with _ | ⟨a, _ | ⟨b, rest⟩⟩
  · simp
  · simp
  · simp [List.cons_prefix_cons, eq_comm]

lemma alignedNewline_iff {raw : Bytes} {i : ℕ} :
    AlignedNewline raw i ↔ i % 2 = 0 ∧ [0x0A, 0x00] <+: raw.drop i := by
  rw [AlignedNewline, newline_prefix_iff]

lemma AlignedNewline.length_le {raw : Bytes} {i : ℕ} (h : AlignedNewline raw i) :
    i + 2 ≤ raw.length := by
  obtain ⟨hlt, -⟩ := List.getElem?_eq_some_iff.mp h.2.2
  omega

/-! ### One turn -/

/-- Everything still in reach of the search: the aligned newlines below `stop` are all of them. -/
def Covers (raw : Bytes) (stop : ℕ) : Prop := ∀ i, AlignedNewline raw i → i + 2 ≤ stop

/-- What the loop keeps: the last match is the greatest one below a bound that covers all
aligned newlines. -/
def Search (raw : Bytes) (last : Option ℕ) : Prop :=
  ∃ stop, Covers raw stop ∧ last = rfind [0x0A, 0x00] raw stop

lemma search_first (raw : Bytes) : Search raw (rfind [0x0A, 0x00] raw raw.length) :=
  ⟨raw.length, fun _ hi => hi.length_le, rfl⟩

/-- Searching below an odd match skips no aligned newline. -/
lemma covers_odd {raw : Bytes} {p : ℕ} (hs : Search raw (some p)) (hodd : p % 2 ≠ 0) :
    Covers raw p := by
  obtain ⟨stop, hcov, hlast⟩ := hs
  obtain ⟨-, hmatch, hmax⟩ := rfind_some hlast.symm
  intro i hi
  obtain ⟨heven, hi'⟩ := alignedNewline_iff.mp hi
  by_contra hlt
  rcases Nat.lt_or_ge p i with hpi | hpi
  · exact hmax i hpi (hcov i hi) hi'
  · -- an even position from `p - 1` on and below the odd `p` is the one before it
    obtain rfl : p = i + 1 := by omega
    exact no_overlap hi' hmatch

lemma search_turn {raw : Bytes} {s t : Option ℕ} (hs : Search raw s)
    (h : Turn [0x0A, 0x00] raw s t) : Search raw t := by
  obtain @⟨p, hodd⟩ := h
  exact ⟨p, covers_odd hs hodd, rfl⟩

lemma search_reaches {raw : Bytes} {s t : Option ℕ} (hs : Search raw s)
    (h : Relation.ReflTransGen (Turn [0x0A, 0x00] raw) s t) : Search raw t := by
  induction h with
  | refl => exact hs
  | tail _ hturn ih => exact search_turn ih hturn

/-! ### The whole loop -/

/-- The fuelled loop is a run of turns, and with a turn of fuel for every byte below the match
it stops where no further turn is possible. -/
lemma alignLoop_reaches (nl raw : Bytes) (hnl : 0 < nl.length) (fuel : ℕ) (last : Option ℕ)
    (hfuel : ∀ p, last = some p → p < fuel) :
    Relation.ReflTransGen (Turn nl raw) last (alignLoop nl raw fuel last) ∧
      ∀ t, ¬ Turn nl raw (alignLoop nl raw fuel last) t := by
  induction fuel generalizing last with
  | zero =>
    rcases last with _ | p
    · exact ⟨.refl, fun t h => by cases h⟩
    · exact absurd (hfuel p rfl) (Nat.not_lt_zero p)
  | succ fuel ih =>
    rcases last with _ | p
    · exact ⟨.refl, fun t h => by cases h⟩
    by_cases hodd : p % 2 ≠ 0
    · have hstep : alignLoop nl raw (fuel + 1) (some p)
          = alignLoop nl raw fuel (rfind nl raw p) := by
        simp [alignLoop, hodd]
      rw [hstep]
      obtain ⟨hrun, hstop⟩ := ih (rfind nl raw p) fun q hq => by
        have h1 := (rfind_some hq).1
        have h2 := hfuel p rfl
        omega
      exact ⟨.head (.odd hodd) hrun, hstop⟩
    · have hstep : alignLoop nl raw (fuel + 1) (some p) = some p := by simp [alignLoop, hodd]
      rw [hstep]
      exact ⟨.refl, fun t h => by cases h; contradiction⟩

/-- A search that can make no further turn has found the greatest aligned newline. -/
lemma search_stuck {raw : Bytes} {last : Option ℕ} (hs : Search raw last)
    (hstop : ∀ t, ¬ Turn [0x0A, 0x00] raw last t) :
    (∀ i, last = some i ↔ AlignedNewline raw i ∧ ∀ j, AlignedNewline raw j → j ≤ i) ∧
      (last = none ↔ ∀ i, ¬ AlignedNewline raw i) := by
  obtain ⟨stop, hcov, hlast⟩ := hs
  rcases last with _ | p
  · have hnone : ∀ i, ¬ AlignedNewline raw i := fun i hi =>
      rfind_none hlast.symm (hcov i hi) (alignedNewline_iff.mp hi).2
    exact ⟨fun i => ⟨fun h => (by cases h), fun h => absurd h.1 (hnone i)⟩,
      ⟨fun _ => hnone, fun _ => rfl⟩⟩
  · have heven : p % 2 = 0 := by
      by_contra hodd
      exact hstop _ (.odd hodd)
    obtain ⟨-, hmatch, hmax⟩ := rfind_some hlast.symm
    have hp : AlignedNewline raw p := alignedNewline_iff.mpr ⟨heven, hmatch⟩
    have hle : ∀ j, AlignedNewline raw j → j ≤ p := fun j hj => by
      by_contra hlt
      exact hmax j (by omega) (hcov j hj) (alignedNewline_iff.mp hj).2
    refine ⟨fun i => ⟨fun h => ?_, fun h => ?_⟩, ⟨fun h => (by cases h), fun h => absurd hp (h p)⟩⟩
    · obtain rfl := Option.some.inj h
      exact ⟨hp, hle⟩
    · rw [Nat.le_antisymm (hle i h.1) (h.2 p hp)]

lemma lastNewline_loop {encoding : String} (raw : Bytes) (h2 : twoByte encoding = true) :
    Reaches encoding raw (firstMatch encoding raw) (lastNewline encoding raw) ∧
      ∀ s, ¬ Turn (newlinePattern encoding) raw (lastNewline encoding raw) s := by
  have hloop : lastNewline encoding raw
      = alignLoop (newlinePattern encoding) raw raw.length (firstMatch encoding raw) := by
    simp only [lastNewline, h2, if_true, firstMatch]
  have hpos := pattern_length_pos encoding
  rw [hloop]
  refine alignLoop_reaches _ raw hpos raw.length _ fun p hp => ?_
  have h1 := (rfind_some hp).1
  omega

lemma search_visited {encoding : String} {raw : Bytes} (h2 : twoByte encoding = true)
    {s : Option ℕ} (hs : Reaches encoding raw (firstMatch encoding raw) s) : Search raw s := by
  rw [Reaches, firstMatch, twoByte_pattern h2] at hs
  exact search_reaches (search_first raw) hs

lemma lastNewline_aligned {encoding : String} (raw : Bytes) (h2 : twoByte encoding = true) :
    (∀ i, lastNewline encoding raw = some i ↔
      AlignedNewline raw i ∧ ∀ j, AlignedNewline raw j → j ≤ i) ∧
    (lastNewline encoding raw = none ↔ ∀ i, ¬ AlignedNewline raw i) := by
  obtain ⟨hrun, hstop⟩ := lastNewline_loop raw h2
  rw [twoByte_pattern h2] at hstop
  exact search_stuck (search_visited h2 hrun) hstop

/-- **The backward search is exact.** The loop ends, with the greatest aligned newline or
nothing; no search below an odd match skips one; and the offset after it is even. -/
theorem aligned_search_exact (encoding : String) (raw : Bytes) (h2 : twoByte encoding = true) :
    (Reaches encoding raw (firstMatch encoding raw) (lastNewline encoding raw) ∧
      ∀ s, ¬ Turn (newlinePattern encoding) raw (lastNewline encoding raw) s) ∧
    (∀ i, lastNewline encoding raw = some i ↔
      AlignedNewline raw i ∧ ∀ j, AlignedNewline raw j → j ≤ i) ∧
    (lastNewline encoding raw = none ↔ ∀ i, ¬ AlignedNewline raw i) ∧
    (∀ p, Reaches encoding raw (firstMatch encoding raw) (some p) → p % 2 ≠ 0 →
      ∀ i, AlignedNewline raw i → i + 2 ≤ p) ∧
    ∀ start p, start % 2 = 0 → lastNewline encoding raw = some p →
      (start + (p + (newlinePattern encoding).length)) % 2 = 0 := by
  obtain ⟨hsome, hnone⟩ := lastNewline_aligned raw h2
  refine ⟨lastNewline_loop raw h2, hsome, hnone,
    fun p hp hodd => covers_odd (search_visited h2 hp) hodd, fun start p hstart hp => ?_⟩
  have heven := ((hsome p).mp hp).1.1
  rw [twoByte_pattern h2]
  simp only [List.length_cons, List.length_nil]
  omega

/-- Three spurious matches at odd positions behind an aligned newline. -/
theorem aligned_search_exact_chained :
    lastNewline "utf-16-le" [0x0A, 0x00, 0x41, 0x0A, 0x00, 0x0A, 0x00, 0x0A, 0x00] = some 0 :=
  ((aligned_search_exact "utf-16-le" [0x0A, 0x00, 0x41, 0x0A, 0x00, 0x0A, 0x00, 0x0A, 0x00]
    (by decide)).2.1 0).mpr ⟨by decide, fun j hj => by
      have hlt := hj.length_le
      have hall : ∀ j < 8, AlignedNewline
          [0x0A, 0x00, 0x41, 0x0A, 0x00, 0x0A, 0x00, 0x0A, 0x00] j → j ≤ 0 := by decide
      exact hall j (by simp at hlt; omega) hj⟩

end MongoSyncAgent.AlignedSearch
