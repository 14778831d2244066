import MongoSyncAgent.AlignedSearch

/-!
Where a log file may be cut, and the lines it holds.

A file may be cut at its start and just after an on-disk newline; for an encoding of two-byte
units, just after one that is aligned. For the encodings of the newline table the lines of a
file are then a framing: they do not depend on how the bytes were cut.
-/

namespace MongoSyncAgent.Lines

open MongoSyncAgent.Codecs MongoSyncAgent.Text MongoSyncAgent.Tailer MongoSyncAgent.Streaming
open MongoSyncAgent.Records MongoSyncAgent.AlignedSearch

/-- The bytes end where the file may be cut. -/
def Cut (encoding : String) (u : Bytes) : Prop :=
  u = [] ∨ newlinePattern encoding <:+ u ∧ (twoByte encoding → u.length % 2 = 0)

instance (encoding : String) (u : Bytes) : Decidable (Cut encoding u) := by
  unfold Cut; exact inferInstance

/-- The encodings whose newline the table knows, in any spelling. -/
def Supported (encoding : String) : Prop := normalise encoding ∈ newlinePatterns.map Prod.fst

instance (encoding : String) : Decidable (Supported encoding) := by
  unfold Supported; exact inferInstance

/-- The non-blank lines of some bytes decoded as a whole. -/
def nonBlankLines (encoding : String) (bs : Bytes) : List String :=
  textLines (((decoder (normalise encoding)).getD fun _ => []) bs)

lemma cut_nil (encoding : String) : Cut encoding [] := Or.inl rfl

lemma Cut.even {encoding : String} {u : Bytes} (h : Cut encoding u) (h2 : twoByte encoding) :
    u.length % 2 = 0 := by
  rcases h with rfl | ⟨-, h⟩
  · simp
  · exact h h2

lemma cut_append {encoding : String} {u v : Bytes} (hu : Cut encoding u) :
    Cut encoding (u ++ v) ↔ Cut encoding v := by
  by_cases hv : v = []
  · subst hv; simp [hu, cut_nil]
  have heven : twoByte encoding → ((u ++ v).length % 2 = 0 ↔ v.length % 2 = 0) := by
    intro h2
    have := hu.even h2
    rw [List.length_append]; omega
  have hsuf : (twoByte encoding → v.length % 2 = 0) →
      (newlinePattern encoding <:+ u ++ v ↔ newlinePattern encoding <:+ v) := by
    intro hev
    refine ⟨fun h => ?_, fun h => h.trans (List.suffix_append u v)⟩
    refine List.suffix_of_suffix_length_le h (List.suffix_append u v) ?_
    have hpos : 0 < v.length := List.length_pos_iff.mpr hv
    rcases pattern_cases encoding with ⟨h2, hp⟩ | ⟨-, hp⟩
    · have := hev h2; simp [hp]; omega
    · simp [hp]; omega
  unfold Cut
  simp only [List.append_eq_nil_iff, hv, and_false, false_or]
  constructor
  · rintro ⟨h1, h2⟩
    have h2' : twoByte encoding → v.length % 2 = 0 := fun h => (heven h).mp (h2 h)
    exact ⟨(hsuf h2').mp h1, h2'⟩
  · rintro ⟨h1, h2⟩
    exact ⟨(hsuf h2).mpr h1, fun h => (heven h).mpr (h2 h)⟩

def cutting (encoding : String) : Cutting UInt8 where
  Cut := Cut encoding
  cut_nil := cut_nil encoding
  cut_append := cut_append

/-- Position `n` of the file is a cut. -/
abbrev Boundary (encoding : String) (data : Bytes) (n : ℕ) : Prop :=
  CutAt (cutting encoding) data n

instance (encoding : String) (data : Bytes) (n : ℕ) : Decidable (Boundary encoding data n) :=
  inferInstanceAs (Decidable (n ≤ data.length ∧ Cut encoding (data.take n)))

/-! ### Lines do not depend on the cuts -/

lemma lines_append_of_feed {σ : Type*} (T : Transducer σ UInt8 Char) {u : Bytes}
    (h : T.state T.idle u = T.idle) (ht : ∃ t, T.emitted T.idle u = t ++ ['\n']) (v : Bytes) :
    textLines (T.run (u ++ v)) = textLines (T.run u) ++ textLines (T.run v) := by
  obtain ⟨t, ht⟩ := ht
  have hrun : T.run u = t ++ ['\n'] := by
    rw [Transducer.run, T.runFrom_eq, h, T.flush_idle, List.append_nil, ht]
  rw [T.run_append h, hrun, List.append_assoc, List.singleton_append, textLines_append]

lemma lines_append_one (T : Transducer Unit UInt8 Char)
    (h : ∀ u : Bytes, T.state T.idle (u ++ [0x0A]) = T.idle ∧
      ∃ t, T.emitted T.idle (u ++ [0x0A]) = t ++ ['\n']) {u : Bytes} (hu : [0x0A] <:+ u)
    (v : Bytes) : textLines (T.run (u ++ v)) = textLines (T.run u) ++ textLines (T.run v) := by
  obtain ⟨w, rfl⟩ := hu
  exact lines_append_of_feed T (h w).1 (h w).2 v

lemma lines_append_utf8 {u : Bytes} (hu : [0x0A] <:+ u) (v : Bytes) :
    textLines (utf8.run (u ++ v)) = textLines (utf8.run u) ++ textLines (utf8.run v) := by
  obtain ⟨w, rfl⟩ := hu
  exact lines_append_of_feed utf8 (utf8_feed w).1 (utf8_feed w).2 v

lemma lines_append_utf16 {u : Bytes} (hu : [0x0A, 0x00] <:+ u) (h2 : u.length % 2 = 0)
    (v : Bytes) : textLines ((utf16 true).run (u ++ v)) =
      textLines ((utf16 true).run u) ++ textLines ((utf16 true).run v) := by
  obtain ⟨w, rfl⟩ := hu
  have hw : w.length % 2 = 0 := by simp at h2; omega
  exact lines_append_of_feed (utf16 true) (utf16_feed hw).1 (utf16_feed hw).2 v

@[simp] lemma nonBlankLines_nil (encoding : String) : nonBlankLines encoding [] = [] := by
  unfold nonBlankLines decoder
  split_ifs <;> simp [utf16Bom]

theorem nonBlankLines_append {encoding : String} (hs : Supported encoding) {u v : Bytes}
    (hu : Cut encoding u) :
    nonBlankLines encoding (u ++ v) = nonBlankLines encoding u ++ nonBlankLines encoding v := by
  rcases hu with rfl | ⟨hsuf, heven⟩
  · simp
  -- the names of the table, and the codec each of them means
  simp only [Supported, newlinePatterns, List.map_cons, List.map_nil, List.mem_cons,
    List.not_mem_nil, or_false] at hs
  unfold newlinePattern at hsuf
  unfold twoByte at heven
  unfold nonBlankLines
  rcases hs with h | h | h | h | h | h | h | h <;> rw [h] at hsuf heven ⊢
  · exact lines_append_utf16 hsuf (heven (by decide)) v
  · exact lines_append_utf16 hsuf (heven (by decide)) v
  · exact lines_append_utf8 hsuf v
  · exact lines_append_utf8 hsuf v
  · exact lines_append_one ascii ascii_feed hsuf v
  · exact lines_append_one latin1 latin1_feed hsuf v
  · exact lines_append_one latin1 latin1_feed hsuf v
  · exact lines_append_one latin1 latin1_feed hsuf v

/-- The lines of a file in an encoding of the table. -/
def framing {encoding : String} (hs : Supported encoding) : Framing UInt8 String where
  toCutting := cutting encoding
  items := nonBlankLines encoding
  items_append := nonBlankLines_append hs

@[simp] lemma framing_items {encoding : String} (hs : Supported encoding) :
    (framing hs).items = nonBlankLines encoding := by
  simp only [framing]

/-! ### The last cut of a window -/

lemma cut_take {encoding : String} {raw : Bytes} {k : ℕ} (hk : 0 < k) (hle : k ≤ raw.length) :
    Cut encoding (raw.take k) ↔ (newlinePattern encoding).length ≤ k ∧
      newlinePattern encoding <+: raw.drop (k - (newlinePattern encoding).length) ∧
        (twoByte encoding → k % 2 = 0) := by
  have hne : raw.take k ≠ [] := by
    rw [← List.length_pos_iff, List.length_take]; omega
  have hlen : (raw.take k).length = k := by rw [List.length_take]; omega
  unfold Cut
  simp only [hne, false_or, hlen]
  constructor
  · rintro ⟨hsuf, h2⟩
    have hl : (newlinePattern encoding).length ≤ k := by simpa [hlen] using hsuf.length_le
    refine ⟨hl, ?_, h2⟩
    obtain ⟨w, hw⟩ := hsuf
    have hwl : w.length = k - (newlinePattern encoding).length := by
      have := congrArg List.length hw
      rw [List.length_append, hlen] at this; omega
    have hdrop : (raw.take k).drop w.length = newlinePattern encoding := by
      rw [← hw, List.drop_left]
    rw [← hwl, ← hdrop, List.drop_take]
    exact List.take_prefix _ _
  · rintro ⟨hl, hpre, h2⟩
    refine ⟨?_, h2⟩
    have h1 : (raw.drop (k - (newlinePattern encoding).length)).take
        (newlinePattern encoding).length = newlinePattern encoding :=
      (List.prefix_iff_eq_take.mp hpre).symm
    have h3 : raw.take k = raw.take (k - (newlinePattern encoding).length) ++
        newlinePattern encoding := by
      conv_lhs => rw [show k = k - (newlinePattern encoding).length +
        (newlinePattern encoding).length by omega, List.take_add, h1]
    rw [h3]
    exact List.suffix_append _ _

/-- **The search finds the last cut of the window**, and finds none only where there is none. -/
theorem lastNewline_spec (encoding : String) (raw : Bytes) :
    (∀ p, lastNewline encoding raw = some p →
      p + (newlinePattern encoding).length ≤ raw.length ∧
        Cut encoding (raw.take (p + (newlinePattern encoding).length)) ∧
          ∀ k, p + (newlinePattern encoding).length < k → k ≤ raw.length →
            ¬ Cut encoding (raw.take k)) ∧
    (lastNewline encoding raw = none →
      ∀ k, 0 < k → k ≤ raw.length → ¬ Cut encoding (raw.take k)) := by
  have hpos := pattern_length_pos encoding
  rcases pattern_cases encoding with ⟨h2, hp⟩ | ⟨h2, hp⟩
  · obtain ⟨hsome, hnone⟩ := lastNewline_aligned raw h2
    refine ⟨fun p h => ?_, fun h k hk hle hc => ?_⟩
    · obtain ⟨hp', hmax⟩ := (hsome p).mp h
      have hle := hp'.length_le
      obtain ⟨heven, hm⟩ := alignedNewline_iff.mp hp'
      refine ⟨by simpa [hp] using hle, ?_, fun k hk hkle hc => ?_⟩
      · rw [cut_take (by omega) (by simpa [hp] using hle), hp]
        exact ⟨by simp, by simpa using hm, fun _ => by simp; omega⟩
      · rw [cut_take (by omega) hkle, hp] at hc
        obtain ⟨hl, hm', he⟩ := hc
        simp only [hp, List.length_cons, List.length_nil] at hk hl hm'
        have := hmax (k - 2) (alignedNewline_iff.mpr ⟨by have := he h2; omega, hm'⟩)
        omega
    · rw [cut_take hk hle, hp] at hc
      obtain ⟨hl, hm, he⟩ := hc
      simp only [List.length_cons, List.length_nil] at hl hm
      exact hnone.mp h (k - 2) (alignedNewline_iff.mpr ⟨by have := he h2; omega, hm⟩)
  · simp only [lastNewline, h2, Bool.false_eq_true, if_false, hp]
    refine ⟨fun p h => ?_, fun h k hk hle hc => ?_⟩
    · obtain ⟨hle, hm, hmax⟩ := rfind_some h
      refine ⟨hle, ?_, fun k hk hkle hc => ?_⟩
      · rw [cut_take (by simp) (by simpa using hle), hp]
        exact ⟨by simp, by simpa using hm, fun h => by simp [h2] at h⟩
      · rw [cut_take (by omega) hkle, hp] at hc
        obtain ⟨hl, hm', -⟩ := hc
        simp only [List.length_singleton] at hk hl hm'
        exact hmax (k - 1) (by omega) (by simp; omega) hm'
    · rw [cut_take hk hle, hp] at hc
      obtain ⟨hl, hm, -⟩ := hc
      simp only [List.length_singleton] at hl hm
      exact rfind_none h (by simp; omega) hm

end MongoSyncAgent.Lines
