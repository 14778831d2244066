import MongoSyncAgent.Drain

/-!
Draining in windows: what a drain returns, and where its reads can start and end.

A read sees a bounded number of bytes of what has been written so far, so it can end at any cut
of its window with lines before it. The next read starts there, in the same drain or in a later
one.
-/

namespace MongoSyncAgent.Windows

open MongoSyncAgent.Codecs MongoSyncAgent.Text MongoSyncAgent.Tailer MongoSyncAgent.Lines
open MongoSyncAgent.Records MongoSyncAgent.Py MongoSyncAgent.Drain

variable (encoding : String) (maxBytes : ℤ) (data : Bytes)

/-- The non-blank lines between two positions. -/
def linesBetween (x e : ℕ) : List String := nonBlankLines encoding ((data.take e).drop x)

/-- A window that `f.read` takes, from `x` on, goes as far as `e`. -/
def InWindow (x e : ℕ) : Prop :=
  maxBytes = -1 ∨ maxBytes ≤ maxLength ∧ (e : ℤ) ≤ x + maxBytes

/-- A read from `x` can end at `e`: when nothing after `e` has been written. -/
structure CanRead (x e : ℕ) : Prop where
  lt : x < e
  boundary : Boundary encoding data e
  inWindow : InWindow maxBytes x e
  lines : linesBetween encoding data x e ≠ []

/-- What a drain from `x` returns for a file that no longer grows. -/
inductive Reading (content : ℕ → Option Bytes) : ℕ → List TailChunk → Prop
  | nil {x} (hstop : content x = none ∨ ∀ e, ¬ CanRead encoding maxBytes data x e) :
    Reading content x []
  | cons {x chunk rest} (hread : CanRead encoding maxBytes data x chunk.newOffset)
    (hlines : chunk.lines = linesBetween encoding data x chunk.newOffset)
    (hlast : ∀ e, CanRead encoding maxBytes data x e → e ≤ chunk.newOffset)
    (hrest : Reading content chunk.newOffset rest) : Reading content x (chunk :: rest)

/-- Where a read can start, while the file grows. -/
inductive ReadStart : ℕ → Prop
  | zero : ReadStart 0
  | next {x e} (hx : ReadStart x) (h : CanRead encoding maxBytes data x e) : ReadStart e

/-- Each read gives one line and ends right after it, however much of the file has been
written. -/
def LoneLines : Prop :=
  ∀ x e, ReadStart encoding maxBytes data x → CanRead encoding maxBytes data x e →
    (linesBetween encoding data x e).length = 1 ∧ ∀ b < e, ¬ CanRead encoding maxBytes data x b

variable {encoding maxBytes data} {codecs : CodecRegistry} {content : ℕ → Option Bytes}
  {fuel start : ℕ} {chunks : List TailChunk} {x e : ℕ}

/-! ### Growing files -/

lemma linesBetween_mono {data' : Bytes} (h : data <+: data') (he : e ≤ data.length) :
    linesBetween encoding data' x e = linesBetween encoding data x e := by
  rw [linesBetween, linesBetween, take_mono h he]

lemma boundary_of_le {data' : Bytes} (h : data <+: data') (he : e ≤ data.length)
    (hb : Boundary encoding data' e) : Boundary encoding data e :=
  ⟨he, by rw [← take_mono h he]; exact hb.2⟩

lemma CanRead.mono {data' : Bytes} (h : data <+: data') (hr : CanRead encoding maxBytes data x e) :
    CanRead encoding maxBytes data' x e :=
  ⟨hr.lt, cutAt_mono _ h hr.boundary, hr.inWindow, by
    rw [linesBetween_mono h hr.boundary.1]
    exact hr.lines⟩

lemma CanRead.of_le {data' : Bytes} (h : data <+: data') (he : e ≤ data.length)
    (hr : CanRead encoding maxBytes data' x e) : CanRead encoding maxBytes data x e :=
  ⟨hr.lt, boundary_of_le h he hr.boundary, hr.inWindow, by
    rw [← linesBetween_mono h he]
    exact hr.lines⟩

lemma ReadStart.mono {data' : Bytes} (h : data <+: data')
    (hx : ReadStart encoding maxBytes data x) :
    ReadStart encoding maxBytes data' x := by
  induction hx with
  | zero => exact .zero
  | next _ hr ih => exact .next ih (hr.mono h)

lemma ReadStart.boundary (hx : ReadStart encoding maxBytes data x) : Boundary encoding data x := by
  cases hx with
  | zero => exact cutAt_zero _ _
  | next _ h => exact h.boundary

/-- What holds of a file held of it when it was shorter. -/
lemma LoneLines.of_initial {data' : Bytes} (h : data <+: data')
    (hl : LoneLines encoding maxBytes data') : LoneLines encoding maxBytes data := by
  intro x e hx hr
  obtain ⟨hone, hbefore⟩ := hl x e (hx.mono h) (hr.mono h)
  refine ⟨by rwa [linesBetween_mono h hr.boundary.1] at hone, fun b hb hrb => ?_⟩
  exact hbefore b hb (hrb.mono h)

/-! ### One read -/

/-- A window that goes anywhere is one that `f.read` takes. -/
lemma InWindow.readSize (h : InWindow maxBytes x e) (hlt : x < e) : ReadSize maxBytes := by
  have hpos : (0 : ℤ) < maxLength := by decide
  unfold ReadSize
  rcases h with rfl | h
  · omega
  · omega

lemma linesBetween_trans (hsup : Supported encoding) {m : ℕ} (hx : Boundary encoding data x)
    (hm : Boundary encoding data m) (h1 : x ≤ m) (h2 : m ≤ e) :
    linesBetween encoding data x e =
      linesBetween encoding data x m ++ linesBetween encoding data m e := by
  have h := between_trans (framing hsup) hx hm h1 h2
  simp only [between, framing_items] at h
  exact h

/-- The lines up to a place are those up to a boundary before it, and those between the two. -/
lemma lines_take (hsup : Supported encoding) (hx : Boundary encoding data x) (hle : x ≤ e) :
    nonBlankLines encoding (data.take e) =
      nonBlankLines encoding (data.take x) ++ linesBetween encoding data x e := by
  have hitems := items_take (framing hsup) hx hle
  simp only [between, framing_items] at hitems
  exact hitems

lemma window_length {raw : Bytes} (hraw : readBytes (data.drop x) maxBytes = .ok raw) {k : ℕ}
    (hk : x + k ≤ data.length) : k ≤ raw.length ↔ InWindow maxBytes x (x + k) := by
  unfold InWindow
  rcases readBytes_ok hraw with ⟨hall, rfl⟩ | ⟨h0, hmax, rfl⟩
  · rw [List.length_drop]
    exact ⟨fun _ => .inl hall, fun _ => by omega⟩
  · rw [List.length_take, List.length_drop]
    omega

/-- What one call gives: nothing where no read can end, or the lines up to the last place where
one can. -/
lemma tailFile_read (hsup : Supported encoding) {chunk : TailChunk}
    (hx : Boundary encoding data x)
    (h : tailFile codecs (some data) x encoding maxBytes = .ok chunk) :
    chunk.lines = [] ∧ (∀ e, ¬ CanRead encoding maxBytes data x e) ∨
      CanRead encoding maxBytes data x chunk.newOffset ∧
        chunk.lines = linesBetween encoding data x chunk.newOffset ∧
        ∀ e, CanRead encoding maxBytes data x e → e ≤ chunk.newOffset := by
  obtain ⟨raw, hraw, ht⟩ := tailFile_cases (boundary_aligned hx) h
  have hpre := readBytes_initial hraw
  -- a boundary in the window is a cut of what was read
  have hcut : ∀ e, CanRead encoding maxBytes data x e →
      e - x ≤ raw.length ∧ Cut encoding (raw.take (e - x)) := by
    intro e hr
    have hlt := hr.lt
    have hle := hr.boundary.1
    have hk : e - x ≤ raw.length := (window_length hraw (by omega)).mpr (by
      rw [Nat.add_sub_cancel' hlt.le]
      exact hr.inWindow)
    refine ⟨hk, ?_⟩
    have hadd : Boundary encoding data (x + (e - x)) := by
      rw [Nat.add_sub_cancel' hlt.le]
      exact hr.boundary
    rw [← take_mono hpre hk]
    exact ((cutAt_add _ hx).mp hadd).2
  cases ht with
  | none hno =>
    refine .inl ⟨rfl, fun e hr => ?_⟩
    obtain ⟨hk, hc⟩ := hcut e hr
    exact hno (e - x) (by have := hr.lt; omega) hk hc
  | @lines k text hpos hle hcutk hlast htext =>
    have hend : x + k ≤ data.length := by
      have := hpre.length_le
      rw [List.length_drop] at this
      omega
    have hb : Boundary encoding data (x + k) :=
      boundary_add hx hend (by rw [take_mono hpre hle]; exact hcutk)
    have hmax : ∀ e, CanRead encoding maxBytes data x e → e ≤ x + k := by
      intro e hr
      by_contra hlt
      obtain ⟨hk, hc⟩ := hcut e hr
      exact hlast (e - x) (by omega) hk hc
    have hitems : textLines text = linesBetween encoding data x (x + k) := by
      rw [decode_supported hsup htext, linesBetween, List.take_add, List.drop_append_of_le_length]
      · have hnil : (data.take x).drop x = [] := by
          rw [List.drop_eq_nil_iff, List.length_take]
          omega
        rw [hnil, List.nil_append, take_mono hpre hle]
      · rw [List.length_take]
        exact (Nat.min_eq_left hx.1).ge
    by_cases hblank : textLines text = []
    · refine .inl ⟨hblank, fun e hr => hr.lines ?_⟩
      rw [hitems, linesBetween_trans hsup hx hr.boundary hr.lt.le (hmax e hr)] at hblank
      exact (List.append_eq_nil_iff.mp hblank).1
    · refine .inr
        ⟨⟨Nat.lt_add_of_pos_right hpos, hb, (window_length hraw hend).mp hle, ?_⟩, hitems, hmax⟩
      rw [← hitems]
      exact hblank

/-! ### The drain -/

lemma drainLoop_reading (hsup : Supported encoding) (hc : Static content data)
    (hs : Boundary encoding data start) (hfuel : data.length - start < fuel)
    (h : drainLoop codecs content encoding maxBytes fuel start = .ok chunks) :
    Reading encoding maxBytes data content start chunks := by
  induction fuel generalizing start chunks with
  | zero => omega
  | succ fuel ih =>
    obtain ⟨chunk, hchunk, ⟨hlines, rfl⟩ | ⟨hlines, hgo⟩⟩ := drainLoop_turn h
    · refine .nil ?_
      rcases hc start with hsome | hnone
      · rw [hsome] at hchunk
        rcases tailFile_read hsup hs hchunk with ⟨-, hno⟩ | ⟨hr, heq, -⟩
        · exact .inr hno
        · exact absurd (heq.symm.trans hlines) hr.lines
      · exact .inl hnone
    rcases tailFile_read hsup hs (hc.read hchunk hlines) with ⟨hnil, -⟩ | ⟨hr, heq, hlast⟩
    · exact absurd hnil hlines
    have hlt := hr.lt
    have hle := hr.boundary.1
    obtain ⟨rest, hrest, rfl⟩ := hgo (by omega)
    exact .cons hr heq hlast (ih hr.boundary (by omega) hrest)

/-- **What a drain returns**: from a boundary on, read after read, each up to the last place in
its window where one can end. -/
theorem drainFile_reading (hsup : Supported encoding) (hc : Static content data)
    (hs : Boundary encoding data start)
    (h : drainFile codecs content start encoding maxBytes = .ok chunks) :
    Reading encoding maxBytes data content start chunks := by
  rw [drainFile] at h
  rcases hc start with hsome | hnone
  · refine drainLoop_reading hsup hc hs ?_ h
    rw [hsome]
    show data.length - start < data.length + 1
    omega
  · rw [drainLoop_none hnone] at h
    obtain rfl := Except.ok.inj h
    exact .nil (.inl hnone)

/-- **Draining is a chunked reading**: the chunks hold the file's non-blank lines between the
start and the last offset, each once and in order. -/
theorem Reading.chunked (hsup : Supported encoding)
    (h : Reading encoding maxBytes data content start chunks) :
    ∃ e, Chunked (framing hsup) data start (chunks.map fun c => (c.lines, c.newOffset)) e := by
  induction h with
  | nil => exact ⟨_, .nil⟩
  | cons hread hlines _ _ ih =>
    obtain ⟨e, he⟩ := ih
    refine ⟨e, ?_⟩
    have hitems : linesBetween encoding data = between (framing hsup) data := by
      funext x e
      rw [between, framing_items]
      rfl
    rw [List.map_cons, hlines, hitems]
    exact .cons hread.lt hread.boundary he

/-! ### From any position

An offset that was measured on another file can lie in the middle of a line. A drain from there
ends at a boundary all the same, and gives every line that starts after the position.
-/

lemma linesBetween_of_le {z : ℕ} (h : z ≤ x) : linesBetween encoding data x z = [] := by
  have hnil : (data.take z).drop x = [] := by
    rw [List.drop_eq_nil_iff, List.length_take]
    omega
  rw [linesBetween, hnil, nonBlankLines_nil]

/-- Bytes that end at a boundary end in a newline, if they hold a whole one. -/
lemma cut_drop {c : ℕ} (ha : Aligned encoding x) (hc : Boundary encoding data c) (hle : x ≤ c)
    (hnl : x = c ∨ x + (newlinePattern encoding).length ≤ c) :
    Cut encoding ((data.take c).drop x) := by
  rcases hnl with rfl | hnl
  · rw [List.drop_eq_nil_iff.mpr (by rw [List.length_take]; omega)]
    exact cut_nil _
  have hlen : ((data.take c).drop x).length = c - x := by
    rw [List.length_drop, List.length_take, Nat.min_eq_left hc.1]
  have hpos := pattern_length_pos encoding
  rcases hc.2 with hempty | ⟨hsuf, heven⟩
  · have hzero : (data.take c).length = 0 := by rw [hempty]; rfl
    rw [List.length_take, Nat.min_eq_left hc.1] at hzero
    omega
  · refine .inr ⟨List.suffix_of_suffix_length_le hsuf (List.drop_suffix _ _) (by omega), ?_⟩
    intro h2
    have h1 := heven h2
    have h3 := ha h2
    rw [List.length_take, Nat.min_eq_left hc.1] at h1
    omega

/-- A newline that ends at an aligned position after `x` starts there or after it. -/
lemma newline_fits {c : ℕ} (ha : Aligned encoding x) (hc : Boundary encoding data c)
    (hle : x ≤ c) : x = c ∨ x + (newlinePattern encoding).length ≤ c := by
  rcases pattern_cases encoding with ⟨h2, hp⟩ | ⟨-, hp⟩
  · have h1 := ha h2
    have h3 := boundary_aligned hc h2
    simp only [hp, List.length_cons, List.length_nil]
    omega
  · simp only [hp, List.length_singleton]
    omega

/-- A window from an aligned position that ends in a newline ends at a boundary. -/
lemma boundary_of_window {k : ℕ} (ha : Aligned encoding x) (hpos : 0 < k)
    (hle : x + k ≤ data.length) (hcut : Cut encoding ((data.drop x).take k)) :
    Boundary encoding data (x + k) := by
  have hwindow : (data.drop x).take k = (data.take (x + k)).drop x := by
    rw [List.drop_take, Nat.add_sub_cancel_left]
  refine ⟨hle, .inr ?_⟩
  rcases hcut with hnil | ⟨hsuf, heven⟩
  · have hzero : ((data.drop x).take k).length = 0 := by rw [hnil]; rfl
    rw [List.length_take, List.length_drop] at hzero
    omega
  · rw [hwindow] at hsuf heven
    refine ⟨hsuf.trans (List.drop_suffix _ _), fun h2 => ?_⟩
    have h1 := heven h2
    have h3 := ha h2
    rw [List.length_drop, List.length_take, Nat.min_eq_left hle] at h1
    rw [List.length_take, Nat.min_eq_left hle]
    omega

/-- One call from any aligned position: it moves to a boundary, and gives the lines up to there
of every boundary that it passes. -/
lemma tailFile_covers (hsup : Supported encoding) (ha : Aligned encoding x) {chunk : TailChunk}
    (h : tailFile codecs (some data) x encoding maxBytes = .ok chunk) (hlines : chunk.lines ≠ []) :
    x < chunk.newOffset ∧ Boundary encoding data chunk.newOffset ∧
      ∀ c, Boundary encoding data c → x ≤ c → c ≤ chunk.newOffset →
        ∀ line ∈ linesBetween encoding data c chunk.newOffset, line ∈ chunk.lines := by
  obtain ⟨raw, hraw, ht⟩ := tailFile_cases ha h
  rcases ht.cut (readBytes_initial hraw) with rfl | ⟨k, text, hpos, hle, hcut, htext, rfl⟩
  · exact absurd rfl hlines
  have hwindow : (data.drop x).take k = (data.take (x + k)).drop x := by
    rw [List.drop_take, Nat.add_sub_cancel_left]
  have hend := boundary_of_window ha hpos hle hcut
  refine ⟨Nat.lt_add_of_pos_right hpos, hend, fun c hc hxc hce line hline => ?_⟩
  -- the window up to `c` ends in a newline, so the lines after it are lines of the window
  have hsplit : (data.take (x + k)).drop x =
      (data.take c).drop x ++ (data.take (x + k)).drop c := by
    have hcx : x ≤ (data.take c).length := by
      rw [List.length_take, Nat.min_eq_left hc.1]
      exact hxc
    conv_lhs => rw [take_split hce, List.drop_append_of_le_length hcx]
  show line ∈ textLines text
  rw [decode_supported hsup htext, hwindow, hsplit,
    nonBlankLines_append hsup (cut_drop ha hc hxc (newline_fits ha hc hxc))]
  exact List.mem_append_right _ hline

/-- What a drain that starts anywhere gives: it stays or ends at a boundary, and of every boundary
on the way it has the lines up to the end. -/
structure Swept (encoding : String) (data : Bytes) (start : ℕ) (chunks : List TailChunk)
    (e : ℕ) : Prop where
  le : start ≤ e
  aligned : Aligned encoding e
  ends : e = start ∨ Boundary encoding data e
  lines : ∀ c, Boundary encoding data c → start ≤ c → c ≤ e →
    ∀ line ∈ linesBetween encoding data c e, ∃ chunk ∈ chunks, line ∈ chunk.lines

lemma Swept.nil (ha : Aligned encoding start) : Swept encoding data start [] start := by
  refine ⟨le_rfl, ha, .inl rfl, fun c _ h1 h2 line hline => ?_⟩
  obtain rfl := le_antisymm h1 h2
  rw [linesBetween_of_le le_rfl] at hline
  cases hline

lemma Swept.cons (hsup : Supported encoding) {chunk : TailChunk}
    (hlt : start < chunk.newOffset) (hb : Boundary encoding data chunk.newOffset)
    (hcov : ∀ c, Boundary encoding data c → start ≤ c → c ≤ chunk.newOffset →
      ∀ line ∈ linesBetween encoding data c chunk.newOffset, line ∈ chunk.lines)
    (h : Swept encoding data chunk.newOffset chunks e) :
    Swept encoding data start (chunk :: chunks) e := by
  have hrest : ∀ line, (∃ x ∈ chunks, line ∈ x.lines) → ∃ x ∈ chunk :: chunks, line ∈ x.lines :=
    fun line ⟨x, hx, hl⟩ => ⟨x, List.mem_cons_of_mem _ hx, hl⟩
  refine ⟨hlt.le.trans h.le, h.aligned, .inr ?_, fun c hc hsc hce line hline => ?_⟩
  · rcases h.ends with rfl | hend
    · exact hb
    · exact hend
  rcases Nat.le_total c chunk.newOffset with hle | hge
  · rw [linesBetween_trans hsup hc hb hle h.le, List.mem_append] at hline
    rcases hline with hline | hline
    · exact ⟨chunk, List.mem_cons_self, hcov c hc hsc hle line hline⟩
    · exact hrest line (h.lines _ hb le_rfl h.le line hline)
  · exact hrest line (h.lines c hc hge hce line hline)

/-- **A drain from any position** ends where it started or at a boundary, and gives the lines
between every boundary it passes and its end. -/
theorem drainLoop_swept (hsup : Supported encoding) (hc : Static content data)
    (ha : Aligned encoding start)
    (h : drainLoop codecs content encoding maxBytes fuel start = .ok chunks) :
    Swept encoding data start chunks (chunks.foldl (fun _ chunk => chunk.newOffset) start) := by
  induction fuel generalizing start chunks with
  | zero =>
    obtain rfl := Except.ok.inj h
    exact .nil ha
  | succ fuel ih =>
    obtain ⟨chunk, hchunk, ⟨-, rfl⟩ | ⟨hlines, hgo⟩⟩ := drainLoop_turn h
    · exact .nil ha
    obtain ⟨hlt, hb, hcov⟩ := tailFile_covers hsup ha (hc.read hchunk hlines) hlines
    obtain ⟨rest, hrest, rfl⟩ := hgo (by omega)
    exact .cons hsup hlt hb hcov (ih (boundary_aligned hb) hrest)

end MongoSyncAgent.Windows
