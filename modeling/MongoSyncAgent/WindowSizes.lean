import Mathlib.Data.Nat.Find
import MongoSyncAgent.Windows

/-!
Draining with any window size.

With a window that `f.read` takes, a drain ends at a boundary, and what it gives are the lines of
the bytes it passed; the size of the window only decides how far it comes. It stops at the first
window that has no lines: one without a newline, and also one of blank lines only.
-/

namespace MongoSyncAgent.WindowSizes

open MongoSyncAgent.Codecs MongoSyncAgent.Text MongoSyncAgent.Tailer MongoSyncAgent.Lines
open MongoSyncAgent.Records MongoSyncAgent.Py MongoSyncAgent.Drain MongoSyncAgent.Windows

variable {codecs : CodecRegistry} {content : ℕ → Option Bytes} {encoding : String} {maxBytes : ℤ}
  {data : Bytes} {start fuel : ℕ} {chunks : List TailChunk} {chunk : TailChunk}

/-- A drain of a file that does not change ends with its chunks. -/
lemma drains_ok (codecs : CodecRegistry) (hsup : Supported encoding) (hmax : 0 ≤ maxBytes)
    (hsize : maxBytes ≤ maxLength) (hc : Static content data)
    (hs : Boundary encoding data start) :
    ∃ chunks, drainFile codecs content start encoding maxBytes = .ok chunks ∧
      Drains codecs content encoding maxBytes start (.ok chunks) := by
  obtain ⟨chunks, hdrain⟩ := drainFile_ok codecs hsup ⟨by omega, hsize⟩ content start
  exact ⟨chunks, hdrain, hdrain ▸ drains_drainFile hc hs⟩

/-- A window that `f.read` refuses makes for no chunks. -/
lemma drains_refused (codecs : CodecRegistry) (data : Bytes) (encoding : String) (start : ℕ)
    (h : maxLength < maxBytes) :
    ∃ text, Drains codecs (fun _ => some data) encoding maxBytes start
      (raise .overflowError text) := by
  obtain ⟨text, hloop⟩ := @drainLoop_refused data maxBytes start codecs (fun _ => some data)
    encoding h rfl
  refine ⟨text, 1, fun m hm => ?_⟩
  obtain ⟨m, rfl⟩ := Nat.exists_eq_add_of_le' hm
  exact hloop m

/-- `chunks[-1].new_offset`, or the start if there is no chunk. -/
def lastOffset (start : ℕ) (chunks : List TailChunk) : ℕ :=
  chunks.foldl (fun _ chunk => chunk.newOffset) start

lemma lastOffset_boundary (hs : Boundary encoding data start)
    (hall : ∀ c ∈ chunks, Boundary encoding data c.newOffset) :
    Boundary encoding data (lastOffset start chunks) := by
  induction chunks generalizing start with
  | nil => exact hs
  | cons c rest ih =>
    exact ih (hall c List.mem_cons_self) fun c' hc' => hall c' (List.mem_cons_of_mem _ hc')

lemma reading_lines (hsup : Supported encoding) (hs : Boundary encoding data start)
    (h : Reading encoding maxBytes data content start chunks) :
    start ≤ lastOffset start chunks ∧
      chunks.flatMap (·.lines) = linesBetween encoding data start (lastOffset start chunks) := by
  obtain ⟨e, he⟩ := h.chunked hsup
  have hend : lastOffset start chunks = e := by
    rw [← he.foldl_end, List.foldl_map]
    rfl
  have hitems := he.items hs
  rw [List.flatMap_map] at hitems
  rw [hend, linesBetween]
  simp only [between, framing_items] at hitems
  exact ⟨he.le, hitems⟩

/-- **Draining is sound for every window** that `f.read` takes. -/
theorem drain_sound (codecs : CodecRegistry) (data : Bytes) {encoding : String} {start : ℕ}
    {maxBytes : ℤ} (hsup : Supported encoding) (hs : Boundary encoding data start)
    (hmax : 0 ≤ maxBytes) (hsize : maxBytes ≤ maxLength) :
    ∃ chunks, Drains codecs (fun _ => some data) encoding maxBytes start (.ok chunks) ∧
      (start :: chunks.map (·.newOffset)).Pairwise (· < ·) ∧
      (∀ c ∈ chunks, Boundary encoding data c.newOffset ∧ c.newOffset ≤ data.length ∧
        (twoByte encoding → c.newOffset % 2 = 0)) ∧
      chunks.flatMap (·.lines) =
        nonBlankLines encoding ((data.take (lastOffset start chunks)).drop start) := by
  have hc : Static (fun _ => some data) data := fun _ => .inl rfl
  obtain ⟨chunks, hdrain, hdrains⟩ := drains_ok codecs hsup hmax hsize hc hs
  obtain ⟨hpw, hall⟩ := drainFile_ends hc hs hdrain
  refine ⟨chunks, hdrains, hpw, fun c hmem => ?_, ?_⟩
  · have hb := (hall c hmem).2
    exact ⟨hb, hb.1, boundary_aligned hb⟩
  · exact (reading_lines hsup hs (drainFile_reading hsup hc hs hdrain)).2

/-- A file with lone carriage returns and an unfinished line, read two bytes at a time. -/
theorem drain_sound_sample : ∃ chunks,
    Drains (fun _ => none) (fun _ => some [0x61, 0x0D, 0x0A, 0x62]) "utf-8" 2 0 (.ok chunks) ∧
      (0 :: chunks.map (·.newOffset)).Pairwise (· < ·) ∧
      (∀ c ∈ chunks, Boundary "utf-8" [0x61, 0x0D, 0x0A, 0x62] c.newOffset ∧ c.newOffset ≤ 4 ∧
        (twoByte "utf-8" → c.newOffset % 2 = 0)) ∧
      chunks.flatMap (·.lines) =
        nonBlankLines "utf-8" (([0x61, 0x0D, 0x0A, 0x62].take (lastOffset 0 chunks)).drop 0) :=
  drain_sound _ _ (by decide) (cutAt_zero _ _) (by decide) (by decide)

/-- A window of `2 ^ 63` bytes, which is no index-sized integer: there are no chunks. -/
theorem huge_window_refused :
    Supported "utf-8" ∧ Boundary "utf-8" [0x61, 0x0A] 0 ∧ (0 : ℤ) ≤ 2 ^ 63 ∧
    Drains (fun _ => none) (fun _ => some [0x61, 0x0A]) "utf-8" (2 ^ 63) 0
      (raise .overflowError "cannot fit 'int' into an index-sized integer") ∧
    ¬ ∃ chunks, Drains (fun _ => none) (fun _ => some [0x61, 0x0A]) "utf-8" (2 ^ 63) 0
      (.ok chunks) := by
  have hdrain : drainFile (fun _ => none) (fun _ => some [0x61, 0x0A]) 0 "utf-8" (2 ^ 63) =
      raise .overflowError "cannot fit 'int' into an index-sized integer" := by decide +kernel
  have hc : Static (fun _ => some [0x61, 0x0A]) [0x61, 0x0A] := fun _ => .inl rfl
  have hdrains := hdrain ▸
    @drains_drainFile (fun _ => none) _ _ "utf-8" (2 ^ 63) 0 hc (cutAt_zero _ _)
  refine ⟨by decide, cutAt_zero _ _, by decide, hdrains, fun ⟨chunks, hchunks⟩ => ?_⟩
  cases hchunks.unique hdrains

/-! ### Agreement with one large read -/

/-- The bytes from `x` to `y` are one line of the file, its newline included. -/
structure Line (encoding : String) (data : Bytes) (x y : ℕ) : Prop where
  lt : x < y
  starts : Boundary encoding data x
  ends : Boundary encoding data y
  next : ∀ z, Boundary encoding data z → z ≤ x ∨ y ≤ z

/-- Every line after `start` fits in a window. -/
def LinesFit (encoding : String) (data : Bytes) (start : ℕ) (maxBytes : ℤ) : Prop :=
  ∀ x y, start ≤ x → Line encoding data x y → (y : ℤ) ≤ x + maxBytes

/-- The last boundary in the window that starts at `x`. -/
structure LastCut (encoding : String) (data : Bytes) (maxBytes : ℤ) (x y : ℕ) : Prop where
  lt : x < y
  boundary : Boundary encoding data y
  inWindow : (y : ℤ) ≤ x + maxBytes
  last : ∀ z, Boundary encoding data z → (z : ℤ) ≤ x + maxBytes → z ≤ y

/-- Where the windows start, if each starts at the last boundary of the one before. -/
inductive WindowStart (encoding : String) (data : Bytes) (maxBytes : ℤ) (start : ℕ) : ℕ → Prop
  | start : WindowStart encoding data maxBytes start start
  | next {x y} (hx : WindowStart encoding data maxBytes start x)
    (h : LastCut encoding data maxBytes x y) : WindowStart encoding data maxBytes start y

/-- Nothing but blank lines is complete after `x`. -/
def Silent (encoding : String) (data : Bytes) (x : ℕ) : Prop :=
  ∀ z, Boundary encoding data z → linesBetween encoding data x z = []

/-- No window is all blank lines while another line follows it. -/
def NoBlankWindow (encoding : String) (data : Bytes) (start : ℕ) (maxBytes : ℤ) : Prop :=
  ∀ x y, WindowStart encoding data maxBytes start x → LastCut encoding data maxBytes x y →
    linesBetween encoding data x y = [] → Silent encoding data y

variable {x y z : ℕ}

/-- The lines up to a boundary are among those up to a later one. -/
lemma linesBetween_nil (hsup : Supported encoding) (hx : Boundary encoding data x)
    (hy : Boundary encoding data y) (hxy : x ≤ y) (hyz : y ≤ z)
    (h : linesBetween encoding data x z = []) :
    linesBetween encoding data x y = [] ∧ linesBetween encoding data y z = [] := by
  rw [linesBetween_trans hsup hx hy hxy hyz] at h
  exact List.append_eq_nil_iff.mp h

lemma Silent.of_le (hsup : Supported encoding) (hx : Boundary encoding data x)
    (hy : Boundary encoding data y) (hxy : x ≤ y) (h : Silent encoding data x) :
    Silent encoding data y := by
  intro z hz
  rcases Nat.le_total z y with hzy | hyz
  · exact linesBetween_of_le hzy
  · exact (linesBetween_nil hsup hx hy hxy hyz (h z hz)).2

/-- What a drain reads next is its last cut. -/
lemma lastCut_of_canRead (hsup : Supported encoding) (hmax : 0 ≤ maxBytes)
    (hsize : maxBytes ≤ maxLength) (hx : Boundary encoding data x)
    (h : CanRead encoding maxBytes data x y)
    (hlast : ∀ e, CanRead encoding maxBytes data x e → e ≤ y) :
    LastCut encoding data maxBytes x y := by
  have hwin : ∀ e, InWindow maxBytes x e → (e : ℤ) ≤ x + maxBytes := by
    intro e he
    unfold InWindow at he
    omega
  refine ⟨h.lt, h.boundary, hwin y h.inWindow, fun z hz hle => ?_⟩
  by_contra hlt
  have hyz : y ≤ z := by omega
  -- a later boundary would have the same lines before it
  refine hlt (hlast z ⟨h.lt.trans_le hyz, hz, .inr ⟨hsize, hle⟩, fun hnil => h.lines ?_⟩)
  exact (linesBetween_nil hsup hx h.boundary h.lt.le hyz hnil).1

/-- A window with lines in it can be read up to its last cut. -/
lemma LastCut.canRead (h : LastCut encoding data maxBytes x y) (hsize : maxBytes ≤ maxLength)
    (hlines : linesBetween encoding data x y ≠ []) : CanRead encoding maxBytes data x y :=
  ⟨h.lt, h.boundary, .inr ⟨hsize, h.inWindow⟩, hlines⟩

/-- A boundary in the window makes for a last one. -/
lemma exists_lastCut (hlt : x < z) (hz : Boundary encoding data z)
    (hle : (z : ℤ) ≤ x + maxBytes) : ∃ y, LastCut encoding data maxBytes x y := by
  let P := fun e : ℕ => Boundary encoding data e ∧ (e : ℤ) ≤ x + maxBytes
  have hP : P (Nat.findGreatest P data.length) := Nat.findGreatest_spec hz.1 ⟨hz, hle⟩
  refine ⟨Nat.findGreatest P data.length, ?_, hP.1, hP.2, fun e he hwin => ?_⟩
  · exact hlt.trans_le (Nat.le_findGreatest hz.1 ⟨hz, hle⟩)
  · exact Nat.le_findGreatest he.1 ⟨he, hwin⟩

/-- Before a later boundary there is a line. -/
lemma exists_line (hx : Boundary encoding data x) (hz : Boundary encoding data z) (hlt : x < z) :
    ∃ y, Line encoding data x y ∧ y ≤ z := by
  have hex : ∃ y, x < y ∧ Boundary encoding data y := ⟨z, hlt, hz⟩
  obtain ⟨hlt', hy⟩ := Nat.find_spec hex
  refine ⟨Nat.find hex, ⟨hlt', hx, hy, fun e he => ?_⟩, Nat.find_min' hex ⟨hlt, hz⟩⟩
  rcases Nat.lt_or_ge x e with hxe | hle
  · exact .inr (Nat.find_min' hex ⟨hxe, he⟩)
  · exact .inl hle

/-- Where every line fits, there is a last cut wherever a boundary follows. -/
lemma LinesFit.lastCut (hfit : LinesFit encoding data start maxBytes) (hsx : start ≤ x)
    (hx : Boundary encoding data x) (hz : Boundary encoding data z) (hlt : x < z) :
    ∃ y, LastCut encoding data maxBytes x y := by
  obtain ⟨y, hline, -⟩ := exists_line hx hz hlt
  exact exists_lastCut hline.lt hline.ends (hfit x y hsx hline)

section Read

variable (hsup : Supported encoding) (hmax : 0 ≤ maxBytes) (hsize : maxBytes ≤ maxLength)
include hsup hmax hsize

/-- A drain stops where no read can end, and moves by last cuts until then. -/
lemma reading_stops {start₀ : ℕ}
    (h : Reading encoding maxBytes data (fun _ => some data) start chunks)
    (hs : Boundary encoding data start)
    (hw : WindowStart encoding data maxBytes start₀ start) :
    WindowStart encoding data maxBytes start₀ (lastOffset start chunks) ∧
      ∀ z, ¬ CanRead encoding maxBytes data (lastOffset start chunks) z := by
  induction h with
  | nil hstop =>
    rcases hstop with hnone | hstop
    · cases hnone
    · exact ⟨hw, hstop⟩
  | cons hread _ hlast _ ih =>
    exact ih hread.boundary (hw.next (lastCut_of_canRead hsup hmax hsize hs hread hlast))

/-- Every window start is one the drain came to, or lies past its end. -/
lemma windowStart_reached (h : Reading encoding maxBytes data (fun _ => some data) start chunks)
    (hs : Boundary encoding data start) (hx : WindowStart encoding data maxBytes start x) :
    Boundary encoding data x ∧ (lastOffset start chunks ≤ x ∨
      ∃ rest, Reading encoding maxBytes data (fun _ => some data) x rest ∧
        lastOffset x rest = lastOffset start chunks) := by
  induction hx with
  | start => exact ⟨hs, .inr ⟨chunks, h, rfl⟩⟩
  | @next x y _ hcut ih =>
    obtain ⟨hb, hpast | ⟨rest, hrest, hend⟩⟩ := ih
    · exact ⟨hcut.boundary, .inl (hpast.trans hcut.lt.le)⟩
    refine ⟨hcut.boundary, ?_⟩
    cases hrest with
    | nil => exact .inl (hend.symm.trans_le hcut.lt.le)
    | @cons _ chunk rest hread _ hlast hrest =>
      -- the read ends at the last cut, since all lines up to it are up to the cut too
      have hle : chunk.newOffset ≤ y :=
        (lastCut_of_canRead hsup hmax hsize hb hread hlast).inWindow |> hcut.last _ hread.boundary
      have hge : y ≤ chunk.newOffset := by
        refine hlast y (hcut.canRead hsize fun hnil => hread.lines ?_)
        exact (linesBetween_nil hsup hb hread.boundary hread.lt.le hle hnil).1
      obtain rfl := le_antisymm hle hge
      exact .inr ⟨rest, hrest, hend⟩

/-- A drain has come to the end of the lines exactly if no window on its way is blank. -/
theorem silent_iff (hfit : LinesFit encoding data start maxBytes)
    (h : Reading encoding maxBytes data (fun _ => some data) start chunks)
    (hs : Boundary encoding data start) :
    Silent encoding data (lastOffset start chunks) ↔
      NoBlankWindow encoding data start maxBytes := by
  obtain ⟨hw, hstop⟩ := reading_stops hsup hmax hsize h hs .start
  have hend := (windowStart_reached hsup hmax hsize h hs hw).1
  have hle := (reading_lines hsup hs h).1
  constructor
  · intro hsilent x y hx hcut hblank
    obtain ⟨hb, hpast | ⟨rest, hrest, heq⟩⟩ := windowStart_reached hsup hmax hsize h hs hx
    · exact hsilent.of_le hsup hend hcut.boundary (hpast.trans hcut.lt.le)
    cases hrest with
    | nil => exact hsilent.of_le hsup hend hcut.boundary (heq.symm.trans_le hcut.lt.le)
    | @cons _ chunk _ hread _ hlast _ =>
      have hcut' := lastCut_of_canRead hsup hmax hsize hb hread hlast
      have hle := hcut.last _ hread.boundary hcut'.inWindow
      exact absurd (linesBetween_nil hsup hb hread.boundary hread.lt.le hle hblank).1 hread.lines
  · intro hno z hz
    rcases Nat.lt_or_ge (lastOffset start chunks) z with hlt | hzle
    swap
    · exact linesBetween_of_le hzle
    obtain ⟨y, hcut⟩ := hfit.lastCut hle hend hz hlt
    have hblank : linesBetween encoding data (lastOffset start chunks) y = [] := by
      by_contra hlines
      exact hstop y (hcut.canRead hsize hlines)
    have hsilent := hno _ y hw hcut hblank
    rcases Nat.le_total z y with hzy | hyz
    · exact (linesBetween_nil hsup hend hz hlt.le hzy hblank).1
    · rw [linesBetween_trans hsup hend hcut.boundary hcut.lt.le hyz, hblank, hsilent z hz]
      rfl

end Read

/-- What one read gives whose window holds the rest of the file. -/
lemma whole_lines (hsup : Supported encoding) (hs : Boundary encoding data start)
    (hcover : (data.length : ℤ) ≤ start + maxBytes) (hsize : maxBytes ≤ maxLength)
    (h : tailFile codecs (some data) start encoding maxBytes = .ok chunk)
    (hx : Boundary encoding data x) (hsx : start ≤ x) :
    linesBetween encoding data start x = chunk.lines ↔ Silent encoding data x := by
  have hread : ∀ z, Boundary encoding data z → linesBetween encoding data start z ≠ [] →
      CanRead encoding maxBytes data start z := by
    intro z hz hlines
    refine ⟨?_, hz, .inr ⟨hsize, ?_⟩, hlines⟩
    · by_contra hle
      exact hlines (linesBetween_of_le (by omega))
    · have := hz.1
      omega
  rcases tailFile_read hsup hs h with ⟨hnil, hno⟩ | ⟨hr, heq, hlast⟩
  · have hall : Silent encoding data start := fun z hz => by
      by_contra hlines
      exact hno z (hread z hz hlines)
    rw [hnil]
    exact ⟨fun _ => hall.of_le hsup hs hx hsx, fun _ => hall x hx⟩
  -- no boundary lies after the read, since it would have lines before it
  have hmost : ∀ z, Boundary encoding data z → z ≤ chunk.newOffset := by
    intro z hz
    by_contra hlt
    refine hlt (hlast z (hread z hz fun hnil => hr.lines ?_))
    exact (linesBetween_nil hsup hs hr.boundary hr.lt.le (by omega) hnil).1
  have hxe := hmost x hx
  rw [heq, linesBetween_trans hsup hs hx hsx hxe]
  constructor
  · intro hnil z hz
    have hrest : linesBetween encoding data x chunk.newOffset = [] := by simpa using hnil
    rcases Nat.le_total z x with hzx | hxz
    · exact linesBetween_of_le hzx
    · exact (linesBetween_nil hsup hx hz hxz (hmost z hz) hrest).1
  · intro hsilent
    rw [hsilent _ hr.boundary, List.append_nil]

/-- **When a drain agrees with one large read**: if the lines fit, exactly when `f.read` takes the
window, and no window is all blank lines with another line after it. -/
theorem drain_agrees_iff (codecs : CodecRegistry) (data : Bytes) {encoding : String} {start : ℕ}
    {maxBytes whole : ℤ} (hsup : Supported encoding) (hs : Boundary encoding data start)
    (hmax : 0 ≤ maxBytes) (hfit : LinesFit encoding data start maxBytes)
    (hwhole : (data.length : ℤ) ≤ start + whole) (hsize : whole ≤ maxLength) :
    ∃ r chunk, Drains codecs (fun _ => some data) encoding maxBytes start r ∧
      tailFile codecs (some data) start encoding whole = .ok chunk ∧
      ((∃ chunks, r = .ok chunks ∧ chunks.flatMap (·.lines) = chunk.lines) ↔
        maxBytes ≤ maxLength ∧ NoBlankWindow encoding data start maxBytes) := by
  have hc : Static (fun _ => some data) data := fun _ => .inl rfl
  have hpos : 0 ≤ whole := by
    have := hs.1
    omega
  obtain ⟨chunk, hchunk⟩ := tailFile_ok codecs hsup ⟨by omega, hsize⟩ (some data) start
  by_cases htaken : maxBytes ≤ maxLength
  · obtain ⟨chunks, hdrain, hdrains⟩ := drains_ok codecs hsup hmax htaken hc hs
    have hreading := drainFile_reading hsup hc hs hdrain
    obtain ⟨hle, hlines⟩ := reading_lines hsup hs hreading
    have hend := lastOffset_boundary hs fun c hc' => ((drainFile_ends hc hs hdrain).2 c hc').2
    have hagree : chunks.flatMap (·.lines) = chunk.lines ↔
        NoBlankWindow encoding data start maxBytes := by
      rw [hlines, whole_lines hsup hs hwhole hsize hchunk hend hle]
      exact silent_iff hsup hmax htaken hfit hreading hs
    refine ⟨_, chunk, hdrains, hchunk, ?_, fun h => ⟨chunks, rfl, hagree.mpr h.2⟩⟩
    rintro ⟨chunks', hok, hsame⟩
    obtain rfl := Except.ok.inj hok
    exact ⟨htaken, hagree.mp hsame⟩
  · obtain ⟨text, hdrains⟩ := drains_refused codecs data encoding start (not_le.mp htaken)
    refine ⟨_, chunk, hdrains, hchunk, ?_, fun h => absurd h.1 htaken⟩
    rintro ⟨chunks, hok, -⟩
    cases hok

/-- Two empty lines and a line with text. -/
def blankStart : Bytes := [0x0A, 0x0A, 0x61, 0x0A]

lemma blankStart_fits : LinesFit "utf-8" blankStart 0 2 := by
  have hcuts : ∀ n, Boundary "utf-8" blankStart n → n = 0 ∨ n = 1 ∨ n = 2 ∨ n = 4 := by
    intro n hn
    have hle : n ≤ 4 := hn.1
    have h3 : n ≠ 3 := by
      rintro rfl
      exact absurd hn (by decide)
    omega
  intro x y _ h
  have h1 := h.next 1 (by decide)
  have h2 := h.next 2 (by decide)
  have hlt := h.lt
  rcases hcuts x h.starts with rfl | rfl | rfl | rfl <;>
    rcases hcuts y h.ends with rfl | rfl | rfl | rfl <;> omega

theorem drain_agrees_blankStart : ∃ r chunk,
    Drains (fun _ => none) (fun _ => some blankStart) "utf-8" 2 0 r ∧
      tailFile (fun _ => none) (some blankStart) 0 "utf-8" 4 = .ok chunk ∧
      ((∃ chunks, r = .ok chunks ∧ chunks.flatMap (·.lines) = chunk.lines) ↔
        2 ≤ maxLength ∧ NoBlankWindow "utf-8" blankStart 0 2) :=
  drain_agrees_iff _ blankStart (by decide) (cutAt_zero _ _) (by decide) blankStart_fits (by decide)
    (by decide)

/-- The first window holds the two empty lines and nothing else: the drain ends there, and the
line after them is never read. -/
theorem blank_window_ends_drain : LinesFit "utf-8" blankStart 0 2 ∧
    Drains (fun _ => none) (fun _ => some blankStart) "utf-8" 2 0 (.ok []) ∧
    tailFile (fun _ => none) (some blankStart) 0 "utf-8" 4 = .ok ⟨["a"], 4⟩ := by
  refine ⟨blankStart_fits, ?_, by decide +kernel⟩
  have hdrain : drainFile (fun _ => none) (fun _ => some blankStart) 0 "utf-8" 2 = .ok [] := by
    decide +kernel
  exact hdrain ▸ drains_drainFile (fun _ => .inl rfl) (cutAt_zero _ _)

end MongoSyncAgent.WindowSizes
