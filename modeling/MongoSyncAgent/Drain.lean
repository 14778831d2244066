import MongoSyncAgent.Lines

/-!
Draining a log file: `tail_file` over and over until it has nothing more to give.

The loop ends because every turn that goes on has moved the offset forward, and never past
the end of the file.
-/

namespace MongoSyncAgent.Drain

open MongoSyncAgent.Codecs MongoSyncAgent.Text MongoSyncAgent.Tailer MongoSyncAgent.Lines
open MongoSyncAgent.Records MongoSyncAgent.Py

variable (codecs : CodecRegistry)

/-- The `while True` of `drain_file` for at most `fuel` turns, where a call of `tail_file` at an
offset finds the file as `content` has it. -/
def drainLoop (content : ℕ → Option Bytes) (encoding : String) (maxBytes : ℤ) :
    ℕ → ℕ → Except Exc (List TailChunk)
  | 0, _ => .ok []
  | fuel + 1, offset => do
    let chunk ← tailFile codecs (content offset) offset encoding maxBytes
    if chunk.lines = [] then return []
    -- no forward progress despite lines: stop rather than spin
    if chunk.newOffset = offset then return [chunk]
    return chunk :: (← drainLoop content encoding maxBytes fuel chunk.newOffset)

/-- `drain_file`, on a file that does not change meanwhile: no turn that goes on leaves the
offset where it was, so there are no more of them than bytes. -/
def drainFile (content : ℕ → Option Bytes) (start : ℕ) (encoding : String) (maxBytes : ℤ) :
    Except Exc (List TailChunk) :=
  drainLoop codecs content encoding maxBytes (((content start).getD []).length + 1) start

/-- `drain_file` ends with `r`, however many turns its loop takes. -/
def Drains (content : ℕ → Option Bytes) (encoding : String) (maxBytes : ℤ) (start : ℕ)
    (r : Except Exc (List TailChunk)) : Prop :=
  ∃ n, ∀ m, n ≤ m → drainLoop codecs content encoding maxBytes m start = r

/-! ### One call -/

/-- What `tail_file` reads in one call and makes of it: nothing where the window has no cut,
else the lines up to the last cut of the window. -/
inductive Tailed (data : Bytes) (start : ℕ) (encoding : String) (raw : Bytes) : TailChunk → Prop
  | none (hno : ∀ j, 0 < j → j ≤ raw.length → ¬ Cut encoding (raw.take j)) :
      Tailed data start encoding raw ⟨[], start⟩
  | lines {k text} (hpos : 0 < k) (hle : k ≤ raw.length) (hcut : Cut encoding (raw.take k))
      (hlast : ∀ j, k < j → j ≤ raw.length → ¬ Cut encoding (raw.take j))
      (htext : decode codecs encoding (raw.take k) = .ok text) :
      Tailed data start encoding raw ⟨textLines text, start + k⟩

variable {codecs}

lemma readBytes_initial {rest raw : Bytes} {n : ℤ} (h : readBytes rest n = .ok raw) :
    raw <+: rest := by
  rcases readBytes_ok h with ⟨-, rfl⟩ | ⟨-, -, rfl⟩
  · exact List.prefix_rfl
  · exact List.take_prefix _ _

/-- The start is one a two-byte encoding may have. -/
def Aligned (encoding : String) (start : ℕ) : Prop := twoByte encoding → start % 2 = 0

theorem tailFile_cases {data : Bytes} {start : ℕ} {encoding : String} {maxBytes : ℤ}
    {chunk : TailChunk} (ha : Aligned encoding start)
    (h : tailFile codecs (some data) start encoding maxBytes = .ok chunk) :
    ∃ raw, readBytes (data.drop start) maxBytes = .ok raw ∧
      Tailed codecs data start encoding raw chunk := by
  have hstart : (if twoByte encoding ∧ start % 2 ≠ 0 then start + 1 else start) = start :=
    if_neg fun hc => hc.2 (ha hc.1)
  simp only [tailFile, hstart] at h
  obtain ⟨raw, hraw, h⟩ := bind_ok h
  refine ⟨raw, hraw, ?_⟩
  obtain ⟨hsome, hnone⟩ := lastNewline_spec encoding raw
  by_cases hempty : raw = []
  · rw [if_pos hempty] at h
    obtain rfl := Except.ok.inj h
    exact .none fun j hj hle => by simp [hempty] at hle; omega
  rw [if_neg hempty] at h
  rcases hp : lastNewline encoding raw with _ | p
  · simp only [hp] at h
    obtain rfl := Except.ok.inj h
    exact .none (hnone hp)
  · obtain ⟨hle, hcut, hlast⟩ := hsome p hp
    have hpos := pattern_length_pos encoding
    -- an aligned start and an aligned cut leave nothing for the odd branch
    have heven : ¬ (twoByte encoding = true ∧
        (start + (p + (newlinePattern encoding).length)) % 2 ≠ 0) := by
      rintro ⟨h2, hodd⟩
      have h1 := ha h2
      have h3 := hcut.even h2
      rw [List.length_take, Nat.min_eq_left hle] at h3
      omega
    simp only [hp] at h
    rw [if_neg heven] at h
    obtain ⟨text, htext, h⟩ := bind_ok h
    obtain rfl := Except.ok.inj h
    exact .lines (by omega) hle hcut hlast htext

/-- A chunk stays put or ends at a cut of what follows the start. -/
lemma Tailed.cut {data : Bytes} {start : ℕ} {encoding : String} {raw : Bytes}
    {chunk : TailChunk} (hraw : raw <+: data.drop start)
    (h : Tailed codecs data start encoding raw chunk) :
    chunk = ⟨[], start⟩ ∨ ∃ k text, 0 < k ∧ start + k ≤ data.length ∧
      Cut encoding ((data.drop start).take k) ∧
      decode codecs encoding ((data.drop start).take k) = .ok text ∧
      chunk = ⟨textLines text, start + k⟩ := by
  cases h with
  | none => exact .inl rfl
  | @lines k text hpos hle hcut hlast htext =>
    have htake : raw.take k = (data.drop start).take k := (take_mono hraw hle).symm
    have hlen := hraw.length_le
    rw [List.length_drop] at hlen
    exact .inr ⟨k, text, hpos, by omega, htake ▸ hcut, htake ▸ htext, rfl⟩

/-! ### Cuts as positions -/

lemma boundary_aligned {encoding : String} {data : Bytes} {n : ℕ}
    (h : Boundary encoding data n) : Aligned encoding n := by
  intro h2
  have := Cut.even h.2 h2
  rwa [List.length_take, Nat.min_eq_left h.1] at this

lemma boundary_add {encoding : String} {data : Bytes} {s k : ℕ} (hs : Boundary encoding data s)
    (hle : s + k ≤ data.length) (hk : Cut encoding ((data.drop s).take k)) :
    Boundary encoding data (s + k) :=
  (cutAt_add _ hs).mpr ⟨by rw [List.length_drop]; omega, hk⟩

/-- A turn of the loop that goes on moves forward, from one boundary to another. -/
lemma tailFile_boundary {data : Bytes} {start : ℕ} {encoding : String} {maxBytes : ℤ}
    {chunk : TailChunk} (hs : Boundary encoding data start)
    (h : tailFile codecs (some data) start encoding maxBytes = .ok chunk)
    (hlines : chunk.lines ≠ []) :
    start < chunk.newOffset ∧ Boundary encoding data chunk.newOffset := by
  obtain ⟨raw, hraw, ht⟩ := tailFile_cases (boundary_aligned hs) h
  rcases ht.cut (readBytes_initial hraw) with rfl | ⟨k, text, hpos, hle, hcut, -, rfl⟩
  · exact absurd rfl hlines
  · exact ⟨by simpa using hpos, boundary_add hs hle hcut⟩

/-! ### The loop -/

/-- Every call that can read the file finds the same content. -/
def Static (content : ℕ → Option Bytes) (data : Bytes) : Prop :=
  ∀ o, content o = some data ∨ content o = none

variable {content : ℕ → Option Bytes} {data : Bytes} {encoding : String} {maxBytes : ℤ}
  {fuel start : ℕ} {chunk : TailChunk} {chunks : List TailChunk}

lemma tailFile_none : tailFile codecs none start encoding maxBytes =
    .ok ⟨[], if twoByte encoding ∧ start % 2 ≠ 0 then start + 1 else start⟩ := rfl

lemma drainLoop_none (h : content start = none) :
    drainLoop codecs content encoding maxBytes fuel start = .ok [] := by
  cases fuel with
  | zero => rfl
  | succ fuel =>
    rw [drainLoop, h, tailFile_none]
    rfl

/-- A turn of the loop that goes on has read the file. -/
lemma Static.read (hc : Static content data)
    (h : tailFile codecs (content start) start encoding maxBytes = .ok chunk)
    (hlines : chunk.lines ≠ []) :
    tailFile codecs (some data) start encoding maxBytes = .ok chunk := by
  rcases hc start with hs | hs
  · rwa [hs] at h
  · rw [hs, tailFile_none] at h
    obtain rfl := Except.ok.inj h
    exact absurd rfl hlines

/-- **The loop ends**: with fuel for the bytes that are left, more fuel changes nothing. -/
theorem drainLoop_fuel {fuel' : ℕ} (hc : Static content data)
    (hs : Boundary encoding data start) (hfuel : data.length - start < fuel)
    (hfuel' : data.length - start < fuel') :
    drainLoop codecs content encoding maxBytes fuel start =
      drainLoop codecs content encoding maxBytes fuel' start := by
  induction fuel generalizing start fuel' with
  | zero => omega
  | succ fuel ih =>
    obtain ⟨fuel', rfl⟩ : ∃ n, fuel' = n + 1 := ⟨fuel' - 1, by omega⟩
    rw [drainLoop, drainLoop]
    rcases h : tailFile codecs (content start) start encoding maxBytes with e | chunk
    · rfl
    · simp only [bind, Except.bind]
      by_cases hlines : chunk.lines = []
      · simp [hlines]
      · obtain ⟨hlt, hb⟩ := tailFile_boundary hs (hc.read h hlines) hlines
        have := hb.1
        have heq : drainLoop codecs content encoding maxBytes fuel chunk.newOffset =
            drainLoop codecs content encoding maxBytes fuel' chunk.newOffset :=
          ih hb (by omega) (by omega)
        rw [heq]

/-- `drain_file` is the loop: one call, and a drain from where the call ended. -/
theorem drainFile_eq (hc : Static content data) (hs : Boundary encoding data start) :
    drainFile codecs content start encoding maxBytes = (do
      let chunk ← tailFile codecs (content start) start encoding maxBytes
      if chunk.lines = [] then return []
      return chunk :: (← drainFile codecs content chunk.newOffset encoding maxBytes)) := by
  rcases hstart : content start with _ | d
  · rw [drainFile, drainLoop_none hstart, tailFile_none]
    rfl
  obtain rfl : d = data := by
    rcases hc start with h | h <;> rw [hstart] at h
    · exact Option.some.inj h
    · cases h
  rw [drainFile, drainLoop, hstart]
  rcases h : tailFile codecs (some d) start encoding maxBytes with e | chunk
  · rfl
  · simp only [bind, Except.bind]
    by_cases hlines : chunk.lines = []
    · simp [hlines]
    · obtain ⟨hlt, hb⟩ := tailFile_boundary hs h hlines
      have hle := hb.1
      rw [if_neg hlines, if_neg hlines, if_neg (by omega), drainFile]
      rcases hc chunk.newOffset with hn | hn
      · have heq : drainLoop codecs content encoding maxBytes d.length chunk.newOffset =
            drainLoop codecs content encoding maxBytes (d.length + 1) chunk.newOffset :=
          drainLoop_fuel hc hb (by omega) (by omega)
        rw [hn]
        simp [heq]
      · rw [drainLoop_none hn, drainLoop_none hn]

/-- One turn: it ends the drain, or goes on from where its chunk ends. -/
lemma drainLoop_turn
    (h : drainLoop codecs content encoding maxBytes (fuel + 1) start = .ok chunks) :
    ∃ chunk, tailFile codecs (content start) start encoding maxBytes = .ok chunk ∧
      (chunk.lines = [] ∧ chunks = [] ∨ chunk.lines ≠ [] ∧ (chunk.newOffset ≠ start →
        ∃ rest, drainLoop codecs content encoding maxBytes fuel chunk.newOffset = .ok rest ∧
          chunks = chunk :: rest)) := by
  obtain ⟨chunk, hchunk, h⟩ := bind_ok h
  refine ⟨chunk, hchunk, ?_⟩
  by_cases hlines : chunk.lines = []
  · rw [if_pos hlines] at h
    exact .inl ⟨hlines, (Except.ok.inj h).symm⟩
  · refine .inr ⟨hlines, fun hmoved => ?_⟩
    rw [if_neg hlines, if_neg hmoved] at h
    obtain ⟨rest, hrest, h⟩ := bind_ok h
    exact ⟨rest, hrest, (Except.ok.inj h).symm⟩

/-- A drain ends in one way only. -/
lemma Drains.unique {r r' : Except Exc (List TailChunk)}
    (h : Drains codecs content encoding maxBytes start r)
    (h' : Drains codecs content encoding maxBytes start r') : r = r' := by
  obtain ⟨n, hn⟩ := h
  obtain ⟨n', hn'⟩ := h'
  rw [← hn (max n n') (le_max_left _ _), hn' (max n n') (le_max_right _ _)]

lemma drains_drainFile (hc : Static content data) (hs : Boundary encoding data start) :
    Drains codecs content encoding maxBytes start
      (drainFile codecs content start encoding maxBytes) := by
  refine ⟨data.length + 1, fun m hm => ?_⟩
  rw [drainFile]
  rcases hc start with hsome | hnone
  · refine drainLoop_fuel hc hs (by omega) ?_
    rw [hsome]
    show data.length - start < data.length + 1
    omega
  · rw [drainLoop_none hnone, drainLoop_none hnone]

lemma drainLoop_ends (hc : Static content data) (hs : Boundary encoding data start)
    (h : drainLoop codecs content encoding maxBytes fuel start = .ok chunks) :
    (start :: chunks.map (·.newOffset)).Pairwise (· < ·) ∧
      ∀ c ∈ chunks, c.lines ≠ [] ∧ Boundary encoding data c.newOffset := by
  induction fuel generalizing start chunks with
  | zero =>
    obtain rfl := Except.ok.inj h
    simp
  | succ fuel ih =>
    obtain ⟨chunk, hchunk, ⟨-, rfl⟩ | ⟨hlines, hgo⟩⟩ := drainLoop_turn h
    · simp
    have hread := hc.read hchunk hlines
    obtain ⟨hlt, hb⟩ := tailFile_boundary hs hread hlines
    obtain ⟨rest, hrest, rfl⟩ := hgo (by omega)
    obtain ⟨hpw, hall⟩ := ih hb hrest
    refine ⟨?_, fun c hc => ?_⟩
    · rw [List.map_cons, List.pairwise_cons]
      refine ⟨fun n hn => ?_, hpw⟩
      rcases List.mem_cons.mp hn with rfl | hn
      · exact hlt
      · exact hlt.trans ((List.pairwise_cons.mp hpw).1 n hn)
    · rcases List.mem_cons.mp hc with rfl | hc
      · exact ⟨hlines, hb⟩
      · exact hall c hc

/-- **The ends of the chunks** are increasing boundaries of the file, in every encoding. -/
theorem drainFile_ends (hc : Static content data) (hs : Boundary encoding data start)
    (h : drainFile codecs content start encoding maxBytes = .ok chunks) :
    (start :: chunks.map (·.newOffset)).Pairwise (· < ·) ∧
      ∀ c ∈ chunks, c.lines ≠ [] ∧ Boundary encoding data c.newOffset := by
  rw [drainFile] at h
  exact drainLoop_ends hc hs h

/-! ### The lines -/

lemma decode_supported {encoding : String} (hs : Supported encoding) {bs : Bytes}
    {text : List Char} (h : decode codecs encoding bs = .ok text) :
    textLines text = nonBlankLines encoding bs := by
  have hsome : (decoder (normalise encoding)).isSome := by
    simp only [Supported, newlinePatterns, List.map_cons, List.map_nil, List.mem_cons,
      List.not_mem_nil, or_false] at hs
    rcases hs with h | h | h | h | h | h | h | h <;> rw [h] <;> rfl
  obtain ⟨f, hf⟩ := Option.isSome_iff_exists.mp hsome
  rw [decode, hf] at h
  obtain rfl := Except.ok.inj h
  rw [nonBlankLines, hf]
  rfl

/-! ### A drain that goes through -/

lemma decode_ok (codecs : CodecRegistry) {encoding : String} (hs : Supported encoding)
    (bs : Bytes) : ∃ text, decode codecs encoding bs = .ok text := by
  simp only [Supported, newlinePatterns, List.map_cons, List.map_nil, List.mem_cons,
    List.not_mem_nil, or_false] at hs
  unfold decode
  rcases hs with h | h | h | h | h | h | h | h <;> rw [h] <;> exact ⟨_, rfl⟩

lemma tailFile_ok (codecs : CodecRegistry) {encoding : String} {maxBytes : ℤ}
    (hsup : Supported encoding) (hmax : ReadSize maxBytes) (content : Option Bytes)
    (start : ℕ) : ∃ chunk, tailFile codecs content start encoding maxBytes = .ok chunk := by
  unfold tailFile
  rcases content with _ | data
  · exact ⟨_, rfl⟩
  simp only
  generalize (if twoByte encoding = true ∧ start % 2 ≠ 0 then start + 1 else start) = start
  obtain ⟨raw, hraw⟩ := readBytes_of_size (data.drop start) hmax
  rw [hraw, ok_bind]
  split_ifs
  · exact ⟨_, rfl⟩
  rcases lastNewline encoding raw with _ | p
  · exact ⟨_, rfl⟩
  simp only
  split_ifs
  · exact ⟨_, rfl⟩
  obtain ⟨text, htext⟩ := decode_ok codecs hsup
    (raw.take (p + (newlinePattern encoding).length))
  rw [htext]
  exact ⟨_, rfl⟩

lemma drainFile_ok (codecs : CodecRegistry) {encoding : String} {maxBytes : ℤ}
    (hsup : Supported encoding) (hmax : ReadSize maxBytes) (content : ℕ → Option Bytes)
    (start : ℕ) : ∃ chunks, drainFile codecs content start encoding maxBytes = .ok chunks := by
  unfold drainFile
  generalize ((content start).getD []).length + 1 = fuel
  induction fuel generalizing start with
  | zero => exact ⟨[], rfl⟩
  | succ fuel ih =>
    obtain ⟨chunk, hchunk⟩ := tailFile_ok codecs hsup hmax (content start) start
    obtain ⟨rest, hrest⟩ := ih chunk.newOffset
    rw [drainLoop, hchunk, ok_bind]
    split_ifs
    · exact ⟨_, rfl⟩
    · exact ⟨_, rfl⟩
    · rw [hrest]
      exact ⟨_, rfl⟩

/-- With a window that `f.read` refuses, a drain ends at its first read. -/
lemma drainLoop_refused (codecs : CodecRegistry) (content : ℕ → Option Bytes) (encoding : String)
    (h : maxLength < maxBytes) (hstart : content start = some data) :
    ∃ text, ∀ fuel, drainLoop codecs content encoding maxBytes (fuel + 1) start =
      raise .overflowError text := by
  obtain ⟨text, hread⟩ := readBytes_refused h
  refine ⟨text, fun fuel => ?_⟩
  rw [drainLoop, hstart, tailFile]
  simp only [hread]
  rfl

end MongoSyncAgent.Drain
