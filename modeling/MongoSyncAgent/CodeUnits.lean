import MongoSyncAgent.WindowSizes

/-!
Files in UTF-16, under every name that Python knows for it.

A name is of two-byte units here by what it decodes to, not by how it is spelled. The tailer goes
by the spelling: under the two names of its table it keeps to whole units, and under every other
one it searches for a line feed byte, which is one half of a unit.
-/

namespace MongoSyncAgent.CodeUnits

open MongoSyncAgent.Codecs MongoSyncAgent.Text MongoSyncAgent.Tailer MongoSyncAgent.Lines
open MongoSyncAgent.Streaming MongoSyncAgent.Records MongoSyncAgent.Py MongoSyncAgent.Drain
open MongoSyncAgent.Windows MongoSyncAgent.WindowSizes

/-! ### Encoding -/

/-- The bytes of a unit in file order. -/
def unitBytes (little : Bool) (u : ℕ) : Bytes :=
  if little then [UInt8.ofNat (u % 256), UInt8.ofNat (u / 256)]
  else [UInt8.ofNat (u / 256), UInt8.ofNat (u % 256)]

/-- The units of a character: one, or a high and a low surrogate. -/
def charUnits (c : Char) : List ℕ :=
  if c.toNat < 0x10000 then [c.toNat]
  else [0xD800 + (c.toNat - 0x10000) / 1024, 0xDC00 + (c.toNat - 0x10000) % 1024]

def encode16 (little : Bool) (text : List Char) : Bytes :=
  text.flatMap fun c => (charUnits c).flatMap (unitBytes little)

/-- The codecs of two-byte units: `utf-16-le`, `utf-16-be` and `utf-16`. -/
inductive Codec16
  | le | be | bom

def Codec16.decode : Codec16 → Bytes → List Char
  | .le => (utf16 true).run
  | .be => (utf16 false).run
  | .bom => utf16Bom

/-- What a file in a codec starts with, and the byte order after that. -/
inductive Header : Codec16 → Bytes → Bool → Prop
  | le : Header .le [] true
  | be : Header .be [] false
  | bomLittle : Header .bom [0xFF, 0xFE] true
  | bomBig : Header .bom [0xFE, 0xFF] false

lemma char_valid (c : Char) : c.toNat < 0xD800 ∨ 0xDFFF < c.toNat ∧ c.toNat < 0x110000 := c.valid

lemma unit_unitBytes (little : Bool) {u : ℕ} (hu : u < 0x10000) :
    ∃ a b, unitBytes little u = [a, b] ∧ unit little a b = u := by
  have hlo : (UInt8.ofNat (u % 256)).toNat = u % 256 := by
    rw [UInt8.toNat_ofNat']
    omega
  have hhi : (UInt8.ofNat (u / 256)).toNat = u / 256 := by
    rw [UInt8.toNat_ofNat']
    omega
  cases little with
  | true =>
    refine ⟨_, _, rfl, ?_⟩
    simp only [unit, if_true, hlo, hhi]
    omega
  | false =>
    refine ⟨_, _, rfl, ?_⟩
    simp only [unit, Bool.false_eq_true, if_false, hlo, hhi]
    omega

/-- Reading a character from between two characters gives it, and ends between two. -/
lemma read_char (little : Bool) (c : Char) :
    (utf16 little).state .idle ((charUnits c).flatMap (unitBytes little)) = .idle ∧
      (utf16 little).emitted .idle ((charUnits c).flatMap (unitBytes little)) = [c] := by
  have hvalid := char_valid c
  unfold charUnits
  split_ifs with hc
  · obtain ⟨a, b, hab, hunit⟩ := unit_unitBytes little hc
    have hfirst : utf16First c.toNat = (.idle, [c]) := by
      rw [utf16First, if_neg (by omega), if_neg (by omega), Char.ofNat_toNat]
    rw [List.flatMap_cons, List.flatMap_nil, List.append_nil, hab]
    simp [Transducer.state, Transducer.emitted, utf16, utf16Step, hunit, hfirst]
  · obtain ⟨a, b, hab, hhigh⟩ := unit_unitBytes little
      (u := 0xD800 + (c.toNat - 0x10000) / 1024) (by omega)
    obtain ⟨a', b', hab', hlow⟩ := unit_unitBytes little
      (u := 0xDC00 + (c.toNat - 0x10000) % 1024) (by omega)
    have hfirst : utf16First (0xD800 + (c.toNat - 0x10000) / 1024) =
        (.high (0xD800 + (c.toNat - 0x10000) / 1024), []) := by
      rw [utf16First, if_pos (by omega)]
    have hnat : 0x10000 + (0xD800 + (c.toNat - 0x10000) / 1024 - 0xD800) * 1024 +
        (0xDC00 + (c.toNat - 0x10000) % 1024 - 0xDC00) = c.toNat := by omega
    have hchar : Char.ofNat (0x10000 + (0xD800 + (c.toNat - 0x10000) / 1024 - 0xD800) * 1024 +
        (0xDC00 + (c.toNat - 0x10000) % 1024 - 0xDC00)) = c := by rw [hnat, Char.ofNat_toNat]
    rw [List.flatMap_cons, List.flatMap_cons, List.flatMap_nil, List.append_nil, hab, hab']
    have hrange : 0xDC00 ≤ 0xDC00 + (c.toNat - 0x10000) % 1024 ∧
        0xDC00 + (c.toNat - 0x10000) % 1024 < 0xE000 := by omega
    simp only [Transducer.state, Transducer.emitted, utf16, utf16Step, List.cons_append,
      List.nil_append, List.foldl_cons, List.foldl_nil, hhigh, hfirst, hlow, if_pos hrange, hchar,
      List.append_nil, and_self]

/-- **Encoding and decoding** in one byte order gives the text back. -/
theorem decode_encode16 (little : Bool) (text : List Char) :
    (utf16 little).run (encode16 little text) = text := by
  induction text with
  | nil => exact Transducer.run_nil _
  | cons c text ih =>
    obtain ⟨hstate, hemitted⟩ := read_char little c
    rw [encode16, List.flatMap_cons, ← encode16, Transducer.run_append _ hstate, ih,
      Transducer.run, Transducer.runFrom_eq]
    have hflush : (utf16 little).flush ((utf16 little).state .idle
        ((charUnits c).flatMap (unitBytes little))) = [] := by
      rw [hstate]
      rfl
    show (utf16 little).emitted .idle _ ++ (utf16 little).flush ((utf16 little).state .idle _) ++
      text = _
    rw [hflush, hemitted]
    rfl

lemma encode16_append (little : Bool) (a b : List Char) :
    encode16 little (a ++ b) = encode16 little a ++ encode16 little b := List.flatMap_append

lemma encode16_length (little : Bool) (text : List Char) :
    (encode16 little text).length % 2 = 0 := by
  have hunit : ∀ u, (unitBytes little u).length = 2 := by
    intro u
    unfold unitBytes
    split_ifs <;> rfl
  induction text with
  | nil => rfl
  | cons c text ih =>
    rw [encode16, List.flatMap_cons, List.length_append, ← encode16]
    have hchar : ((charUnits c).flatMap (unitBytes little)).length % 2 = 0 := by
      unfold charUnits
      split_ifs <;> simp [hunit]
    omega

/-- A file in a codec decodes to its text. -/
theorem decode_file {k : Codec16} {header : Bytes} {little : Bool} (h : Header k header little)
    (text : List Char) : k.decode (header ++ encode16 little text) = text := by
  cases h <;> exact decode_encode16 _ text

/-! ### Names of two-byte units -/

/-- What Python decodes with, under a name. -/
def codecOf (codecs : CodecRegistry) (encoding : String) : Option (Bytes → List Char) :=
  (decoder (normalise encoding)).orElse fun _ => codecs encoding

/-- A start of a line: that of the file, or just after a line feed of the text. -/
def LineStart (header : Bytes) (little : Bool) (text : List Char) (start : ℕ) : Prop :=
  start = 0 ∨ ∃ a b, text = a ++ '\n' :: b ∧
    start = (header ++ encode16 little (a ++ ['\n'])).length

/-- Under the name, every call on every file of the codec stays between units, and a drain gives
lines of the text. -/
def KeepsUnits (codecs : CodecRegistry) (encoding : String) (k : Codec16) : Prop :=
  ∀ header little text start (maxBytes : ℤ), Header k header little →
    LineStart header little text start →
      (∀ chunk, tailFile codecs (some (header ++ encode16 little text)) start encoding maxBytes =
        .ok chunk → chunk.newOffset % 2 = 0) ∧
      ∀ chunks, Drains codecs (fun _ => some (header ++ encode16 little text)) encoding maxBytes
        start (.ok chunks) → ∀ chunk ∈ chunks, ∀ line ∈ chunk.lines, line ∈ textLines text

variable {codecs : CodecRegistry} {encoding : String} {k : Codec16}

lemma decode_codec {f : Bytes → List Char} (h : codecOf codecs encoding = some f) (bs : Bytes) :
    decode codecs encoding bs = .ok (f bs) := by
  unfold codecOf at h
  rw [decode, h]

/-! ### Under the names of the table -/

lemma twoByte_name (h : twoByte encoding = true) :
    normalise encoding = "utf-16-le" ∨ normalise encoding = "utf-16le" := by
  simpa [twoByte, twoByteEncodings] using h

lemma twoByte_decoder (h : twoByte encoding = true) :
    decoder (normalise encoding) = some (utf16 true).run := by
  rcases twoByte_name h with hn | hn <;> rw [hn] <;> rfl

lemma twoByte_supported (h : twoByte encoding = true) : Supported encoding := by
  unfold Supported
  rcases twoByte_name h with hn | hn <;> rw [hn] <;> decide

/-- The decoder tells the codecs apart. -/
lemma codec_le (h : k.decode = (utf16 true).run) : k = .le := by
  cases k with
  | le => rfl
  | be =>
    exact absurd (congrFun h [0x61, 0x00]) (by decide +kernel)
  | bom =>
    exact absurd (congrFun h [0xFF, 0xFE]) (by decide +kernel)

lemma lineStart_boundary (h2 : twoByte encoding = true) {text : List Char} {start : ℕ}
    (h : LineStart [] true text start) : Boundary encoding (encode16 true text) start := by
  rcases h with rfl | ⟨a, b, rfl, rfl⟩
  · exact cutAt_zero _ _
  have hsplit : encode16 true (a ++ '\n' :: b) =
      encode16 true (a ++ ['\n']) ++ encode16 true b := by
    rw [← encode16_append, List.append_assoc]
    rfl
  have hpattern : newlinePattern encoding = [0x0A, 0x00] := by
    rcases pattern_cases encoding with ⟨-, hp⟩ | ⟨hno, -⟩
    · exact hp
    · rw [h2] at hno
      cases hno
  rw [List.nil_append, hsplit]
  refine ⟨by rw [List.length_append]; exact Nat.le_add_right _ _, .inr ?_⟩
  rw [List.take_left, hpattern]
  refine ⟨?_, fun _ => encode16_length _ _⟩
  rw [encode16_append]
  exact List.suffix_append _ _

/-- The lines between two boundaries are lines of the file. -/
lemma linesBetween_subset {data : Bytes} {x e : ℕ} (hsup : Supported encoding)
    (hx : Boundary encoding data x) (he : Boundary encoding data e) (hle : x ≤ e) :
    linesBetween encoding data x e ⊆ nonBlankLines encoding data := by
  intro line hline
  rw [← List.take_append_drop e data, nonBlankLines_append hsup he.2, take_split hle,
    nonBlankLines_append hsup hx.2]
  exact List.mem_append_left _ (List.mem_append_right _ hline)

lemma tailFile_even {data : Bytes} {start : ℕ} {maxBytes : ℤ} {chunk : TailChunk}
    (h2 : twoByte encoding = true) (hs : Boundary encoding data start)
    (h : tailFile codecs (some data) start encoding maxBytes = .ok chunk) :
    chunk.newOffset % 2 = 0 := by
  obtain ⟨raw, hraw, ht⟩ := tailFile_cases (boundary_aligned hs) h
  rcases ht.cut (readBytes_initial hraw) with rfl | ⟨n, text, -, hle, hcut, -, rfl⟩
  · exact boundary_aligned hs h2
  · exact boundary_aligned (boundary_add hs hle hcut) h2

lemma keepsUnits_le (h2 : twoByte encoding = true) : KeepsUnits codecs encoding .le := by
  rintro header little text start maxBytes ⟨⟩ hstart
  rw [List.nil_append]
  have hsup := twoByte_supported h2
  have hb := lineStart_boundary h2 hstart
  refine ⟨fun chunk h => tailFile_even h2 hb h, fun chunks hdrains chunk hc line hline => ?_⟩
  have hstatic : Static (fun _ => some (encode16 true text)) (encode16 true text) :=
    fun _ => .inl rfl
  have hdrain := hdrains.unique (drains_drainFile hstatic hb)
  have hreading := drainFile_reading hsup hstatic hb hdrain.symm
  have hends := drainFile_ends hstatic hb hdrain.symm
  obtain ⟨hle, hlines⟩ := reading_lines hsup hb hreading
  have hend := lastOffset_boundary hb fun c hc => (hends.2 c hc).2
  have hall : line ∈ nonBlankLines encoding (encode16 true text) := by
    refine linesBetween_subset hsup hb hend hle ?_
    rw [← hlines]
    exact List.mem_flatMap.mpr ⟨chunk, hc, hline⟩
  rwa [nonBlankLines, twoByte_decoder h2, Option.getD_some, decode_encode16] at hall

/-! ### Under every other name -/

/-- One call that sees a whole file from its start, under a name that is not in the table. -/
lemma tailFile_whole {f : Bytes → List Char} {data : Bytes} {p : ℕ}
    (h2 : twoByte encoding = false) (hf : codecOf codecs encoding = some f) (hne : data ≠ [])
    (hsize : (data.length : ℤ) ≤ maxLength) (hlast : rfind [0x0A] data data.length = some p) :
    ∃ lines, tailFile codecs (some data) 0 encoding data.length = .ok ⟨lines, p + 1⟩ := by
  have hpattern : newlinePattern encoding = [0x0A] := by
    rcases pattern_cases encoding with ⟨hyes, -⟩ | ⟨-, hp⟩
    · rw [h2] at hyes
      cases hyes
    · exact hp
  refine ⟨textLines (f (data.take (p + 1))), ?_⟩
  simp only [tailFile, h2, hpattern, lastNewline, decode_codec hf]
  simp [readBytes_whole hsize, hne, bind, Except.bind, pure, Except.pure, hlast]

/-- In each codec there is a file whose last line feed byte is not the last half of a line
feed. -/
lemma exists_odd (k : Codec16) : ∃ header little text p, Header k header little ∧
    ((header ++ encode16 little text).length : ℤ) ≤ maxLength ∧
    rfind [0x0A] (header ++ encode16 little text) (header ++ encode16 little text).length =
      some p ∧ p % 2 = 0 := by
  cases k with
  | le => exact ⟨[], true, ['a', '\n'], 2, .le, by decide +kernel, by decide +kernel, rfl⟩
  | be =>
    exact ⟨[], false, [Char.ofNat 0x0A41], 0, .be, by decide +kernel, by decide +kernel, rfl⟩
  | bom =>
    exact ⟨[0xFF, 0xFE], true, ['a', '\n'], 4, .bomLittle, by decide +kernel, by decide +kernel,
      rfl⟩

/-- **When the tailer keeps to whole units**: under the names of its table only. -/
theorem keepsUnits_iff (h : codecOf codecs encoding = some k.decode) :
    KeepsUnits codecs encoding k ↔ twoByte encoding = true := by
  constructor
  · intro hkeeps
    by_contra hno
    obtain ⟨header, little, text, p, hheader, hsize, hlast, heven⟩ := exists_odd k
    have hne : header ++ encode16 little text ≠ [] := by
      intro hnil
      rw [hnil] at hlast
      cases hlast
    obtain ⟨lines, hchunk⟩ := tailFile_whole (by simpa using hno) h hne hsize hlast
    have := (hkeeps header little text 0 _ hheader (.inl rfl)).1 _ hchunk
    simp only at this
    omega
  · intro h2
    have hk : k = .le := by
      refine codec_le ?_
      rw [codecOf, twoByte_decoder h2] at h
      exact (Option.some.inj h).symm
    rw [hk]
    exact keepsUnits_le h2

theorem keepsUnits_utf16le : KeepsUnits (fun _ => none) "UTF_16_LE" .le :=
  (keepsUnits_iff (k := .le) (by rw [codecOf, twoByte_decoder (by decide)]; rfl)).mpr (by decide)

/-- `a\n` in `utf-16` and the letter U+0A41 in `utf-16-be`, both read at once: the offsets are odd,
and the first file gives a line with half a unit in it. -/
theorem byte_search_splits_units :
    codecOf (fun _ => none) "utf-16" = some Codec16.bom.decode ∧
    codecOf (fun _ => none) "utf-16-be" = some Codec16.be.decode ∧
    tailFile (fun _ => none) (some ([0xFF, 0xFE] ++ encode16 true ['a', '\n'])) 0 "utf-16" 4096 =
      .ok ⟨[String.ofList ['a', replacement]], 5⟩ ∧
    textLines ['a', '\n'] = ["a"] ∧
    (tailFile (fun _ => none) (some (encode16 false [Char.ofNat 0x0A41])) 0 "utf-16-be"
      4096).toOption.map (·.newOffset) = some 1 := by
  have hbom : decoder (normalise "utf-16") = some utf16Bom := by
    rw [show normalise "utf-16" = "utf-16" by decide +kernel]
    rfl
  have hbe : decoder (normalise "utf-16-be") = some (utf16 false).run := by
    rw [show normalise "utf-16-be" = "utf-16-be" by decide +kernel]
    rfl
  refine ⟨by rw [codecOf, hbom]; rfl, by rw [codecOf, hbe]; rfl, ?_, ?_, ?_⟩
  · decide +kernel
  · decide +kernel
  · decide +kernel

end MongoSyncAgent.CodeUnits
