import MongoSyncAgent.Py
import MongoSyncAgent.Records
import MongoSyncAgent.Streaming
import MongoSyncAgent.Text

/-!
The text codecs, decoding with `errors="replace"`: every maximal malformed piece of input
becomes one replacement character.

Each codec is a byte transducer, so that a decoder which has just read a line feed is idle,
whatever preceded it. That is all that is needed for lines to come out the same however the
bytes were cut, as long as they were cut at line feeds.
-/

namespace MongoSyncAgent.Codecs

open MongoSyncAgent.Py MongoSyncAgent.Streaming MongoSyncAgent.Text

abbrev Bytes := List UInt8

/-- U+FFFD. -/
def replacement : Char := Char.ofNat 0xFFFD

/-! ### One byte a character -/

def latin1 : Transducer Unit UInt8 Char where
  idle := ()
  step _ b := ((), [Char.ofNat b.toNat])
  flush _ := []
  flush_idle := rfl

def ascii : Transducer Unit UInt8 Char where
  idle := ()
  step _ b := ((), [if b < 0x80 then Char.ofNat b.toNat else replacement])
  flush _ := []
  flush_idle := rfl

/-! ### UTF-8 -/

/-- Between characters, or inside one: the bits so far, how many continuation bytes are
owed, and the range the next one must be in. -/
inductive Utf8State
  | idle
  | owed (bits need : ℕ) (lo hi : UInt8)

/-- The first byte of a character. -/
def utf8First (b : UInt8) : Utf8State × List Char :=
  if b < 0x80 then (.idle, [Char.ofNat b.toNat])
  else if b < 0xC2 then (.idle, [replacement])
  else if b < 0xE0 then (.owed (b.toNat % 32) 1 0x80 0xBF, [])
  else if b = 0xE0 then (.owed 0 2 0xA0 0xBF, [])
  else if b = 0xED then (.owed (b.toNat % 16) 2 0x80 0x9F, [])
  else if b < 0xF0 then (.owed (b.toNat % 16) 2 0x80 0xBF, [])
  else if b = 0xF0 then (.owed 0 3 0x90 0xBF, [])
  else if b < 0xF4 then (.owed (b.toNat % 8) 3 0x80 0xBF, [])
  else if b = 0xF4 then (.owed 4 3 0x80 0x8F, [])
  else (.idle, [replacement])

def utf8Step : Utf8State → UInt8 → Utf8State × List Char
  | .idle, b => utf8First b
  | .owed bits need lo hi, b =>
    if lo ≤ b ∧ b ≤ hi then
      let bits := bits * 64 + b.toNat % 64
      if need ≤ 1 then (.idle, [Char.ofNat bits]) else (.owed bits (need - 1) 0x80 0xBF, [])
    -- the malformed prefix is replaced as a whole and the byte starts afresh
    else ((utf8First b).1, replacement :: (utf8First b).2)

def utf8 : Transducer Utf8State UInt8 Char where
  idle := .idle
  step := utf8Step
  flush
    | .idle => []
    | .owed .. => [replacement]
  flush_idle := rfl

/-! ### UTF-16 -/

/-- Between units, inside one, after a high surrogate, or inside the unit after one. -/
inductive Utf16State
  | idle
  | half (b : UInt8)
  | high (h : ℕ)
  | highHalf (h : ℕ) (b : UInt8)

/-- The unit of two bytes in file order. -/
def unit (little : Bool) (a b : UInt8) : ℕ :=
  if little then a.toNat + 256 * b.toNat else 256 * a.toNat + b.toNat

/-- A unit where no surrogate is pending. -/
def utf16First (u : ℕ) : Utf16State × List Char :=
  if 0xD800 ≤ u ∧ u < 0xDC00 then (.high u, [])
  else if 0xDC00 ≤ u ∧ u < 0xE000 then (.idle, [replacement])
  else (.idle, [Char.ofNat u])

def utf16Step (little : Bool) : Utf16State → UInt8 → Utf16State × List Char
  | .idle, b => (.half b, [])
  | .half a, b => utf16First (unit little a b)
  | .high h, b => (.highHalf h b, [])
  | .highHalf h a, b =>
    let u := unit little a b
    if 0xDC00 ≤ u ∧ u < 0xE000 then
      (.idle, [Char.ofNat (0x10000 + (h - 0xD800) * 1024 + (u - 0xDC00))])
    else ((utf16First u).1, replacement :: (utf16First u).2)

def utf16 (little : Bool) : Transducer Utf16State UInt8 Char where
  idle := .idle
  step := utf16Step little
  flush
    | .idle => []
    | _ => [replacement]
  flush_idle := rfl

/-- `utf-16`: a byte order mark decides, and is dropped; without one the order is the
machine's, little-endian. -/
def utf16Bom : Bytes → List Char
  | 0xFF :: 0xFE :: r => (utf16 true).run r
  | 0xFE :: 0xFF :: r => (utf16 false).run r
  | bs => (utf16 true).run bs

/-! ### By name -/

/-- `_normalise`: `encoding.strip().lower().replace("_", "-")`. Letters outside ASCII stay as they
are: no name below has one, before or after `lower`. -/
def normalise (encoding : String) : String :=
  String.ofList ((strip encoding.toList).map fun c => if c = '_' then '-' else c.toLower)

/-- The decoders of the names Python knows, as far as the agent's documentation mentions
them. -/
def decoder (name : String) : Option (Bytes → List Char) :=
  if name = "utf-8" ∨ name = "utf8" then some utf8.run
  else if name = "ascii" then some ascii.run
  else if name = "latin-1" ∨ name = "latin1" ∨ name = "iso-8859-1" then some latin1.run
  else if name = "utf-16-le" ∨ name = "utf-16le" then some (utf16 true).run
  else if name = "utf-16-be" ∨ name = "utf-16be" then some (utf16 false).run
  else if name = "utf-16" ∨ name = "utf16" then some utf16Bom
  else none

/-! ### Line feeds -/

lemma latin1_feed (u : Bytes) :
    latin1.state () (u ++ [0x0A]) = () ∧
      ∃ t, latin1.emitted () (u ++ [0x0A]) = t ++ ['\n'] :=
  ⟨rfl, latin1.emitted () u, by rw [Transducer.emitted_append]; rfl⟩

lemma ascii_feed (u : Bytes) :
    ascii.state () (u ++ [0x0A]) = () ∧ ∃ t, ascii.emitted () (u ++ [0x0A]) = t ++ ['\n'] :=
  ⟨rfl, ascii.emitted () u, by rw [Transducer.emitted_append]; rfl⟩

/-- No continuation byte is a line feed, so a line feed always starts a character. -/
def Utf8State.Sound : Utf8State → Prop
  | .idle => True
  | .owed _ _ lo _ => 0x0A < lo

lemma utf8First_sound (b : UInt8) : (utf8First b).1.Sound := by
  unfold utf8First
  split_ifs <;> simp [Utf8State.Sound]

lemma utf8Step_sound {s : Utf8State} (b : UInt8) : (utf8Step s b).1.Sound := by
  cases s with
  | idle => exact utf8First_sound b
  | owed bits need lo hi =>
    simp only [utf8Step]
    split_ifs <;> first | exact utf8First_sound b | simp [Utf8State.Sound]

lemma utf8_state_sound {s : Utf8State} (hs : s.Sound) (u : Bytes) : (utf8.state s u).Sound := by
  induction u generalizing s with
  | nil => exact hs
  | cons b u ih => exact ih (utf8Step_sound b)

lemma utf8_feed (u : Bytes) :
    utf8.state .idle (u ++ [0x0A]) = .idle ∧
      ∃ t, utf8.emitted .idle (u ++ [0x0A]) = t ++ ['\n'] := by
  have hs : (utf8.state .idle u).Sound := utf8_state_sound (s := .idle) trivial u
  have hstep : (utf8.step (utf8.state .idle u) 0x0A).1 = .idle ∧
      ∃ t, (utf8.step (utf8.state .idle u) 0x0A).2 = t ++ ['\n'] := by
    rcases h : utf8.state .idle u with _ | ⟨bits, need, lo, hi⟩
    · exact ⟨rfl, [], rfl⟩
    · rw [h] at hs
      have hlo : ¬ lo ≤ 0x0A := by simpa [Utf8State.Sound] using hs
      exact ⟨by simp [utf8, utf8Step, hlo]; rfl, [replacement], by simp [utf8, utf8Step, hlo]; rfl⟩
  obtain ⟨h1, t, ht⟩ := hstep
  refine ⟨by rw [Transducer.state_append]; exact h1, utf8.emitted .idle u ++ t, ?_⟩
  rw [Transducer.emitted_append, List.append_assoc, ← ht]
  simp [Transducer.emitted]

/-- Between units of two bytes. -/
def Utf16State.Aligned : Utf16State → Prop
  | .idle => True
  | .high _ => True
  | _ => False

lemma utf16_state_aligned (little : Bool) (u : Bytes) :
    ∀ s : Utf16State, (s.Aligned → u.length % 2 = 0 → ((utf16 little).state s u).Aligned) ∧
      (¬ s.Aligned → u.length % 2 = 1 → ((utf16 little).state s u).Aligned) := by
  induction u with
  | nil => exact fun s => ⟨fun h _ => h, fun _ h => by simp at h⟩
  | cons b u ih =>
    intro s
    -- a byte takes an aligned state to an unaligned one and back
    have hflip : ((utf16 little).step s b).1.Aligned ↔ ¬ s.Aligned := by
      rcases s with _ | a | h | ⟨h, a⟩ <;> simp only [utf16, utf16Step, utf16First]
      · simp [Utf16State.Aligned]
      · split_ifs <;> simp [Utf16State.Aligned]
      · simp [Utf16State.Aligned]
      · split_ifs <;> simp [Utf16State.Aligned]
    simp only [List.length_cons, Transducer.state_cons]
    exact ⟨fun hs hl => (ih _).2 (by rw [hflip]; simpa using hs) (by omega),
      fun hs hl => (ih _).1 (hflip.mpr hs) (by omega)⟩

lemma utf16_feed {u : Bytes} (hu : u.length % 2 = 0) :
    (utf16 true).state .idle (u ++ [0x0A, 0x00]) = .idle ∧
      ∃ t, (utf16 true).emitted .idle (u ++ [0x0A, 0x00]) = t ++ ['\n'] := by
  have hs := ((utf16_state_aligned true u) .idle).1 trivial hu
  rw [Transducer.state_append, Transducer.emitted_append]
  rcases h : (utf16 true).state .idle u with _ | a | k | ⟨k, a⟩ <;> rw [h] at hs
  · exact ⟨rfl, (utf16 true).emitted .idle u, rfl⟩
  · exact hs.elim
  · refine ⟨rfl, (utf16 true).emitted .idle u ++ [replacement], ?_⟩
    rw [List.append_assoc]; rfl
  · exact hs.elim

end MongoSyncAgent.Codecs
