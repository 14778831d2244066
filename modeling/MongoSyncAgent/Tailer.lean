import Mathlib.Algebra.Ring.Int.Defs
import MongoSyncAgent.Codecs
import MongoSyncAgent.Py

/-!
Tailing a log file from a byte offset: complete lines and the offset after them.
-/

namespace MongoSyncAgent.Tailer

open MongoSyncAgent.Codecs MongoSyncAgent.Text MongoSyncAgent.Py

/-- `_NEWLINE_PATTERNS`. -/
def newlinePatterns : List (String × Bytes) :=
  [("utf-16-le", [0x0A, 0x00]), ("utf-16le", [0x0A, 0x00]), ("utf-8", [0x0A]), ("utf8", [0x0A]),
    ("ascii", [0x0A]), ("latin-1", [0x0A]), ("latin1", [0x0A]), ("iso-8859-1", [0x0A])]

/-- `_TWO_BYTE_ENCODINGS`. -/
def twoByteEncodings : List String := ["utf-16-le", "utf-16le"]

structure TailChunk where
  lines : List String
  newOffset : ℕ
  deriving DecidableEq

/-- `_newline_pattern`: the line feed byte for every encoding not in the table. -/
def newlinePattern (encoding : String) : Bytes :=
  (newlinePatterns.lookup (normalise encoding)).getD [0x0A]

def twoByte (encoding : String) : Bool := twoByteEncodings.contains (normalise encoding)

lemma pattern_cases (encoding : String) :
    twoByte encoding = true ∧ newlinePattern encoding = [0x0A, 0x00] ∨
      twoByte encoding = false ∧ newlinePattern encoding = [0x0A] := by
  unfold twoByte newlinePattern twoByteEncodings newlinePatterns
  generalize normalise encoding = n
  by_cases h1 : n = "utf-16-le"
  · subst h1; exact Or.inl (by decide)
  by_cases h2 : n = "utf-16le"
  · subst h2; exact Or.inl (by decide)
  right
  refine ⟨by simp [h1, h2], ?_⟩
  simp only [List.lookup_cons, List.lookup_nil]
  repeat' split
  all_goals first
    | rfl
    | simp_all

lemma pattern_length_pos (encoding : String) : 0 < (newlinePattern encoding).length := by
  rcases pattern_cases encoding with ⟨-, h⟩ | ⟨-, h⟩ <;> simp [h]

/-- The codecs Python knows besides those of `Codecs`, by the name they are asked for. -/
abbrev CodecRegistry := String → Option (Bytes → List Char)

variable (codecs : CodecRegistry)

/-- `bytes.decode(encoding, errors="replace")`. -/
def decode (encoding : String) (bs : Bytes) : Except Exc (List Char) :=
  match (decoder (normalise encoding)).orElse fun _ => codecs encoding with
  | some f => .ok (f bs)
  | none => raise .lookupError ("unknown encoding: " ++ encoding)

/-- The length of the longest bytes object: `sys.maxsize`, less the size of its header. -/
def maxLength : ℤ := 2 ^ 63 - 34

/-- `f.read(n)`. There is memory for every bytes object that can be. -/
def readBytes (rest : Bytes) (n : ℤ) : Except Exc Bytes :=
  if n < -2 ^ 63 ∨ 2 ^ 63 ≤ n then
    raise .overflowError "cannot fit 'int' into an index-sized integer"
  else if n < -1 then raise .valueError "read length must be non-negative or -1"
  else if n = -1 then .ok rest
  else if maxLength < n then raise .overflowError "byte string is too large"
  else .ok (rest.take n.toNat)

/-- The sizes that `f.read` takes. -/
def ReadSize (n : ℤ) : Prop := -1 ≤ n ∧ n ≤ maxLength

/-- The greatest match of `pat` among the first `n` positions of `raw`. -/
def rfindBelow (pat raw : Bytes) : ℕ → Option ℕ
  | 0 => none
  | n + 1 => if pat.isPrefixOf (raw.drop n) then some n else rfindBelow pat raw n

/-- `raw.rfind(pat, 0, stop)`. -/
def rfind (pat raw : Bytes) (stop : ℕ) : Option ℕ := rfindBelow pat raw (stop + 1 - pat.length)

/-- `while last_nl_pos != -1 and last_nl_pos % 2 != 0: last_nl_pos = raw.rfind(nl, 0, last_nl_pos)`,
for at most `fuel` turns. -/
def alignLoop (nl raw : Bytes) : ℕ → Option ℕ → Option ℕ
  | _, none => none
  | 0, some p => some p
  | fuel + 1, some p => if p % 2 ≠ 0 then alignLoop nl raw fuel (rfind nl raw p) else some p

/-- `last_nl_pos`, after the loop. Every turn of the loop moves down, so there are fewer of
them than bytes. -/
def lastNewline (encoding : String) (raw : Bytes) : Option ℕ :=
  let nl := newlinePattern encoding
  let last := rfind nl raw raw.length
  if twoByte encoding then alignLoop nl raw raw.length last else last

/-- `tail_file`, on a file that is absent or holds `content`. -/
def tailFile (content : Option Bytes) (start : ℕ) (encoding : String) (maxBytes : ℤ) :
    Except Exc TailChunk :=
  let nl := newlinePattern encoding
  -- a stray odd offset is realigned forward
  let start := if twoByte encoding ∧ start % 2 ≠ 0 then start + 1 else start
  match content with
  | none => .ok ⟨[], start⟩
  | some data => do
    let raw ← readBytes (data.drop start) maxBytes
    if raw = [] then return ⟨[], start⟩
    match lastNewline encoding raw with
    | none => return ⟨[], start⟩
    | some p =>
      let consumedEnd := p + nl.length
      let newOffset := start + consumedEnd
      if twoByte encoding ∧ newOffset % 2 ≠ 0 then return ⟨[], start⟩
      let text ← decode codecs encoding (raw.take consumedEnd)
      return ⟨textLines text, newOffset⟩

/-! ### One read -/

lemma readBytes_ok {rest raw : Bytes} {n : ℤ} (h : readBytes rest n = .ok raw) :
    n = -1 ∧ raw = rest ∨ 0 ≤ n ∧ n ≤ maxLength ∧ raw = rest.take n.toNat := by
  unfold readBytes at h
  split_ifs at h with hfit hneg hall hlong
  · cases h
  · cases h
  · exact .inl ⟨hall, (Except.ok.inj h).symm⟩
  · cases h
  · exact .inr ⟨by omega, by omega, (Except.ok.inj h).symm⟩

lemma readBytes_of_size (rest : Bytes) {n : ℤ} (h : ReadSize n) :
    ∃ raw, readBytes rest n = .ok raw := by
  have h1 := h.1
  have h2 := h.2
  have h3 : maxLength < 2 ^ 63 := by decide
  unfold readBytes
  rw [if_neg (by omega), if_neg (by omega)]
  split_ifs with hall hlong
  · exact ⟨_, rfl⟩
  · omega
  · exact ⟨_, rfl⟩

/-- One read that covers the rest gives all of it. -/
lemma readBytes_whole {rest : Bytes} (h : (rest.length : ℤ) ≤ maxLength) :
    readBytes rest rest.length = .ok rest := by
  obtain ⟨raw, hraw⟩ := readBytes_of_size rest ⟨by omega, h⟩
  rcases readBytes_ok hraw with ⟨hall, -⟩ | ⟨-, -, rfl⟩
  · omega
  · rw [hraw, Int.toNat_natCast, List.take_length]

/-- A size beyond that of any bytes object is refused, whatever the file holds. -/
lemma readBytes_refused {n : ℤ} (h : maxLength < n) :
    ∃ text, ∀ rest, readBytes rest n = raise .overflowError text := by
  have h1 : (0 : ℤ) < maxLength := by decide
  by_cases hfit : 2 ^ 63 ≤ n
  · exact ⟨_, fun rest => by rw [readBytes, if_pos (.inr hfit)]⟩
  · refine ⟨"byte string is too large", fun rest => ?_⟩
    rw [readBytes, if_neg (by omega), if_neg (by omega), if_neg (by omega), if_pos h]

/-! ### The search for the last newline -/

lemma rfindBelow_spec (pat raw : Bytes) (n : ℕ) :
    (∀ p, rfindBelow pat raw n = some p →
      p < n ∧ pat <+: raw.drop p ∧ ∀ q, p < q → q < n → ¬ pat <+: raw.drop q) ∧
    (rfindBelow pat raw n = none → ∀ q < n, ¬ pat <+: raw.drop q) := by
  induction n with
  | zero => simp [rfindBelow]
  | succ n ih =>
    by_cases h : pat <+: raw.drop n
    · refine ⟨fun p hp => ?_, fun hn => ?_⟩
      · simp only [rfindBelow, List.isPrefixOf_iff_prefix, h, if_true, Option.some.injEq] at hp
        subst hp
        exact ⟨by omega, h, fun q h1 h2 => by omega⟩
      · simp [rfindBelow, h] at hn
    · have heq : rfindBelow pat raw (n + 1) = rfindBelow pat raw n := by simp [rfindBelow, h]
      rw [heq]
      refine ⟨fun p hp => ?_, fun hn q hq => ?_⟩
      · obtain ⟨h1, h2, h3⟩ := ih.1 p hp
        refine ⟨by omega, h2, fun q hq hq' => ?_⟩
        rcases Nat.lt_succ_iff_lt_or_eq.mp hq' with hlt | rfl
        · exact h3 q hq hlt
        · exact h
      · rcases Nat.lt_succ_iff_lt_or_eq.mp hq with hlt | rfl
        · exact ih.2 hn q hlt
        · exact h

lemma rfind_some {pat raw : Bytes} {stop p : ℕ} (hp : rfind pat raw stop = some p) :
    p + pat.length ≤ stop ∧ pat <+: raw.drop p ∧
      ∀ q, p < q → q + pat.length ≤ stop → ¬ pat <+: raw.drop q := by
  obtain ⟨h1, h2, h3⟩ := (rfindBelow_spec pat raw _).1 p hp
  exact ⟨by omega, h2, fun q hq hq' => h3 q hq (by omega)⟩

lemma rfind_none {pat raw : Bytes} {stop : ℕ} (h : rfind pat raw stop = none) {q : ℕ}
    (hq : q + pat.length ≤ stop) : ¬ pat <+: raw.drop q :=
  (rfindBelow_spec pat raw _).2 h q (by omega)

/-- Two matches of the two-byte pattern do not overlap. -/
lemma no_overlap {raw : Bytes} {p : ℕ} (h : [0x0A, 0x00] <+: raw.drop p)
    (h' : [0x0A, 0x00] <+: raw.drop (p + 1)) : False := by
  obtain ⟨t, ht⟩ := h
  obtain ⟨t', ht'⟩ := h'
  have h1 : raw.drop (p + 1) = (raw.drop p).drop 1 := by rw [List.drop_drop]
  rw [h1, ← ht] at ht'
  simp at ht'

end MongoSyncAgent.Tailer
