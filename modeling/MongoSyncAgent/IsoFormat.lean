import MongoSyncAgent.Timestamps

/-!
The ISO form in which datetimes are stored and shipped, and its reader.

Microseconds and the offset from UTC are only written where they are there. The reader takes the
form that is written; of the other forms that `datetime.fromisoformat` takes, none is needed.
-/

namespace MongoSyncAgent.IsoFormat

open MongoSyncAgent.Py MongoSyncAgent.Numerals MongoSyncAgent.Calendar MongoSyncAgent.Timestamps

/-! ### Writing -/

/-- A fraction of a second, if it is not zero. -/
def fractionChars (us : ℕ) : List Char := if us = 0 then [] else '.' :: padded 6 us

/-- `_format_offset`. -/
def offsetChars : Option ℤ → List Char
  | none => []
  | some off =>
    let us := off.natAbs
    (if off < 0 then '-' else '+') :: (padded 2 (us / 3600000000) ++
      ':' :: (padded 2 (us / 60000000 % 60) ++
        if us % 60000000 = 0 then []
        else ':' :: (padded 2 (us / 1000000 % 60) ++ fractionChars (us % 1000000))))

/-- `d.isoformat()`. -/
def isoChars (d : Datetime) : List Char :=
  padded 4 d.date.year ++ '-' :: (padded 2 d.date.month ++ '-' :: (padded 2 d.date.day ++
    'T' :: (padded 2 d.hour ++ ':' :: (padded 2 d.minute ++ ':' :: (padded 2 d.second ++
      (fractionChars d.microsecond ++ offsetChars d.tzinfo))))))

def isoformat (d : Datetime) : String := String.ofList (isoChars d)

/-! ### Reading -/

/-- A number of so many digits. -/
def number (w : ℕ) (cs : List Char) : Option (ℕ × List Char) :=
  if cs.length < w then none else (numeral 10 (cs.take w)).map fun n => (n, cs.drop w)

def literal (c : Char) : List Char → Option (List Char)
  | [] => none
  | d :: cs => if d = c then some cs else none

def fraction : List Char → Option (ℕ × List Char)
  | '.' :: cs => number 6 cs
  | cs => some (0, cs)

/-- The seconds of an offset, if it has any. -/
def offsetSeconds : List Char → Option (ℕ × List Char)
  | ':' :: cs => do
    let (s, cs) ← number 2 cs
    let (us, cs) ← fraction cs
    return (s * 1000000 + us, cs)
  | cs => some (0, cs)

/-- An offset by its sign and its size, which is less than a day. -/
def signed (sign : Char) (us : ℕ) : Option ℤ :=
  if dayMicros ≤ us then none
  else if sign = '+' then some us
  else if sign = '-' then some (-us)
  else none

def offset : List Char → Option (Option ℤ)
  | [] => some none
  | sign :: cs => do
    let (h, cs) ← number 2 cs
    let cs ← literal ':' cs
    let (m, cs) ← number 2 cs
    let (us, cs) ← offsetSeconds cs
    match cs with
    | [] => return some (← signed sign (h * 3600000000 + m * 60000000 + us))
    | _ => none

def isoFields (cs : List Char) : Option (List ℕ × List Char) := do
  let (y, cs) ← number 4 cs
  let cs ← literal '-' cs
  let (mo, cs) ← number 2 cs
  let cs ← literal '-' cs
  let (d, cs) ← number 2 cs
  let cs ← literal 'T' cs
  let (h, cs) ← number 2 cs
  let cs ← literal ':' cs
  let (mi, cs) ← number 2 cs
  let cs ← literal ':' cs
  let (s, cs) ← number 2 cs
  let (us, cs) ← fraction cs
  return ([y, mo, d, h, mi, s, us], cs)

/-- `datetime.fromisoformat(text)`. -/
def fromisoformat (text : String) : Option Datetime := do
  match ← isoFields text.toList with
  | ([y, mo, d, h, mi, s, us], cs) =>
    let tzinfo ← offset cs
    if 23 < h ∨ 59 < mi then none
    else
      match Datetime.mk? y mo d h mi s us with
      | .ok dt => some { dt with tzinfo }
      | .error _ => none
  | _ => none

/-! ### Round trip -/

lemma take_padded (w n : ℕ) (r : List Char) : (padded w n ++ r).take w = padded w n := by
  rw [List.take_append_of_le_length (by simp [padded]), List.take_of_length_le (by simp [padded])]

lemma drop_padded (w n : ℕ) (r : List Char) : (padded w n ++ r).drop w = r := by
  rw [List.drop_append_of_le_length (by simp [padded]), List.drop_eq_nil_of_le (by simp [padded]),
    List.nil_append]

lemma number_padded {w n : ℕ} (h : n < 10 ^ w) (r : List Char) :
    number w (padded w n ++ r) = some (n, r) := by
  unfold number
  rw [if_neg (by simp [padded]), take_padded, numeral_padded h, drop_padded]
  rfl

lemma literal_self (c : Char) (r : List Char) : literal c (c :: r) = some r := if_pos rfl

/-- What follows the seconds begins with no dot. -/
lemma fraction_chars {us : ℕ} (h : us < 1000000) {r : List Char} (hr : ∀ t, r ≠ '.' :: t) :
    fraction (fractionChars us ++ r) = some (us, r) := by
  unfold fractionChars
  split_ifs with hzero
  · subst hzero
    unfold fraction
    split
    · rename_i t heq
      exact absurd heq (hr t)
    · rfl
  · rw [List.cons_append, fraction]
    exact number_padded (by omega) r

lemma offsetChars_head (tz : Option ℤ) (t : List Char) : offsetChars tz ≠ '.' :: t := by
  rcases tz with _ | off
  · simp [offsetChars]
  · unfold offsetChars
    intro h
    have hsign := (List.cons.inj h).1
    split_ifs at hsign <;> exact absurd hsign (by decide)

lemma offsetSeconds_chars (us : ℕ) :
    offsetSeconds (if us % 60000000 = 0 then []
      else ':' :: (padded 2 (us / 1000000 % 60) ++ fractionChars (us % 1000000))) =
        some (us % 60000000, []) := by
  split_ifs with hzero
  · rw [hzero]
    rfl
  · have hsecond : us / 1000000 % 60 < 10 ^ 2 := by omega
    have hfraction : fraction (fractionChars (us % 1000000)) = some (us % 1000000, []) := by
      have h : us % 1000000 < 1000000 := Nat.mod_lt _ (by omega)
      simpa using fraction_chars h (r := []) (by simp)
    rw [offsetSeconds, number_padded hsecond]
    simp only [Option.bind_eq_bind, Option.bind_some, hfraction]
    rw [show us / 1000000 % 60 * 1000000 + us % 1000000 = us % 60000000 by omega]
    rfl

lemma signed_natAbs {off : ℤ} (h : off.natAbs < dayMicros) :
    signed (if off < 0 then '-' else '+') off.natAbs = some off := by
  unfold signed
  rw [if_neg (Nat.not_le.mpr h)]
  by_cases hneg : off < 0
  · have habs : -(off.natAbs : ℤ) = off := by omega
    rw [if_pos hneg, if_neg (by decide), if_pos rfl, habs]
  · have habs : (off.natAbs : ℤ) = off := by omega
    rw [if_neg hneg, if_pos rfl, habs]

/-- An offset of less than a day is read back. -/
lemma offset_chars {tz : Option ℤ} (h : ∀ off, tz = some off → off.natAbs < dayMicros) :
    offset (offsetChars tz) = some tz := by
  rcases tz with _ | off
  · rfl
  have hsigned := signed_natAbs (h off rfl)
  have hday := h off rfl
  unfold dayMicros at hday
  have hhour : off.natAbs / 3600000000 < 10 ^ 2 := by omega
  have hminute : off.natAbs / 60000000 % 60 < 10 ^ 2 := by omega
  have htotal : off.natAbs / 3600000000 * 3600000000 + off.natAbs / 60000000 % 60 * 60000000 +
      off.natAbs % 60000000 = off.natAbs := by omega
  unfold offsetChars
  simp only [offset]
  rw [number_padded hhour]
  simp only [Option.bind_eq_bind, Option.bind_some, literal_self]
  rw [number_padded hminute]
  simp only [Option.bind_some]
  rw [offsetSeconds_chars, Option.bind_some]
  simp only [htotal]
  rw [hsigned]
  rfl

lemma isoFields_chars (d : Datetime) : isoFields (isoChars d) =
    some ([d.date.year, d.date.month, d.date.day, d.hour, d.minute, d.second, d.microsecond],
      offsetChars d.tzinfo) := by
  have hy : d.date.year < 10 ^ 4 := by have := d.date_year_le; omega
  have hm : d.date.month < 10 ^ 2 := by have := d.date.month_le; omega
  have hd : d.date.day < 10 ^ 2 := by have := day_le d.date; omega
  have hh : d.hour < 10 ^ 2 := by have : d.hour < 24 := Nat.mod_lt _ (by omega); omega
  have hmi : d.minute < 10 ^ 2 := by have : d.minute < 60 := Nat.mod_lt _ (by omega); omega
  have hs : d.second < 10 ^ 2 := by have : d.second < 60 := Nat.mod_lt _ (by omega); omega
  have hus : d.microsecond < 1000000 := Nat.mod_lt _ (by omega)
  unfold isoFields isoChars
  simp only [number_padded hy, number_padded hm, number_padded hd, number_padded hh,
    number_padded hmi, number_padded hs, literal_self, fraction_chars hus (offsetChars_head _),
    Option.bind_eq_bind, Option.bind_some]
  rfl

/-- The offset from UTC, if there is one, is less than a day. -/
def Zoned (d : Datetime) : Prop := ∀ off, d.tzinfo = some off → off.natAbs < dayMicros

/-- **Round trip.** What is written is read back, to the microsecond and with its offset; offsets
are less than a day. -/
theorem fromisoformat_isoformat (d : Datetime) (h : Zoned d) :
    fromisoformat (isoformat d) = some d := by
  have hs : ¬ 59 < d.second := by
    have : d.second < 60 := Nat.mod_lt _ (by omega)
    omega
  have hclock : ¬ (23 < d.hour ∨ 59 < d.minute) := by
    have : d.hour < 24 := Nat.mod_lt _ (by omega)
    have : d.minute < 60 := Nat.mod_lt _ (by omega)
    omega
  have hmk : Datetime.mk? d.date.year d.date.month d.date.day d.hour d.minute d.second
      d.microsecond = .ok ⟨d.wall, none, d.wall_lt⟩ := by
    simp only [Datetime.mk?, Date.mk?_self, if_neg hs, ← d.wall_eq]
    rw [dif_pos d.wall_lt]
  unfold fromisoformat isoformat
  rw [String.toList_ofList, isoFields_chars]
  simp only [Option.bind_eq_bind, Option.bind_some, offset_chars h, if_neg hclock, hmk]

end MongoSyncAgent.IsoFormat
