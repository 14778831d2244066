import MongoSyncAgent.Py
import MongoSyncAgent.Numerals
import MongoSyncAgent.Calendar
import Mathlib.Data.List.GetD

/-!
Python's datetimes, as far as the watermarks use them, and the canonical timestamp string.

A datetime is a count of microseconds from the start of the year 1 on the wall clock, with the
offset of that clock from UTC, if it has one. All arithmetic is on the count; the calendar only
comes in when a datetime is written or read.
-/

namespace MongoSyncAgent.Timestamps

open MongoSyncAgent.Py MongoSyncAgent.Numerals MongoSyncAgent.Calendar

/-- The microseconds of the years 1 to 9999. -/
def wallLimit : ℕ := 315537897600000000

def dayMicros : ℕ := 86400000000

structure Datetime where
  wall : ℕ
  /-- The offset from UTC in microseconds; `none` for a naive datetime. -/
  tzinfo : Option ℤ
  wall_lt : wall < wallLimit
  deriving DecidableEq

namespace Datetime

/-- The point in time, in microseconds of UTC; a naive datetime is read as UTC. -/
def instant (d : Datetime) : ℤ := d.wall - d.tzinfo.getD 0

/-- A datetime at a count of microseconds, or the `OverflowError` of datetime arithmetic. -/
def ofMicros (t : ℤ) (tzinfo : Option ℤ) : Except Exc Datetime :=
  if h : 0 ≤ t ∧ t < wallLimit then .ok ⟨t.toNat, tzinfo, by omega⟩
  else raise .overflowError "date value out of range"

lemma ofMicros_ok {t : ℤ} {tz : Option ℤ} {d : Datetime} (h : ofMicros t tz = .ok d) :
    0 ≤ t ∧ (d.wall : ℤ) = t ∧ d.tzinfo = tz := by
  unfold ofMicros at h
  split_ifs at h with hc
  · obtain rfl := Except.ok.inj h
    exact ⟨hc.1, by simpa using hc.1, rfl⟩
  · cases h

/-- `timedelta(seconds=n)`, in microseconds. -/
def timedelta (seconds : ℤ) : Except Exc ℤ :=
  if -999999999 ≤ seconds / 86400 ∧ seconds / 86400 ≤ 999999999 then .ok (seconds * 1000000)
  else raise .overflowError "days must have magnitude <= 999999999"

lemma timedelta_ok {seconds delta : ℤ} (h : timedelta seconds = .ok delta) :
    delta = seconds * 1000000 := by
  unfold timedelta at h
  split_ifs at h
  · exact (Except.ok.inj h).symm
  · cases h

/-- `d - delta`. -/
def sub (d : Datetime) (delta : ℤ) : Except Exc Datetime := ofMicros (d.wall - delta) d.tzinfo

/-- `d.replace(tzinfo=timezone.utc)`. -/
def replaceUtc (d : Datetime) : Datetime := { d with tzinfo := some 0 }

/-- `d.astimezone(timezone.utc)`, for a datetime with a time zone. -/
def astimezoneUtc (d : Datetime) : Except Exc Datetime := ofMicros d.instant (some 0)

/-- `a > b`: naive and zone-aware datetimes do not compare. -/
def gt (a b : Datetime) : Except Exc Bool :=
  if a.tzinfo.isSome = b.tzinfo.isSome then .ok (b.instant < a.instant)
  else raise .typeError "can't compare offset-naive and offset-aware datetimes"

def microsecond (d : Datetime) : ℕ := d.wall % 1000000

def date (d : Datetime) : Date := ofDays (d.wall / dayMicros)

def hour (d : Datetime) : ℕ := d.wall / 3600000000 % 24

def minute (d : Datetime) : ℕ := d.wall / 60000000 % 60

def second (d : Datetime) : ℕ := d.wall / 1000000 % 60

lemma sub_ok {d e : Datetime} {delta : ℤ} (h : d.sub delta = .ok e) :
    e.instant = d.instant - delta ∧ e.tzinfo = d.tzinfo := by
  obtain ⟨-, hwall, htz⟩ := ofMicros_ok h
  refine ⟨?_, htz⟩
  rw [instant, instant, hwall, htz]
  omega

@[simp] lemma replaceUtc_instant (d : Datetime) : d.replaceUtc.instant = d.wall := by
  simp [instant, replaceUtc]

@[simp] lemma replaceUtc_wall (d : Datetime) : d.replaceUtc.wall = d.wall := rfl

lemma date_year_le (d : Datetime) : d.date.year ≤ 9999 := by
  refine year_ofDays_le ?_
  have := d.wall_lt
  unfold wallLimit at this
  unfold dayMicros
  omega

/-- The count of microseconds, from the numbers of the date and of the clock. -/
lemma wall_eq (d : Datetime) : d.wall = d.date.days * dayMicros + d.hour * 3600000000 +
    d.minute * 60000000 + d.second * 1000000 + d.microsecond := by
  unfold date hour minute second microsecond dayMicros
  rw [days_ofDays]
  omega

end Datetime

/-! ### Writing -/

/-- The digits of a number, as text. -/
def padded (w n : ℕ) : List Char := pad 10 w n

/-- `dt.strftime("%Y-%m-%dT%H:%M:%S.") + f"{dt.microsecond // 1000:03d}Z"`. -/
def tsChars (d : Datetime) : List Char :=
  padded 4 d.date.year ++ '-' :: (padded 2 d.date.month ++ '-' :: (padded 2 d.date.day ++
    'T' :: (padded 2 d.hour ++ ':' :: (padded 2 d.minute ++ ':' :: (padded 2 d.second ++
      '.' :: (padded 3 (d.microsecond / 1000) ++ ['Z']))))))

/-- `dt.astimezone(timezone.utc) if dt.tzinfo else dt.replace(tzinfo=timezone.utc)`. -/
def toUtc (d : Datetime) : Except Exc Datetime :=
  if d.tzinfo.isSome then d.astimezoneUtc else .ok d.replaceUtc

/-- `_format_ts`. -/
def formatTs (d : Datetime) : Except Exc String := do
  let d ← toUtc d
  return String.ofList (tsChars d)

/-! ### Reading -/

/-- An item of a `strptime` pattern: a literal, or a field with its alternatives in the order in
which they are tried. -/
inductive Item
  | lit (c : Char)
  | field (alts : List Char → List (ℕ × List Char))

/-- The first way to match the items from the start, in the order of the alternatives: the
values of the fields, and what is left. -/
def matchItems : List Item → List Char → Option (List ℕ × List Char)
  | [], cs => some ([], cs)
  | .lit l :: items, cs =>
    match cs with
    | c :: cs => if c.toLower = l.toLower then matchItems items cs else none
    | [] => none
  | .field alts :: items, cs =>
    (alts cs).findSome? fun (v, cs) => (matchItems items cs).map fun (vs, rest) => (v :: vs, rest)

/-- A character of the pattern of a field. -/
inductive Cls
  /-- `[lo-hi]` -/
  | range (lo hi : ℕ)
  /-- `\d`: a decimal digit of any script. -/
  | digit
  | blank

/-- What a character counts in a number, where the class takes it. -/
def Cls.value : Cls → Char → Option ℕ
  | .range lo hi, c => (digitBelow 10 c).filter fun d => lo ≤ d ∧ d ≤ hi
  | .digit, c => decimal c
  | .blank, c => if c = ' ' then some 0 else none

/-- The number at the start of a text that follows the classes, after what was read of it. -/
def readClasses : ℕ → List Cls → List Char → Option (ℕ × List Char)
  | n, [], cs => some (n, cs)
  | _, _ :: _, [] => none
  | n, k :: ks, c :: cs => (k.value c).bind fun d => readClasses (n * 10 + d) ks cs

/-- The alternatives of a field that match, in their order. -/
def alternatives (alts : List (List Cls)) (cs : List Char) : List (ℕ × List Char) :=
  alts.filterMap fun ks => readClasses 0 ks cs

/-- `\d\d\d\d` -/
def yearField : List Char → List (ℕ × List Char) :=
  alternatives [[.digit, .digit, .digit, .digit]]

/-- `1[0-2]|0[1-9]|[1-9]` -/
def monthField : List Char → List (ℕ × List Char) :=
  alternatives [[.range 1 1, .range 0 2], [.range 0 0, .range 1 9], [.range 1 9]]

/-- `3[0-1]|[1-2]\d|0[1-9]|[1-9]| [1-9]` -/
def dayField : List Char → List (ℕ × List Char) :=
  alternatives [[.range 3 3, .range 0 1], [.range 1 2, .digit], [.range 0 0, .range 1 9],
    [.range 1 9], [.blank, .range 1 9]]

/-- `2[0-3]|[0-1]\d|\d` -/
def hourField : List Char → List (ℕ × List Char) :=
  alternatives [[.range 2 2, .range 0 3], [.range 0 1, .digit], [.digit]]

/-- `[0-5]\d|\d` -/
def minuteField : List Char → List (ℕ × List Char) :=
  alternatives [[.range 0 5, .digit], [.digit]]

/-- `6[0-1]|[0-5]\d|\d` -/
def secondField : List Char → List (ℕ × List Char) :=
  alternatives [[.range 6 6, .range 0 1], [.range 0 5, .digit], [.digit]]

/-- `[0-9]{1,6}`, the longest first, as microseconds. -/
def fractionField (cs : List Char) : List (ℕ × List Char) :=
  [6, 5, 4, 3, 2, 1].filterMap fun k =>
    (readClasses 0 (List.replicate k (.range 0 9)) cs).map fun (v, r) => (v * 10 ^ (6 - k), r)

/-- `_TS_FORMAT`, `"%Y-%m-%dT%H:%M:%S.%fZ"`. -/
def tsFormat : List Item :=
  [.field yearField, .lit '-', .field monthField, .lit '-', .field dayField, .lit 'T',
    .field hourField, .lit ':', .field minuteField, .lit ':', .field secondField, .lit '.',
    .field fractionField, .lit 'Z']

/-- `datetime(year, month, day, hour, minute, second, microsecond)`. -/
def Datetime.mk? (y mo d h mi s f : ℕ) : Except Exc Datetime :=
  match Date.mk? y mo d with
  | none => raise .valueError "day is out of range for month"
  | some date =>
    if 59 < s then raise .valueError "second must be in 0..59"
    else
      let wall := date.days * dayMicros + h * 3600000000 + mi * 60000000 + s * 1000000 + f
      if hw : wall < wallLimit then .ok ⟨wall, none, hw⟩
      else raise .valueError "year is out of range"

/-- `datetime.strptime(text, _TS_FORMAT)`. -/
def strptime (text : String) : Except Exc Datetime :=
  match matchItems tsFormat text.toList with
  | none => raise .valueError ("time data '" ++ text ++ "' does not match format")
  | some (_, c :: rest) =>
    raise .valueError ("unconverted data remains: " ++ String.ofList (c :: rest))
  | some (vs, []) =>
    match vs with
    | [y, mo, d, h, mi, s, f] => Datetime.mk? y mo d h mi s f
    | _ => raise .valueError "unreachable"

/-! ### Round trip -/

lemma matchItems_lit {l : Char} {items : List Item} {cs : List Char} :
    matchItems (.lit l :: items) (l :: cs) = matchItems items cs := by
  simp [matchItems]

/-- A field whose first alternative leads to a match is that alternative. -/
lemma matchItems_field {alts : List Char → List (ℕ × List Char)} {items : List Item}
    {cs rest : List Char} {v : ℕ} {more : List (ℕ × List Char)} {out : List ℕ × List Char}
    (halts : alts cs = (v, rest) :: more) (hrest : matchItems items rest = some out) :
    matchItems (.field alts :: items) cs = some (v :: out.1, out.2) := by
  simp [matchItems, halts, hrest]

lemma numeral_padded {w n : ℕ} (h : n < 10 ^ w) : numeral 10 (padded w n) = some n :=
  numeral_pad (by omega) (by omega) h

/-- The digits that a class takes. -/
def Cls.takes : Cls → ℕ → Bool
  | .range lo hi, d => lo ≤ d && d ≤ hi
  | .digit, _ => true
  | .blank, _ => false

lemma value_digitChar (k : Cls) {d : ℕ} (hd : d < 10) :
    k.value (Nat.digitChar d) = if k.takes d then some d else none := by
  have hdecimal : ∀ d < 10, decimal (Nat.digitChar d) = some d := by decide
  have hblank : ∀ d < 10, Nat.digitChar d ≠ ' ' := by decide
  cases k with
  | range lo hi =>
    rw [Cls.value, digitBelow_digitChar (by omega) hd, Option.filter_some]
    simp [Cls.takes]
  | digit => exact hdecimal d hd
  | blank => exact if_neg (hblank d hd)

lemma readClasses_cons (n : ℕ) (k : Cls) (ks : List Cls) {d : ℕ} (hd : d < 10) (cs : List Char) :
    readClasses n (k :: ks) (Nat.digitChar d :: cs) =
      if k.takes d then readClasses (n * 10 + d) ks cs else none := by
  rw [readClasses, value_digitChar k hd]
  split_ifs <;> rfl

lemma padded_two {n : ℕ} (h : n < 100) :
    padded 2 n = [Nat.digitChar (n / 10), Nat.digitChar (n % 10)] := by
  simp [padded, pad, Nat.mod_eq_of_lt (show n / 10 < 10 by omega)]

/-- Two classes take a number of two digits, or leave it. -/
lemma readClasses_two (k l : Cls) {n : ℕ} (h : n < 100) (r : List Char) :
    readClasses 0 [k, l] (padded 2 n ++ r) =
      if k.takes (n / 10) && l.takes (n % 10) then some (n, r) else none := by
  rw [padded_two h, List.cons_append, readClasses_cons _ _ _ (by omega), List.cons_append,
    readClasses_cons _ _ _ (Nat.mod_lt _ (by omega))]
  have hn : (0 * 10 + n / 10) * 10 + n % 10 = n := by omega
  rw [hn, List.nil_append]
  simp only [Bool.and_eq_true, ite_and]
  rfl

/-- The first alternative that takes the digits gives the number. -/
lemma alternatives_two {k l : Cls} {before after : List (List Cls)} {n : ℕ} (h : n < 100)
    (hbefore : ∀ ks ∈ before, ∃ k' l', ks = [k', l'] ∧
      (k'.takes (n / 10) && l'.takes (n % 10)) = false)
    (htakes : (k.takes (n / 10) && l.takes (n % 10)) = true) (r : List Char) :
    ∃ more, alternatives (before ++ [k, l] :: after) (padded 2 n ++ r) = (n, r) :: more := by
  have hnone : before.filterMap (fun ks => readClasses 0 ks (padded 2 n ++ r)) = [] := by
    refine List.filterMap_eq_nil_iff.mpr fun ks hks => ?_
    obtain ⟨k', l', rfl, hno⟩ := hbefore ks hks
    rw [readClasses_two _ _ h, if_neg (by simp [hno])]
  have hsome : readClasses 0 [k, l] (padded 2 n ++ r) = some (n, r) := by
    rw [readClasses_two _ _ h, if_pos htakes]
  rw [alternatives, List.filterMap_append, hnone, List.nil_append, List.filterMap_cons, hsome]
  exact ⟨_, rfl⟩

lemma yearField_padded {n : ℕ} (h : n < 10000) (r : List Char) :
    yearField (padded 4 n ++ r) = [(n, r)] := by
  have hdigits : padded 4 n = [Nat.digitChar (n / 1000), Nat.digitChar (n / 100 % 10),
      Nat.digitChar (n / 10 % 10), Nat.digitChar (n % 10)] := by
    simp [padded, pad, Nat.div_div_eq_div_mul, Nat.mod_eq_of_lt (show n / 1000 < 10 by omega)]
  have hn : (((0 * 10 + n / 1000) * 10 + n / 100 % 10) * 10 + n / 10 % 10) * 10 + n % 10 = n := by
    omega
  have hread : readClasses 0 [.digit, .digit, .digit, .digit] (padded 4 n ++ r) = some (n, r) := by
    rw [hdigits]
    simp only [List.cons_append, List.nil_append]
    rw [readClasses_cons _ _ _ (by omega), readClasses_cons _ _ _ (Nat.mod_lt _ (by omega)),
      readClasses_cons _ _ _ (Nat.mod_lt _ (by omega)),
      readClasses_cons _ _ _ (Nat.mod_lt _ (by omega)), hn]
    rfl
  rw [yearField, alternatives, List.filterMap_cons, hread]
  rfl

lemma monthField_padded {n : ℕ} (hlo : 1 ≤ n) (hhi : n ≤ 12) (r : List Char) :
    ∃ more, monthField (padded 2 n ++ r) = (n, r) :: more := by
  rcases Nat.lt_or_ge n 10 with h | h
  · refine @alternatives_two _ _ [[.range 1 1, .range 0 2]] _ n (by omega) ?_ ?_ r
    · simp [Cls.takes]
      omega
    · simp [Cls.takes]
      omega
  · refine @alternatives_two _ _ [] _ n (by omega) (by simp) ?_ r
    simp [Cls.takes]
    omega

lemma dayField_padded {n : ℕ} (hlo : 1 ≤ n) (hhi : n ≤ 31) (r : List Char) :
    ∃ more, dayField (padded 2 n ++ r) = (n, r) :: more := by
  rcases Nat.lt_or_ge n 10 with h | h
  · refine @alternatives_two _ _ [[.range 3 3, .range 0 1], [.range 1 2, .digit]] _ n (by omega)
      ?_ ?_ r
    · simp [Cls.takes]
      omega
    · simp [Cls.takes]
      omega
  rcases Nat.lt_or_ge n 30 with h' | h'
  · refine @alternatives_two _ _ [[.range 3 3, .range 0 1]] _ n (by omega) ?_ ?_ r
    · simp [Cls.takes]
      omega
    · simp [Cls.takes]
      omega
  · refine @alternatives_two _ _ [] _ n (by omega) (by simp) ?_ r
    simp [Cls.takes]
    omega

lemma hourField_padded {n : ℕ} (hhi : n < 24) (r : List Char) :
    ∃ more, hourField (padded 2 n ++ r) = (n, r) :: more := by
  rcases Nat.lt_or_ge n 20 with h | h
  · refine @alternatives_two _ _ [[.range 2 2, .range 0 3]] _ n (by omega) ?_ ?_ r
    · simp [Cls.takes]
      omega
    · simp [Cls.takes]
      omega
  · refine @alternatives_two _ _ [] _ n (by omega) (by simp) ?_ r
    simp [Cls.takes]
    omega

lemma minuteField_padded {n : ℕ} (hhi : n < 60) (r : List Char) :
    ∃ more, minuteField (padded 2 n ++ r) = (n, r) :: more := by
  refine @alternatives_two _ _ [] _ n (by omega) (by simp) ?_ r
  simp [Cls.takes]
  omega

lemma secondField_padded {n : ℕ} (hhi : n < 60) (r : List Char) :
    ∃ more, secondField (padded 2 n ++ r) = (n, r) :: more := by
  refine @alternatives_two _ _ [[.range 6 6, .range 0 1]] _ n (by omega) ?_ ?_ r
  · simp [Cls.takes]
    omega
  · simp [Cls.takes]
    omega

/-- Three digits and no fourth are read as milliseconds. -/
lemma fractionField_padded {n : ℕ} (h : n < 1000) (r : List Char) :
    ∃ more, fractionField (padded 3 n ++ 'Z' :: r) = (n * 1000, 'Z' :: r) :: more := by
  have hdigits : padded 3 n = [Nat.digitChar (n / 100), Nat.digitChar (n / 10 % 10),
      Nat.digitChar (n % 10)] := by
    simp [padded, pad, Nat.div_div_eq_div_mul, Nat.mod_eq_of_lt (show n / 100 < 10 by omega)]
  have hn : ((0 * 10 + n / 100) * 10 + n / 10 % 10) * 10 + n % 10 = n := by omega
  have htakes : ∀ d < 10, (Cls.range 0 9).takes d = true := by decide
  have hthree : ∀ ks, readClasses 0 (.range 0 9 :: .range 0 9 :: .range 0 9 :: ks)
      (padded 3 n ++ 'Z' :: r) = readClasses n ks ('Z' :: r) := by
    intro ks
    have h1 : n / 100 < 10 := by omega
    have h2 : n / 10 % 10 < 10 := Nat.mod_lt _ (by omega)
    have h3 : n % 10 < 10 := Nat.mod_lt _ (by omega)
    rw [hdigits]
    simp only [List.cons_append, List.nil_append]
    rw [readClasses_cons _ _ _ h1, if_pos (htakes _ h1), readClasses_cons _ _ _ h2,
      if_pos (htakes _ h2), readClasses_cons _ _ _ h3, if_pos (htakes _ h3), hn]
  have hmore : ∀ ks, readClasses n (.range 0 9 :: ks) ('Z' :: r) = none := by
    intro ks
    have hz : (Cls.range 0 9).value 'Z' = none := by decide
    rw [readClasses, hz]
    rfl
  have hend : readClasses n [] ('Z' :: r) = some (n, 'Z' :: r) := rfl
  unfold fractionField
  simp only [List.filterMap_cons, List.replicate_succ, List.replicate_zero, hthree, hmore, hend,
    Option.map_none, Option.map_some]
  exact ⟨_, rfl⟩

lemma day_le (a : Date) : a.day ≤ 31 := by
  have hlen : ∀ l ∈ monthLengths a.year, l ≤ 31 := by
    unfold monthLengths
    split_ifs <;> decide
  have hm : a.month - 1 < (monthLengths a.year).length := by
    have := a.month_le
    have hl : (monthLengths a.year).length = 12 := rfl
    omega
  have hd := a.day_le.2
  rw [List.getD_eq_getElem _ _ hm] at hd
  exact hd.trans (hlen _ (List.getElem_mem hm))

lemma matchItems_ts (d : Datetime) : matchItems tsFormat (tsChars d) =
    some ([d.date.year, d.date.month, d.date.day, d.hour, d.minute, d.second,
      d.microsecond / 1000 * 1000], []) := by
  have hy := d.date_year_le
  have hm := d.date.month_le
  have hd := d.date.day_le.1
  have hd' := day_le d.date
  have hh : d.hour < 24 := Nat.mod_lt _ (by omega)
  have hmi : d.minute < 60 := Nat.mod_lt _ (by omega)
  have hs : d.second < 60 := Nat.mod_lt _ (by omega)
  have hus : d.microsecond < 1000000 := Nat.mod_lt _ (by omega)
  have hz : matchItems [.lit 'Z'] ['Z'] = some ([], []) := by decide
  -- from the last field to the first, each one's first alternative is the one that matches
  obtain ⟨_, hf⟩ := fractionField_padded (n := d.microsecond / 1000) (by omega) []
  have h7 := matchItems_field hf hz
  obtain ⟨_, hf⟩ := secondField_padded (n := d.second) (by omega)
    ('.' :: (padded 3 (d.microsecond / 1000) ++ ['Z']))
  have h6 := matchItems_field hf (matchItems_lit.trans h7)
  obtain ⟨_, hf⟩ := minuteField_padded (n := d.minute) (by omega)
    (':' :: (padded 2 d.second ++ '.' :: (padded 3 (d.microsecond / 1000) ++ ['Z'])))
  have h5 := matchItems_field hf (matchItems_lit.trans h6)
  obtain ⟨_, hf⟩ := hourField_padded (n := d.hour) (by omega)
    (':' :: (padded 2 d.minute ++ ':' :: (padded 2 d.second ++
      '.' :: (padded 3 (d.microsecond / 1000) ++ ['Z']))))
  have h4 := matchItems_field hf (matchItems_lit.trans h5)
  obtain ⟨_, hf⟩ := dayField_padded (n := d.date.day) hd hd'
    ('T' :: (padded 2 d.hour ++ ':' :: (padded 2 d.minute ++ ':' :: (padded 2 d.second ++
      '.' :: (padded 3 (d.microsecond / 1000) ++ ['Z'])))))
  have h3 := matchItems_field hf (matchItems_lit.trans h4)
  obtain ⟨_, hf⟩ := monthField_padded (n := d.date.month) (by omega)
    (by omega) ('-' :: (padded 2 d.date.day ++
      'T' :: (padded 2 d.hour ++ ':' :: (padded 2 d.minute ++ ':' :: (padded 2 d.second ++
        '.' :: (padded 3 (d.microsecond / 1000) ++ ['Z']))))))
  have h2 := matchItems_field hf (matchItems_lit.trans h3)
  exact matchItems_field (yearField_padded (n := d.date.year) (by omega) _)
    (matchItems_lit.trans h2)

/-- **The timestamp string reads back** as the datetime with its microseconds below the
millisecond dropped. -/
theorem strptime_tsChars (d : Datetime) : ∃ t, strptime (String.ofList (tsChars d)) = .ok t ∧
    t.tzinfo = none ∧ t.wall = d.wall / 1000 * 1000 := by
  have hs : ¬ 59 < d.second := by
    have : d.second < 60 := Nat.mod_lt _ (by omega)
    omega
  have hw : d.date.days * dayMicros + d.hour * 3600000000 + d.minute * 60000000 +
      d.second * 1000000 + d.microsecond / 1000 * 1000 = d.wall / 1000 * 1000 := by
    have hus : d.microsecond % 1000 = d.wall % 1000 := by unfold Datetime.microsecond; omega
    have := d.wall_eq
    omega
  have hlt : d.wall / 1000 * 1000 < wallLimit := by have := d.wall_lt; omega
  refine ⟨⟨d.wall / 1000 * 1000, none, hlt⟩, ?_, rfl, rfl⟩
  rw [strptime, String.toList_ofList, matchItems_ts]
  simp only [Datetime.mk?, Date.mk?_self, if_neg hs, hw]
  rw [dif_pos hlt]

/-- The wall clock of the UTC time that is written. -/
lemma toUtc_wall {d u : Datetime} (h : toUtc d = .ok u) : (u.wall : ℤ) = d.instant := by
  unfold toUtc at h
  by_cases haware : d.tzinfo.isSome
  · rw [if_pos haware] at h
    exact (Datetime.ofMicros_ok h).2.1
  · rw [if_neg haware] at h
    obtain rfl := Except.ok.inj h
    simp only [Option.not_isSome_iff_eq_none] at haware
    simp [Datetime.instant, haware]

/-- **The watermark string of a datetime reads back** as its instant, floored to the
millisecond. -/
theorem strptime_formatTs {d : Datetime} {text : String} (h : formatTs d = .ok text) :
    ∃ t, strptime text = .ok t ∧ t.tzinfo = none ∧ (t.wall : ℤ) = d.instant / 1000 * 1000 := by
  obtain ⟨u, hu, htext⟩ := bind_ok h
  obtain rfl := Except.ok.inj htext
  obtain ⟨t, ht, htz, hw⟩ := strptime_tsChars u
  refine ⟨t, ht, htz, ?_⟩
  have hinst := toUtc_wall hu
  rw [hw, ← hinst]
  omega

end MongoSyncAgent.Timestamps
