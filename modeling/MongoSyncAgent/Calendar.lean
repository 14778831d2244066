import Mathlib.Data.List.Basic
import Mathlib.Algebra.Order.Group.Nat
import Mathlib.Algebra.Ring.Nat
import Mathlib.Tactic.Basic

/-!
The proleptic Gregorian calendar: dates and the days they number, from the first of January
of the year 1 on.
-/

namespace MongoSyncAgent.Calendar

def isLeap (y : ℕ) : Prop := y % 4 = 0 ∧ (y % 100 ≠ 0 ∨ y % 400 = 0)

instance (y : ℕ) : Decidable (isLeap y) := by unfold isLeap; exact inferInstance

def monthLengths (y : ℕ) : List ℕ :=
  [31, if isLeap y then 29 else 28, 31, 30, 31, 30, 31, 31, 30, 31, 30, 31]

/-- The days before the first day of a year. -/
def daysBeforeYear (y : ℕ) : ℕ := 365 * (y - 1) + (y - 1) / 4 + (y - 1) / 400 - (y - 1) / 100

def yearLength (y : ℕ) : ℕ := if isLeap y then 366 else 365

/-- A date that exists. -/
structure Date where
  year : ℕ
  month : ℕ
  day : ℕ
  year_pos : 1 ≤ year
  month_le : 1 ≤ month ∧ month ≤ 12
  day_le : 1 ≤ day ∧ day ≤ (monthLengths year).getD (month - 1) 0

@[ext] lemma Date.ext {a b : Date} (hy : a.year = b.year) (hm : a.month = b.month)
    (hd : a.day = b.day) : a = b := by
  cases a; cases b; simp_all

/-- The date with these numbers, if there is one. -/
def Date.mk? (y m d : ℕ) : Option Date :=
  if h : 1 ≤ y ∧ (1 ≤ m ∧ m ≤ 12) ∧ 1 ≤ d ∧ d ≤ (monthLengths y).getD (m - 1) 0 then
    some ⟨y, m, d, h.1, h.2.1, h.2.2⟩
  else none

lemma Date.mk?_self (a : Date) : Date.mk? a.year a.month a.day = some a := by
  rw [Date.mk?, dif_pos ⟨a.year_pos, a.month_le, a.day_le⟩]

/-- The days before a date. -/
def Date.days (a : Date) : ℕ :=
  daysBeforeYear a.year + ((monthLengths a.year).take (a.month - 1)).sum + (a.day - 1)

/-! ### The year of a day -/

/-- The year a day falls in: whole cycles of 400, 100, 4 years and 1 year, where the last day
of a leap year is the one that a count of 365-day years leaves over. -/
def yearOf (n : ℕ) : ℕ :=
  let n400 := n / 146097
  let r400 := n % 146097
  let n100 := min (r400 / 36524) 3
  let r100 := r400 - 36524 * n100
  let n4 := r100 / 1461
  let r4 := r100 % 1461
  let n1 := min (r4 / 365) 3
  400 * n400 + 100 * n100 + 4 * n4 + n1 + 1

lemma yearOf_pos (n : ℕ) : 1 ≤ yearOf n := Nat.le_add_left 1 _

/-- What is left over is a day of the year, and the 366th only at the end of a cycle of 4 years
that has a leap year. -/
lemma cycles_spec {n a r400 b r100 c r4 d : ℕ} (ha : a = n / 146097) (hr400 : r400 = n % 146097)
    (hb : b = min (r400 / 36524) 3) (hr100 : r100 = r400 - 36524 * b) (hc : c = r100 / 1461)
    (hr4 : r4 = r100 % 1461) (hd : d = min (r4 / 365) 3) :
    b ≤ 3 ∧ c ≤ 24 ∧ d ≤ 3 ∧ 146097 * a + 36524 * b + 1461 * c + 365 * d ≤ n ∧
      (n < 146097 * a + 36524 * b + 1461 * c + 365 * d + 365 ∨
        d = 3 ∧ (c < 24 ∨ b = 3) ∧ n < 146097 * a + 36524 * b + 1461 * c + 365 * d + 366) := by
  have hn : n = 146097 * a + r400 ∧ r400 < 146097 := by omega
  have hcentury : b ≤ 3 ∧ r400 = 36524 * b + r100 ∧ (r100 < 36524 ∨ b = 3 ∧ r100 < 36525) := by
    omega
  have hfour : r100 = 1461 * c + r4 ∧ r4 < 1461 := by omega
  have hone : d ≤ 3 ∧ 365 * d ≤ r4 ∧ (r4 < 365 * d + 365 ∨ d = 3) := by omega
  clear ha hr400 hb hr100 hc hr4 hd
  omega

lemma yearOf_cycles (n : ℕ) : ∃ a b c d, yearOf n = 400 * a + 100 * b + 4 * c + d + 1 ∧
    b ≤ 3 ∧ c ≤ 24 ∧ d ≤ 3 ∧ 146097 * a + 36524 * b + 1461 * c + 365 * d ≤ n ∧
      (n < 146097 * a + 36524 * b + 1461 * c + 365 * d + 365 ∨
        d = 3 ∧ (c < 24 ∨ b = 3) ∧ n < 146097 * a + 36524 * b + 1461 * c + 365 * d + 366) :=
  ⟨_, _, _, _, rfl, cycles_spec rfl rfl rfl rfl rfl rfl rfl⟩

lemma isLeap_cycles {a b c d : ℕ} (hb : b ≤ 3) (hc : c ≤ 24) (hd : d ≤ 3) :
    isLeap (400 * a + 100 * b + 4 * c + d + 1) ↔ d = 3 ∧ (c < 24 ∨ b = 3) := by
  have h4 : (400 * a + 100 * b + 4 * c + d + 1) % 4 = (d + 1) % 4 := by omega
  have h100 : (400 * a + 100 * b + 4 * c + d + 1) % 100 = (4 * c + d + 1) % 100 := by omega
  have h400 : (400 * a + 100 * b + 4 * c + d + 1) % 400 = (100 * b + 4 * c + d + 1) % 400 := by
    omega
  unfold isLeap
  rw [h4, h100, h400]
  constructor <;> intro h <;> omega

lemma daysBeforeYear_cycles {a b c d : ℕ} (hb : b ≤ 3) (hc : c ≤ 24) (hd : d ≤ 3) :
    daysBeforeYear (400 * a + 100 * b + 4 * c + d + 1) =
      146097 * a + 36524 * b + 1461 * c + 365 * d := by
  have h4 : (400 * a + 100 * b + 4 * c + d) / 4 = 100 * a + 25 * b + c := by omega
  have h100 : (400 * a + 100 * b + 4 * c + d) / 100 = 4 * a + b := by omega
  have h400 : (400 * a + 100 * b + 4 * c + d) / 400 = a := by omega
  unfold daysBeforeYear
  rw [Nat.add_sub_cancel, h4, h100, h400]
  omega

/-- **A day lies in its year.** -/
theorem yearOf_spec (n : ℕ) :
    daysBeforeYear (yearOf n) ≤ n ∧ n < daysBeforeYear (yearOf n) + yearLength (yearOf n) := by
  obtain ⟨a, b, c, d, hy, hb, hc, hd, hlo, hhi⟩ := yearOf_cycles n
  have hleap : isLeap (yearOf n) ↔ d = 3 ∧ (c < 24 ∨ b = 3) := by
    rw [hy]
    exact isLeap_cycles hb hc hd
  have hbefore : daysBeforeYear (yearOf n) = 146097 * a + 36524 * b + 1461 * c + 365 * d := by
    rw [hy]
    exact daysBeforeYear_cycles hb hc hd
  unfold yearLength
  rw [hbefore]
  refine ⟨hlo, ?_⟩
  split_ifs with hl
  · rcases hhi with h | ⟨-, -, h⟩
    · omega
    · exact h
  · exact hhi.resolve_right fun h => hl (hleap.mpr ⟨h.1, h.2.1⟩)

/-! ### The month of a day -/

/-- The piece a position falls in, and the position inside it, for pieces of these lengths. -/
def locate : List ℕ → ℕ → ℕ × ℕ
  | [], n => (0, n)
  | l :: ls, n => if n < l then (0, n) else ((locate ls (n - l)).1 + 1, (locate ls (n - l)).2)

lemma locate_spec (ls : List ℕ) {n : ℕ} (h : n < ls.sum) :
    (locate ls n).1 < ls.length ∧ (locate ls n).2 < ls.getD (locate ls n).1 0 ∧
      (ls.take (locate ls n).1).sum + (locate ls n).2 = n := by
  induction ls generalizing n with
  | nil => simp at h
  | cons l ls ih =>
    rw [List.sum_cons] at h
    by_cases hl : n < l
    · simp [locate, hl]
    · obtain ⟨h1, h2, h3⟩ := ih (n := n - l) (by omega)
      simp only [locate, hl, if_false, List.length_cons, List.getD_cons_succ, List.take_succ_cons,
        List.sum_cons]
      exact ⟨by omega, h2, by omega⟩

lemma sum_monthLengths (y : ℕ) : (monthLengths y).sum = yearLength y := by
  unfold monthLengths yearLength
  split_ifs <;> rfl

lemma locate_month (n : ℕ) :
    n - daysBeforeYear (yearOf n) < (monthLengths (yearOf n)).sum := by
  have := yearOf_spec n
  rw [sum_monthLengths]
  omega

/-- The date of a day. -/
def ofDays (n : ℕ) : Date where
  year := yearOf n
  month := (locate (monthLengths (yearOf n)) (n - daysBeforeYear (yearOf n))).1 + 1
  day := (locate (monthLengths (yearOf n)) (n - daysBeforeYear (yearOf n))).2 + 1
  year_pos := yearOf_pos n
  month_le := by
    have h := (locate_spec _ (locate_month n)).1
    have hl : (monthLengths (yearOf n)).length = 12 := rfl
    omega
  day_le := by
    have h := (locate_spec _ (locate_month n)).2.1
    simp only [Nat.add_sub_cancel]
    omega

/-- **Dates number the days.** -/
theorem days_ofDays (n : ℕ) : (ofDays n).days = n := by
  have h := (locate_spec _ (locate_month n)).2.2
  have := (yearOf_spec n).1
  simp only [Date.days, ofDays, Nat.add_sub_cancel]
  omega

/-- The years up to `9999` are those of the first `3652059` days. -/
lemma year_ofDays_le {n : ℕ} (h : n < 3652059) : (ofDays n).year ≤ 9999 := by
  obtain ⟨a, b, c, d, hy, hb, hc, hd, hlo, -⟩ := yearOf_cycles n
  show yearOf n ≤ 9999
  omega

end MongoSyncAgent.Calendar
