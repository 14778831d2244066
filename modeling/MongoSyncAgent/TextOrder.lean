import MongoSyncAgent.Timestamps

/-!
The order of timestamp strings, which is that of the instants they were made from: every field
has its width, and the fields stand in the order of their weight.
-/

namespace MongoSyncAgent.Calendar

/-! ### The order of dates -/

lemma succ_div (n k : ℕ) :
    (n + 1) / k = if (n + 1) % k = 0 then n / k + 1 else n / k := by
  rw [Nat.succ_div]
  split_ifs <;> simp_all [Nat.dvd_iff_mod_eq_zero]

lemma daysBeforeYear_succ {y : ℕ} (h : 1 ≤ y) :
    daysBeforeYear (y + 1) = daysBeforeYear y + yearLength y := by
  obtain ⟨n, rfl⟩ : ∃ n, y = n + 1 := ⟨y - 1, by omega⟩
  have hle : n / 100 ≤ n / 4 := Nat.div_le_div_left (by decide) (by decide)
  have h100 : (n + 1) % 100 = 0 → (n + 1) % 4 = 0 := by omega
  have h400 : (n + 1) % 400 = 0 → (n + 1) % 100 = 0 := by omega
  unfold daysBeforeYear yearLength
  rw [Nat.add_sub_cancel, Nat.add_sub_cancel, succ_div n 4,
    succ_div n 100, succ_div n 400]
  by_cases c4 : (n + 1) % 4 = 0
  · by_cases c100 : (n + 1) % 100 = 0
    · by_cases c400 : (n + 1) % 400 = 0
      · have hleap : isLeap (n + 1) := ⟨c4, .inr c400⟩
        rw [if_pos c4, if_pos c100, if_pos c400, if_pos hleap]
        omega
      · have hleap : ¬ isLeap (n + 1) := fun h => h.2.elim (· c100) c400
        rw [if_pos c4, if_pos c100, if_neg c400, if_neg hleap]
        omega
    · have hleap : isLeap (n + 1) := ⟨c4, .inl c100⟩
      rw [if_pos c4, if_neg c100, if_neg fun h => c100 (h400 h), if_pos hleap]
      omega
  · have hleap : ¬ isLeap (n + 1) := fun h => c4 h.1
    rw [if_neg c4, if_neg fun h => c4 (h100 h), if_neg fun h => c4 (h100 (h400 h)), if_neg hleap]
    omega

lemma daysBeforeYear_mono {y z : ℕ} (hy : 1 ≤ y) (h : y ≤ z) :
    daysBeforeYear y ≤ daysBeforeYear z := by
  induction z, h using Nat.le_induction with
  | base => exact le_rfl
  | succ z hz ih =>
    rw [daysBeforeYear_succ (hy.trans hz)]
    omega

/-- The pieces before one piece, and the piece itself, come before any later one. -/
lemma take_sum_lt (ls : List ℕ) {i j : ℕ} (h : i < j) :
    (ls.take i).sum + ls.getD i 0 ≤ (ls.take j).sum := by
  induction ls generalizing i j with
  | nil => simp
  | cons l ls ih =>
    obtain ⟨j, rfl⟩ : ∃ k, j = k + 1 := ⟨j - 1, by omega⟩
    cases i with
    | zero => simp
    | succ i =>
      have hih := ih (i := i) (j := j) (by omega)
      simp only [List.take_succ_cons, List.sum_cons, List.getD_cons_succ]
      omega

lemma take_sum_le (ls : List ℕ) (i : ℕ) : (ls.take i).sum ≤ ls.sum := by
  have h := congrArg List.sum (List.take_append_drop i ls)
  rw [List.sum_append] at h
  omega

namespace Date

/-- The day of the year, counted from zero. -/
lemma days_lt (a : Date) : a.days < daysBeforeYear a.year + yearLength a.year := by
  have hlast := take_sum_lt (monthLengths a.year) (Nat.lt_succ_self (a.month - 1))
  have hall := take_sum_le (monthLengths a.year) (a.month - 1).succ
  rw [sum_monthLengths] at hall
  have hday := a.day_le
  unfold days
  omega

lemma days_lt_of_year {a b : Date} (h : a.year < b.year) : a.days < b.days := by
  have hyear := daysBeforeYear_mono (y := a.year + 1) (by omega) h
  rw [daysBeforeYear_succ a.year_pos] at hyear
  have ha := a.days_lt
  have hb : daysBeforeYear b.year ≤ b.days := by unfold days; omega
  omega

lemma days_lt_of_month {a b : Date} (hyear : a.year = b.year) (h : a.month < b.month) :
    a.days < b.days := by
  have hmonths := take_sum_lt (monthLengths a.year) (i := a.month - 1) (j := b.month - 1)
    (by have := a.month_le; omega)
  have hday := a.day_le
  unfold days
  rw [← hyear]
  omega

/-- **Dates are in the order of their years, months and days.** -/
theorem lex_of_days_lt {a b : Date} (h : a.days < b.days) :
    a.year < b.year ∨ a.year = b.year ∧
      (a.month < b.month ∨ a.month = b.month ∧ a.day < b.day) := by
  rcases lt_trichotomy a.year b.year with hy | hy | hy
  · exact .inl hy
  · refine .inr ⟨hy, ?_⟩
    rcases lt_trichotomy a.month b.month with hm | hm | hm
    · exact .inl hm
    · refine .inr ⟨hm, ?_⟩
      have ha := a.day_le
      unfold days at h
      rw [hy, hm] at h
      omega
    · exact absurd h (days_lt_of_month hy.symm hm).not_gt
  · exact absurd h (days_lt_of_year hy).not_gt

end Date

end MongoSyncAgent.Calendar

namespace MongoSyncAgent.Timestamps

open MongoSyncAgent.Py MongoSyncAgent.Numerals MongoSyncAgent.Calendar

/-! ### The order of the strings -/

lemma padded_lt {w m n : ℕ} (hn : n < 10 ^ w) (h : m < n) (x y : List Char) :
    padded w m ++ x < padded w n ++ y :=
  lt_append_of_lt _ _ (by simp [padded]) (pad_lt (by omega) (by omega) hn h)

/-- Behind the same field and separator, the rest decides. -/
lemma append_cons_lt {x y : List Char} (u : List Char) (c : Char) (h : x < y) :
    u ++ c :: x < u ++ c :: y :=
  List.append_left_lt (List.Lex.cons h)

lemma tsChars_congr {d e : Datetime} (h : d.wall / 1000 = e.wall / 1000) :
    tsChars d = tsChars e := by
  have hdate : d.date = e.date := by
    unfold Datetime.date dayMicros
    congr 1
    omega
  have hhour : d.hour = e.hour := by unfold Datetime.hour; omega
  have hminute : d.minute = e.minute := by unfold Datetime.minute; omega
  have hsecond : d.second = e.second := by unfold Datetime.second; omega
  have hmillis : d.microsecond / 1000 = e.microsecond / 1000 := by
    unfold Datetime.microsecond; omega
  unfold tsChars
  rw [hdate, hhour, hminute, hsecond, hmillis]

/-- The clock at an earlier time of the same day. -/
lemma clock_lex {d e : Datetime} (hday : d.date = e.date)
    (h : d.wall / 1000 < e.wall / 1000) :
    d.hour < e.hour ∨ d.hour = e.hour ∧ (d.minute < e.minute ∨ d.minute = e.minute ∧
      (d.second < e.second ∨ d.second = e.second ∧
        d.microsecond / 1000 < e.microsecond / 1000)) := by
  have hd := d.wall_eq
  have he := e.wall_eq
  rw [hday] at hd
  have hm : e.minute < 60 := Nat.mod_lt _ (by omega)
  have hs : e.second < 60 := Nat.mod_lt _ (by omega)
  have hu : e.microsecond < 1000000 := Nat.mod_lt _ (by omega)
  have hlt : d.wall < e.wall := by omega
  generalize e.date.days * dayMicros = base at hd he
  rcases lt_trichotomy d.hour e.hour with hh | hh | hh
  · exact .inl hh
  · refine .inr ⟨hh, ?_⟩
    rcases lt_trichotomy d.minute e.minute with hmin | hmin | hmin
    · exact .inl hmin
    · refine .inr ⟨hmin, ?_⟩
      rcases lt_trichotomy d.second e.second with hsec | hsec | hsec
      · exact .inl hsec
      · refine .inr ⟨hsec, ?_⟩
        have hd' : d.microsecond % 1000 = d.wall % 1000 := by unfold Datetime.microsecond; omega
        have he' : e.microsecond % 1000 = e.wall % 1000 := by unfold Datetime.microsecond; omega
        omega
      · omega
    · omega
  · omega

/-- **Timestamp strings compare as their times do**, to the millisecond. -/
theorem tsChars_lt {d e : Datetime} (h : d.wall / 1000 < e.wall / 1000) :
    tsChars d < tsChars e := by
  have hy := e.date_year_le
  have hm := e.date.month_le
  have hd := day_le e.date
  have hh : e.hour < 24 := Nat.mod_lt _ (by omega)
  have hmi : e.minute < 60 := Nat.mod_lt _ (by omega)
  have hs : e.second < 60 := Nat.mod_lt _ (by omega)
  have hus : e.microsecond < 1000000 := Nat.mod_lt _ (by omega)
  have hle : d.wall / dayMicros ≤ e.wall / dayMicros := by unfold dayMicros; omega
  unfold tsChars
  -- the first field in which the two differ is less in the earlier one
  rcases hle.lt_or_eq with hlt | hday
  · have hdays : d.date.days < e.date.days := by
      unfold Datetime.date
      rwa [days_ofDays, days_ofDays]
    rcases Date.lex_of_days_lt hdays with hyear | ⟨hyear, hmonth | ⟨hmonth, hdate⟩⟩
    · exact padded_lt (by omega) hyear _ _
    · rw [hyear]
      exact append_cons_lt _ _ (padded_lt (by omega) hmonth _ _)
    · rw [hyear, hmonth]
      exact append_cons_lt _ _ (append_cons_lt _ _ (padded_lt (by omega) hdate _ _))
  · have hdate : d.date = e.date := by unfold Datetime.date; rw [hday]
    rw [hdate]
    refine append_cons_lt _ _ (append_cons_lt _ _ (append_cons_lt _ _ ?_))
    rcases clock_lex hdate h with
      hhour | ⟨hhour, hmin | ⟨hmin, hsec | ⟨hsec, hmillis⟩⟩⟩
    · exact padded_lt (by omega) hhour _ _
    · rw [hhour]
      exact append_cons_lt _ _ (padded_lt (by omega) hmin _ _)
    · rw [hhour, hmin]
      exact append_cons_lt _ _ (append_cons_lt _ _ (padded_lt (by omega) hsec _ _))
    · rw [hhour, hmin, hsec]
      exact append_cons_lt _ _ (append_cons_lt _ _ (append_cons_lt _ _
        (padded_lt (by omega) hmillis _ _)))

/-- **Later times have greater strings.** -/
theorem formatTs_le {d e : Datetime} {a b : String} (hd : formatTs d = .ok a)
    (he : formatTs e = .ok b) (h : d.instant ≤ e.instant) : a ≤ b := by
  obtain ⟨u, hu, ha⟩ := bind_ok hd
  obtain ⟨v, hv, hb⟩ := bind_ok he
  obtain rfl := Except.ok.inj ha
  obtain rfl := Except.ok.inj hb
  have hwall : u.wall / 1000 ≤ v.wall / 1000 := by
    have hu' := toUtc_wall hu
    have hv' := toUtc_wall hv
    omega
  rcases hwall.lt_or_eq with hlt | heq
  · refine String.not_lt.mp fun hgt => ?_
    rw [String.lt_iff, String.toList_ofList, String.toList_ofList] at hgt
    exact List.lt_asymm hgt (tsChars_lt hlt)
  · have hsame : String.ofList (tsChars u) = String.ofList (tsChars v) :=
      congrArg String.ofList (tsChars_congr heq)
    exact hsame ▸ String.le_refl _

end MongoSyncAgent.Timestamps
