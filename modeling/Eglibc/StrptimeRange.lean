import Eglibc.StrptimeParse

/-!
# The ranges of the derived fields

Model of the end of `__strptime_internal` of `time/strptime_l.c`.
-/
namespace Eglibc.Strptime
open Checked Calendar Offtime

/-- `__isleap (1900 + tm->tm_year)` -/
def leapYear (tm : Tm) : Bool := isleap (int (1900 + tm.year))

def searchBody (leap : Bool) (yday tMon : ℤ) : Run (ℤ ⊕ ℤ) := do
  if (← daysBefore leap tMon) ≤ yday then .ok (.inl (tMon + 1)) else .ok (.inr tMon)

/-- The first month that starts after the day. A row has thirteen entries. -/
def searchMonth (leap : Bool) (yday : ℤ) : Run ℤ := iterate (searchBody leap yday) 14 0

/-- The month and the day of the month, where they are missing, from the day of the year. -/
def fillMonth (s : State) (tm : Tm) : Run Tm := do
  let tMon ← searchMonth (leapYear tm) tm.yday
  let mon := if s.haveMon then tm.mon else tMon - 1
  if s.haveMday then .ok { tm with mon }
  else do
    let before ← daysBefore (leapYear tm) (tMon - 1)
    .ok { tm with mon, mday := tm.yday - before + 1 }

/-- `if (s.have_I && s.is_pm) tm->tm_hour += 12` -/
def adjustHour (s : State) (tm : Tm) : Tm :=
  if s.have_I ∧ s.isPm then { tm with hour := tm.hour + 12 } else tm

/-- The year with the century, and what is left to do for an era that was not found. -/
def adjustYear (s : State) (tm : Tm) : Tm :=
  let tm :=
    if s.century ≠ -1 then
      if s.wantCentury then { tm with year := tm.year.tmod 100 + (s.century - 19) * 100 }
      else { tm with year := (s.century - 19) * 100 }
    else tm
  if s.wantEra ∧ s.wantCentury ∧ s.century = -1 ∧ tm.year < 69 then { tm with year := tm.year + 100 }
  else tm

def completeDate (s : State) (tm : Tm) : Run (State × Tm) :=
  if ¬ (s.haveMon ∧ s.haveMday) ∧ s.haveYday then do
    let tm ← fillMonth s tm
    .ok ({ s with haveMon := true, haveMday := true }, tm)
  else .ok (s, tm)

def completeWday (s : State) (tm : Tm) : Run (State × Tm) :=
  if s.wantXday ∧ ¬ s.haveWday then do
    let (s, tm) ← completeDate s tm
    if s.haveMon ∨ (0 ≤ tm.mon ∧ tm.mon ≤ 11) then do .ok (s, ← dayOfTheWeek tm)
    else .ok (s, tm)
  else .ok (s, tm)

def completeYday (s : State) (tm : Tm) : Run Tm :=
  if s.wantXday ∧ ¬ s.haveYday ∧ (s.haveMon ∨ (0 ≤ tm.mon ∧ tm.mon ≤ 11)) then dayOfTheYear tm
  else .ok tm

/-- The day of the year of a weekday in a week; `first` is the weekday of January 1st. -/
def weekYday (s : State) (wday first : ℤ) : ℤ :=
  let offset := if s.haveUweek then 0 else 1
  (7 - (first - offset)).tmod 7 + (s.weekNo - 1) * 7 + (wday - offset + 7).tmod 7

def completeWeek (s : State) (tm : Tm) : Run Tm :=
  if (s.haveUweek ∨ s.haveWweek) ∧ s.haveWday then do
    let first ← dayOfTheWeek { tm with mday := 1, mon := 0 }
    let date := { tm with
      mday := if s.haveMday then tm.mday else 1
      mon := if s.haveMon then tm.mon else 0
      yday := if s.haveYday then tm.yday else weekYday s tm.wday first.wday }
    if ¬ s.haveMday ∨ ¬ s.haveMon then fillMonth s date else .ok date
  else .ok tm

def complete (s : State) (tm : Tm) : Run Tm := do
  let (s, tm) ← completeWday s tm
  let tm ← completeYday s tm
  completeWeek s tm

def derive (s : State) (tm : Tm) : Run Tm := complete s (adjustYear s (adjustHour s tm))

/-- `strptime`: the rest of the input and the fields, or nothing if the input does not match -/
def strptime (clock : Clock) (rp fmt : List Char) (tm : Tm) : Run (Option (List Char × Tm)) :=
  match parse clock rp fmt tm with
  | none => .ok none
  | some p => do .ok (some (p.rp, ← derive p.s p.tm))

/-! ### When the fields stay in range -/

def daysOfYear (tm : Tm) : ℤ := yearLength (int (1900 + tm.year))

/-- The weekday that `day_of_the_week` gives for January 1st. -/
def newYearsDay (year : ℤ) : ℤ :=
  match dayOfTheWeek ⟨0, 0, 0, 1, 0, year, 0, 0, 0⟩ with
  | .ok tm => tm.wday
  | .error _ => 0

/-- The first Sunday of a year that begins on the weekday `first`, or its first Monday if
weeks are counted from Mondays. -/
def weekOne (s : State) (first : ℤ) : ℤ := ((if s.haveUweek then 0 else 1) - first) % 7

/-- The day of the year, counted from 0, is the weekday that was read in the week that
was read. Week 1 begins on the first Sunday or Monday, and the days before it are
week 0. -/
structure OfWeek (s : State) (wday first day : ℤ) : Prop where
  weekday : (first + day) % 7 = wday
  week : weekOne s first + 7 * (s.weekNo - 1) ≤ day ∧ day < weekOne s first + 7 * s.weekNo

/-- The day of the year that was read, by its number or by a week and a weekday. -/
def Names (s : State) (tm : Tm) (day : ℤ) : Prop :=
  if s.haveYday then day = tm.yday else OfWeek s tm.wday (newYearsDay tm.year) day

/-- The format leaves a date that can be derived: the hour before `PM` is one of a half
day, a day of the year that has to give the month is one of the year, and so is the day
that a week and a weekday name. -/
structure Derivable (s : State) (tm : Tm) : Prop where
  hour : s.have_I → s.isPm → tm.hour ≤ 11
  yday : s.wantXday → ¬ s.haveWday → ¬ (s.haveMon ∧ s.haveMday) → s.haveYday →
    tm.yday < daysOfYear (adjustYear s tm)
  week : s.haveUweek ∨ s.haveWweek → s.haveWday → ∀ day, Names s (adjustYear s tm) day →
    (0 ≤ day ∧ day ≤ 365) ∧ (¬ (s.haveMon ∧ s.haveMday) → day < daysOfYear (adjustYear s tm))

section
variable {y yday : ℤ}

lemma searchBody_eq {m : ℕ} (hm : m ≤ 12) : searchBody (isleap y) yday m =
    if monthStart y m ≤ yday then .ok (.inl ((m : ℤ) + 1)) else .ok (.inr (m : ℤ)) := by
  rw [searchBody, daysBefore_eq y hm, ok_bind]

lemma searchMonth_returns (h : 0 ≤ yday ∧ yday < yearLength y) :
    Returns (searchMonth (isleap y) yday) fun t => ∃ m : ℕ, t = (m : ℤ) + 1 ∧ m < 12 ∧
      monthStart y m ≤ yday ∧ yday < monthStart y (m + 1) := by
  refine iterate_returns (I := fun t => ∃ m : ℕ, t = (m : ℤ) ∧ m ≤ 12 ∧
    (0 < m → monthStart y (m - 1) ≤ yday)) (fun t => (13 - t).toNat) ?_ ⟨0, by simp⟩ (by decide)
  rintro t ⟨m, rfl, hm, hbefore⟩
  rw [searchBody_eq hm]
  split_ifs with hle
  · have hlt : m < 12 := by
      by_contra hge
      obtain rfl : m = 12 := by omega
      rw [monthStart_twelve] at hle
      omega
    refine returns_ok ⟨⟨m + 1, by simp, by omega, fun _ => hle⟩, ?_⟩
    dsimp only
    omega
  have hpos : 0 < m := by
    by_contra h0
    obtain rfl : m = 0 := by omega
    rw [monthStart_zero] at hle
    omega
  refine returns_ok ⟨m - 1, by omega, by omega, hbefore hpos, ?_⟩
  rw [Nat.sub_add_cancel hpos]
  omega

lemma searchMonth_leaves (h : yearLength y ≤ yday) :
    searchMonth (isleap y) yday = .error (.read 13) := by
  have hpasses : ∀ k ≤ 13, iterate (searchBody (isleap y) yday) (k + 1) (13 - k : ℕ) =
      .error (.read 13) := by
    intro k hk
    induction k with
    | zero => cases isleap y <;> rfl
    | succ k ih =>
      have hmono := (monthStart_strictMono y).monotone (show 13 - (k + 1) ≤ 12 by omega)
      rw [monthStart_twelve] at hmono
      have hstep : searchBody (isleap y) yday ((13 - (k + 1) : ℕ) : ℤ) = _ :=
        searchBody_eq (show 13 - (k + 1) ≤ 12 by omega)
      rw [if_pos (hmono.trans h), show ((13 - (k + 1) : ℕ) : ℤ) + 1 = (13 - k : ℕ) by omega] at hstep
      rw [iterate_next hstep]
      exact ih (by omega)
  exact hpasses 13 le_rfl

end

section
variable {s : State} {tm : Tm}

lemma fillMonth_returns (h : DateInRange tm) (hy : tm.yday < daysOfYear tm) :
    Returns (fillMonth s tm) fun tm' => ∃ mon mday, tm' = { tm with mon, mday } ∧ DateInRange tm' := by
  have hmonths : ∀ {m : ℕ}, m ≤ 12 → daysBefore (leapYear tm) m =
      .ok (monthStart (int (1900 + tm.year)) m) := fun hm => daysBefore_eq _ hm
  refine (searchMonth_returns ⟨h.yday.1, hy⟩).bind ?_
  rintro _ ⟨m, rfl, hm, hlow, hhigh⟩
  have hlen := monthLength_le (int (1900 + tm.year)) m
  rw [monthStart_succ] at hhigh
  have hmon := h.mon
  rw [show (m : ℤ) + 1 - 1 = m by ring, hmonths (by omega)]
  by_cases hmday : s.haveMday
  · rw [if_pos hmday]
    exact returns_ok ⟨_, tm.mday, rfl, { h with mon := by dsimp only; split_ifs <;> omega }⟩
  rw [if_neg hmday]
  exact returns_ok ⟨_, _, rfl, { h with
    mon := by dsimp only; split_ifs <;> omega
    mday := by dsimp only; omega }⟩

lemma fillMonth_frame {tm' : Tm} (h : fillMonth s tm = .ok tm') :
    ∃ mon mday, tm' = { tm with mon, mday } := by
  obtain ⟨t, -, h⟩ := ok_of_bind h
  by_cases hmday : s.haveMday
  · rw [if_pos hmday] at h
    cases h
    exact ⟨_, _, rfl⟩
  rw [if_neg hmday] at h
  obtain ⟨before, -, h⟩ := ok_of_bind h
  cases h
  exact ⟨_, _, rfl⟩

lemma fillMonth_leaves (h : daysOfYear tm ≤ tm.yday) : fillMonth s tm = .error (.read 13) := by
  rw [fillMonth, leapYear, searchMonth_leaves h, error_bind]

lemma dayOfTheWeek_returns (h : 0 ≤ tm.mon ∧ tm.mon ≤ 11) :
    Returns (dayOfTheWeek tm) fun tm' => ∃ wday, tm' = { tm with wday } ∧ 0 ≤ wday ∧ wday ≤ 6 := by
  obtain ⟨m, hm⟩ := Int.eq_ofNat_of_zero_le h.1
  rw [dayOfTheWeek, hm]
  dsimp only
  rw [show false = isleap 1 from rfl, daysBefore_eq 1 (by omega), ok_bind, tmod_tmod_seven]
  exact returns_ok ⟨_, rfl, Int.emod_nonneg _ (by omega),
    Int.le_of_lt_add_one (Int.emod_lt_of_pos _ (by omega))⟩

lemma newYearsDay_eq (tm : Tm) : dayOfTheWeek { tm with mday := 1, mon := 0 } =
    .ok { tm with mday := 1, mon := 0, wday := newYearsDay tm.year } := by
  have hstart : daysBefore false 0 = .ok 0 := rfl
  simp only [newYearsDay, dayOfTheWeek, hstart, ok_bind]

lemma newYearsDay_mem (year : ℤ) : 0 ≤ newYearsDay year ∧ newYearsDay year ≤ 6 := by
  obtain ⟨_, hrun, wday, rfl, hw⟩ :=
    @dayOfTheWeek_returns ⟨0, 0, 0, 1, 0, year, 0, 0, 0⟩ ⟨le_rfl, by dsimp only; omega⟩
  rwa [newYearsDay, hrun]

/-- For the years that `%Y` reads, apart from year 0, it is the calendar's. -/
lemma newYearsDay_calendar {year : ℤ} (h : 1 ≤ year ∧ year ≤ 9999) :
    newYearsDay (year - 1900) = (4 + yearStart year) % 7 := by
  let c : Civil := ⟨year, 0, 1, 0, 0, 0, by decide, ⟨le_rfl, by simp [monthLength]⟩, by decide,
    zero_mem_sixty, zero_mem_sixty⟩
  have hdate : Dated ⟨0, 0, 0, 1, 0, year - 1900, 0, 0, 0⟩ c := ⟨rfl, rfl, rfl⟩
  have hyear : 0 ≤ corrected c.year c.month := by
    simp only [corrected, c]
    omega
  rw [newYearsDay, dayOfTheWeek_eq hdate ⟨by dsimp only [c]; omega, h.2⟩, leapDays_eq hyear]
  simp [c, Civil.wday, Civil.dayNumber, Civil.yday, monthStart_zero]

lemma ofWeek_iff {wday first day : ℤ} (hw : 0 ≤ wday ∧ wday ≤ 6) (hf : 0 ≤ first ∧ first ≤ 6) :
    OfWeek s wday first day ↔ day = weekYday s wday first := by
  have hiff : OfWeek s wday first day ↔ (first + day) % 7 = wday ∧
      weekOne s first + 7 * (s.weekNo - 1) ≤ day ∧ day < weekOne s first + 7 * s.weekNo :=
    ⟨fun h => ⟨h.weekday, h.week⟩, fun h => ⟨h.1, h.2⟩⟩
  rw [hiff, weekYday, weekOne]
  split_ifs <;>
    rw [Int.tmod_eq_emod_of_nonneg (by omega), Int.tmod_eq_emod_of_nonneg (by omega)] <;> omega

/-- The day of the year that the code stores for a week. -/
def dayByWeek (s : State) (tm : Tm) : ℤ :=
  if s.haveYday then tm.yday else weekYday s tm.wday (newYearsDay tm.year)

lemma names_iff {day : ℤ} (hw : 0 ≤ tm.wday ∧ tm.wday ≤ 6) :
    Names s tm day ↔ day = dayByWeek s tm := by
  unfold Names dayByWeek
  split_ifs
  · rfl
  · exact ofWeek_iff hw (newYearsDay_mem _)

lemma dayOfTheYear_returns (h : DateInRange tm) :
    Returns (dayOfTheYear tm) fun tm' => ∃ yday, tm' = { tm with yday } ∧ 0 ≤ yday ∧ yday ≤ 365 := by
  obtain ⟨m, hm⟩ := Int.eq_ofNat_of_zero_le h.mon.1
  have hmon := h.mon
  have hmday := h.mday
  have hlast : monthStart (int (1900 + tm.year)) 11 + 31 = yearLength (int (1900 + tm.year)) := by
    rw [← monthStart_twelve, monthStart_succ _ 11]
    rfl
  have hlow := (monthStart_strictMono (int (1900 + tm.year))).monotone (Nat.zero_le m)
  have hhigh := (monthStart_strictMono (int (1900 + tm.year))).monotone (show m ≤ 11 by omega)
  have hlen := yearLength_mem (int (1900 + tm.year))
  rw [monthStart_zero] at hlow
  rw [dayOfTheYear, hm, daysBefore_eq _ (by omega), ok_bind, int_eq (by omega)]
  exact returns_ok ⟨_, by rw [← hm], by omega, by omega⟩

lemma adjust_eq (s : State) (tm : Tm) : adjustYear s (adjustHour s tm) =
    { tm with hour := (adjustHour s tm).hour, year := (adjustYear s tm).year } := by
  unfold adjustYear adjustHour
  dsimp only
  split_ifs <;> rfl

lemma completeWday_returns (h : DateInRange tm)
    (hy : s.wantXday → ¬ s.haveWday → ¬ (s.haveMon ∧ s.haveMday) → s.haveYday →
      tm.yday < daysOfYear tm) :
    Returns (completeWday s tm) fun r => DateInRange r.2 ∧ r.2.hour = tm.hour ∧
      r.1.haveWday = s.haveWday ∧ (s.haveWday → r = (s, tm)) := by
  unfold completeWday
  split_ifs with hx
  · have hdate : Returns (completeDate s tm) fun r => DateInRange r.2 ∧ r.2.hour = tm.hour ∧
        r.1.haveWday = s.haveWday := by
      unfold completeDate
      split_ifs with hd
      · refine (fillMonth_returns h (hy hx.1 hx.2 hd.1 hd.2)).bind ?_
        rintro _ ⟨mon, mday, rfl, hdate⟩
        exact returns_ok ⟨hdate, rfl, rfl⟩
      · exact returns_ok ⟨h, rfl, rfl⟩
    refine hdate.bind ?_
    rintro ⟨s', tm'⟩ ⟨hrange, hhour, hwday⟩
    dsimp only at hrange hhour hwday ⊢
    rw [if_pos (.inr hrange.mon)]
    refine (dayOfTheWeek_returns hrange.mon).bind ?_
    rintro _ ⟨wday, rfl, hw⟩
    exact returns_ok ⟨{ hrange with wday := hw }, hhour, hwday, fun hhave => absurd hhave hx.2⟩
  · exact returns_ok ⟨h, rfl, rfl, fun _ => rfl⟩

lemma completeWday_leaves (hx : s.wantXday) (hw : ¬ s.haveWday) (hd : ¬ (s.haveMon ∧ s.haveMday))
    (hy : s.haveYday) (h : daysOfYear tm ≤ tm.yday) : completeWday s tm = .error (.read 13) := by
  rw [completeWday, if_pos ⟨hx, hw⟩, completeDate, if_pos ⟨hd, hy⟩, fillMonth_leaves h]
  rfl

lemma completeYday_returns (h : DateInRange tm) : Returns (completeYday s tm) fun tm' =>
    DateInRange tm' ∧ ∃ yday, tm' = { tm with yday } ∧ (s.haveYday → yday = tm.yday) := by
  unfold completeYday
  split_ifs with hx
  · refine (dayOfTheYear_returns h).mono ?_
    rintro _ ⟨yday, rfl, hy⟩
    exact ⟨{ h with yday := hy }, yday, rfl, fun hhave => absurd hhave hx.2.1⟩
  · exact returns_ok ⟨h, tm.yday, rfl, fun _ => rfl⟩

def weekDate (s : State) (tm : Tm) : Tm :=
  { tm with
    mday := if s.haveMday then tm.mday else 1
    mon := if s.haveMon then tm.mon else 0
    yday := dayByWeek s tm }

section
variable (hw : (s.haveUweek ∨ s.haveWweek) ∧ s.haveWday)
include hw

lemma completeWeek_eq : completeWeek s tm =
    if ¬ s.haveMday ∨ ¬ s.haveMon then fillMonth s (weekDate s tm) else .ok (weekDate s tm) := by
  rw [completeWeek, if_pos hw, newYearsDay_eq, ok_bind]
  rfl

lemma completeWeek_returns (h : DateInRange tm) (hday : 0 ≤ dayByWeek s tm ∧ dayByWeek s tm ≤ 365)
    (hyear : ¬ (s.haveMon ∧ s.haveMday) → dayByWeek s tm < daysOfYear tm) :
    Returns (completeWeek s tm) fun tm' => DateInRange tm' ∧ tm'.hour = tm.hour := by
  have hmday := h.mday
  have hmon := h.mon
  have hdate : DateInRange (weekDate s tm) := { h with
    mday := by dsimp only [weekDate]; split_ifs <;> omega
    mon := by dsimp only [weekDate]; split_ifs <;> omega
    yday := hday }
  rw [completeWeek_eq hw]
  split_ifs with hmissing
  · refine (fillMonth_returns hdate (hyear (by tauto))).mono ?_
    rintro _ ⟨mon, mday, rfl, hrange⟩
    exact ⟨hrange, rfl⟩
  · exact returns_ok ⟨hdate, rfl⟩

lemma completeWeek_frame {tm' : Tm} (h : completeWeek s tm = .ok tm') :
    tm'.hour = tm.hour ∧ tm'.yday = dayByWeek s tm := by
  rw [completeWeek_eq hw] at h
  split_ifs at h
  · obtain ⟨mon, mday, rfl⟩ := fillMonth_frame h
    exact ⟨rfl, rfl⟩
  · cases h
    exact ⟨rfl, rfl⟩

lemma completeWeek_leaves (hmissing : ¬ (s.haveMon ∧ s.haveMday))
    (h : daysOfYear tm ≤ dayByWeek s tm) : completeWeek s tm = .error (.read 13) := by
  rw [completeWeek_eq hw, if_pos (by tauto), fillMonth_leaves h]

end

lemma completeWeek_skips (hw : ¬ ((s.haveUweek ∨ s.haveWweek) ∧ s.haveWday)) :
    completeWeek s tm = .ok tm := if_neg hw

lemma complete_returns (h : DateInRange tm)
    (hy : s.wantXday → ¬ s.haveWday → ¬ (s.haveMon ∧ s.haveMday) → s.haveYday →
      tm.yday < daysOfYear tm) :
    ∃ s' tm', complete s tm = completeWeek s' tm' ∧ DateInRange tm' ∧ tm'.hour = tm.hour ∧
      (((s'.haveUweek ∨ s'.haveWweek) ∧ s'.haveWday) ↔
        ((s.haveUweek ∨ s.haveWweek) ∧ s.haveWday)) ∧
      (s.haveWday → s' = s ∧ dayByWeek s tm' = dayByWeek s tm ∧ daysOfYear tm' = daysOfYear tm) := by
  obtain ⟨⟨s', date⟩, hrun, hdate, hhour, hwday, hsame⟩ := completeWday_returns h hy
  obtain ⟨tm', hrun', hrange, yday, rfl, hkeep⟩ := completeYday_returns (s := s') hdate
  refine ⟨s', _, ?_, hrange, hhour, ?_, ?_⟩
  · rw [complete, hrun, ok_bind]
    dsimp only
    rw [hrun', ok_bind]
  · by_cases hhave : s.haveWday
    · obtain ⟨rfl, -⟩ := Prod.mk.inj (hsame hhave)
      rfl
    · rw [hwday]
      tauto
  · intro hhave
    obtain ⟨rfl, rfl⟩ := Prod.mk.inj (hsame hhave)
    refine ⟨rfl, ?_, rfl⟩
    unfold dayByWeek
    split_ifs with hy
    · exact hkeep hy
    · rfl

end

section
variable {s : State} {tm : Tm}

lemma adjustYear_eq (s : State) (tm : Tm) :
    adjustYear s tm = { tm with year := (adjustYear s tm).year } := by
  unfold adjustYear
  dsimp only
  split_ifs <;> rfl

lemma adjustHour_mem (h : 0 ≤ tm.hour ∧ tm.hour ≤ 23) :
    0 ≤ (adjustHour s tm).hour ∧ (adjustHour s tm).hour ≤ 23 ↔
      (s.have_I → s.isPm → tm.hour ≤ 11) := by
  unfold adjustHour
  split_ifs with hpm
  · dsimp only
    constructor
    · intro _ _ _
      omega
    · intro hle
      have := hle hpm.1 hpm.2
      omega
  · exact ⟨fun _ hI hp => absurd ⟨hI, hp⟩ hpm, fun _ => h⟩

lemma complete_inRange_iff (h : DateInRange tm) : Returns (complete s tm) InRange ↔
    (0 ≤ tm.hour ∧ tm.hour ≤ 23) ∧
      (s.wantXday → ¬ s.haveWday → ¬ (s.haveMon ∧ s.haveMday) → s.haveYday →
        tm.yday < daysOfYear tm) ∧
      (s.haveUweek ∨ s.haveWweek → s.haveWday →
        (0 ≤ dayByWeek s tm ∧ dayByWeek s tm ≤ 365) ∧
          (¬ (s.haveMon ∧ s.haveMday) → dayByWeek s tm < daysOfYear tm)) := by
  by_cases hyday : s.wantXday → ¬ s.haveWday → ¬ (s.haveMon ∧ s.haveMday) → s.haveYday →
      tm.yday < daysOfYear tm
  · obtain ⟨s', tm', hrun, hrange, hhour, hguard, hsame⟩ := complete_returns h hyday
    rw [hrun, ← hhour]
    by_cases hw : (s.haveUweek ∨ s.haveWweek) ∧ s.haveWday
    · obtain ⟨rfl, hday, hdays⟩ := hsame hw.2
      rw [← hday, ← hdays]
      constructor
      · rintro ⟨r, hr, hin⟩
        obtain ⟨hrhour, hryday⟩ := completeWeek_frame hw hr
        rw [← hrhour, ← hryday]
        refine ⟨hin.hour, fun _ hno => absurd hw.2 hno, fun _ _ => ⟨hin.yday, fun hmissing => ?_⟩⟩
        -- the search has not left the row
        by_contra hge
        rw [hryday] at hge
        rw [completeWeek_leaves hw hmissing (not_lt.mp hge)] at hr
        cases hr
      · rintro ⟨hin, -, hweek⟩
        obtain ⟨hmem, hlt⟩ := hweek hw.1 hw.2
        refine (completeWeek_returns hw hrange hmem hlt).mono ?_
        rintro r ⟨hr, hrhour⟩
        exact ⟨hr, hrhour ▸ hin⟩
    rw [completeWeek_skips (mt hguard.mp hw)]
    constructor
    · rintro ⟨_, ⟨⟩, hin⟩
      exact ⟨hin.hour, hyday, fun hu hwd => absurd ⟨hu, hwd⟩ hw⟩
    · rintro ⟨hin, -, -⟩
      exact returns_ok ⟨hrange, hin⟩
  have hleaves : complete s tm = .error (.read 13) := by
    push Not at hyday
    obtain ⟨hx, hw, hd, hy, hge⟩ := hyday
    rw [complete, completeWday_leaves hx (by simpa using hw) (by simpa using hd) hy hge]
    rfl
  rw [hleaves]
  constructor
  · rintro ⟨_, ⟨⟩, -⟩
  · rintro ⟨-, hall, -⟩
    exact absurd hall hyday

lemma derive_inRange_iff (h : InRange tm) : Returns (derive s tm) InRange ↔ Derivable s tm := by
  have hadjust := adjust_eq s tm
  have hyear := adjustYear_eq s tm
  have hrange : DateInRange (adjustYear s (adjustHour s tm)) := by
    rw [hadjust]
    exact { h with }
  have hdays : daysOfYear (adjustYear s (adjustHour s tm)) = daysOfYear (adjustYear s tm) := by
    rw [hadjust]
    rfl
  have hweek : dayByWeek s (adjustYear s (adjustHour s tm)) = dayByWeek s (adjustYear s tm) := by
    rw [hadjust, hyear]
    rfl
  have hnames : ∀ day, Names s (adjustYear s tm) day ↔ day = dayByWeek s (adjustYear s tm) := by
    intro day
    refine names_iff ?_
    rw [hyear]
    exact h.wday
  rw [derive, complete_inRange_iff hrange, hdays, hweek]
  rw [hadjust]
  rw [adjustHour_mem h.hour]
  constructor
  · rintro ⟨h₁, h₂, h₃⟩
    refine ⟨h₁, h₂, fun hu hwd day hday => ?_⟩
    rw [(hnames day).mp hday]
    exact h₃ hu hwd
  · rintro ⟨h₁, h₂, h₃⟩
    exact ⟨h₁, h₂, fun hu hwd => h₃ hu hwd _ ((hnames _).mpr rfl)⟩

end

/-- A successful call leaves the fields in range, and the lookups stay in the rows of the
table, exactly for the inputs whose fields can be derived. -/
theorem strptime_inRange_iff (clock : Clock) (rp fmt : List Char) (tm : Tm) (htm : InRange tm) :
    Returns (strptime clock rp fmt tm) (fun r => ∀ out ∈ r, InRange out.2) ↔
      ∀ p ∈ parse clock rp fmt tm, Derivable p.s p.tm := by
  have hsound := parse_sound clock rp fmt htm
  unfold strptime
  cases hp : parse clock rp fmt tm with
  | none =>
    have hnone : ∀ out ∈ (none : Option (List Char × Tm)), InRange out.2 := fun _ hmem => by
      cases hmem
    exact ⟨fun _ p hmem => (by cases hmem), fun _ => returns_ok hnone⟩
  | some p =>
    have hin : InRange p.tm := hsound p hp
    simp only [Option.mem_def, Option.some.injEq, forall_eq', ← derive_inRange_iff hin]
    constructor
    · rintro ⟨_, hrun, hout⟩
      obtain ⟨r, hr, hsome⟩ := ok_of_bind hrun
      cases hsome
      exact ⟨r, hr, hout _ rfl⟩
    · intro hret
      refine hret.bind fun r hr => returns_ok ?_
      rintro _ ⟨⟩
      exact hr

def newMillennium : Tm := ⟨0, 0, 0, 1, 0, 100, 6, 0, 0⟩

/-- The last day of a leap year. -/
theorem strptime_inRange_leap :
    Returns (strptime ⟨fun _ => none, nofun⟩ "2012 366".toList "%Y %j".toList newMillennium)
      fun r => ∀ out ∈ r, InRange out.2 := by
  refine (strptime_inRange_iff _ _ _ _ (inRange_iff.mpr (by decide))).mpr ?_
  intro p hp
  cases hp
  exact ⟨by decide, by decide, fun hweek => absurd hweek (by decide)⟩

/-- The 366th day of a common year takes the search out of its row. -/
theorem strptime_leaves_row :
    strptime ⟨fun _ => none, nofun⟩ "2013 366".toList "%Y %j".toList newMillennium =
      .error (.read 13) := by
  decide +kernel

end Eglibc.Strptime
