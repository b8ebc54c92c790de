import Eglibc.Offtime

/-!
# The derived fields of a parsed date

Model of `day_of_the_week` and `day_of_the_year` of `time/strptime_l.c`, which complete a
date from its year, month and day. An `int` that overflows wraps.
-/
namespace Eglibc.Strptime
open Checked Calendar Offtime

/-- `__mon_yday[leap][mon]`, within its row -/
def daysBefore (leap : Bool) (mon : ℤ) : Run ℤ :=
  if mon < 0 then .error (.read 0) else load (monYday leap) mon.toNat

def dayOfTheWeek (tm : Tm) : Run Tm := do
  let corrYear := int (1900 + tm.year - if tm.mon < 2 then 1 else 0)
  let before ← daysBefore false tm.mon
  let wday := int (-473 + 365 * (tm.year - 70) + corrYear.tdiv 4 - (corrYear.tdiv 4).tdiv 25 +
    (if (corrYear.tdiv 4).tmod 25 < 0 then 1 else 0) + ((corrYear.tdiv 4).tdiv 25).tdiv 4 + before +
    tm.mday - 1)
  .ok { tm with wday := (wday.tmod 7 + 7).tmod 7 }

def dayOfTheYear (tm : Tm) : Run Tm := do
  let before ← daysBefore (isleap (int (1900 + tm.year))) tm.mon
  .ok { tm with yday := int (before + (tm.mday - 1)) }

structure Dated (tm : Tm) (c : Civil) : Prop where
  year : tm.year = c.year - 1900
  mon : tm.mon = c.month
  mday : tm.mday = c.day

section

variable {tm : Tm} {c : Civil}

lemma daysBefore_eq (y : ℤ) {m : ℕ} (hm : m ≤ 12) :
    daysBefore (isleap y) m = .ok (monthStart y m) := by
  exact load_monYday y hm

lemma tmod_tmod_seven (x : ℤ) : (x.tmod 7 + 7).tmod 7 = x % 7 := by
  rw [Int.tmod_eq_emod, Int.tmod_eq_emod]
  split_ifs <;> omega

lemma monthStart_mem (hm : c.month < 12) : 0 ≤ monthStart c.year c.month ∧ monthStart c.year c.month ≤ 366 := by
  have hmono := (monthStart_strictMono c.year).monotone
  have hlow := hmono (Nat.zero_le c.month)
  have hhigh := hmono hm.le
  have hlength := yearLength_mem c.year
  rw [monthStart_zero] at hlow
  rw [monthStart_twelve] at hhigh
  omega

lemma dayOfTheYear_eq (h : Dated tm c) (hyear : 0 ≤ c.year ∧ c.year ≤ 9999) :
    dayOfTheYear tm = .ok { tm with yday := c.yday } := by
  have hmonth := monthStart_mem c.month_lt
  have hday := c.day_mem
  have hlength := monthLength_le c.year c.month
  have hbefore := daysBefore_eq c.year c.month_lt.le
  rw [dayOfTheYear, h.year, h.mon, h.mday, int_eq (by omega), show 1900 + (c.year - 1900) = c.year by ring,
    hbefore, ok_bind, int_eq (by omega), Civil.yday, Int.add_sub_assoc]

def leapDays (corrYear : ℤ) : ℤ :=
  corrYear.tdiv 4 - (corrYear.tdiv 4).tdiv 25 + (if (corrYear.tdiv 4).tmod 25 < 0 then 1 else 0) +
    ((corrYear.tdiv 4).tdiv 25).tdiv 4

lemma leapDays_eq {y : ℤ} (h : 0 ≤ y) : leapDays y = leapsThrough y := by
  unfold leapDays leapsThrough
  rw [Int.tdiv_eq_ediv_of_nonneg h, Int.tdiv_eq_ediv_of_nonneg (by omega),
    Int.tdiv_eq_ediv_of_nonneg (by omega), Int.tmod_eq_emod_of_nonneg (by omega), if_neg (by omega)]
  omega

lemma leapDays_before : leapDays (-1) = leapsThrough (-1) + 1 := by decide

lemma leapDays_mem {y : ℤ} (h : -1 ≤ y ∧ y ≤ 9999) : 0 ≤ leapDays y ∧ leapDays y ≤ 2500 := by
  rcases h.1.eq_or_lt with rfl | hlt
  · decide
  · rw [leapDays_eq hlt]
    unfold leapsThrough
    omega

def corrected (year : ℤ) (month : ℕ) : ℤ := if month < 2 then year - 1 else year

lemma dayOfTheWeek_eq (h : Dated tm c) (hyear : 0 ≤ c.year ∧ c.year ≤ 9999) :
    dayOfTheWeek tm = .ok { tm with
      wday := (c.wday + (leapDays (corrected c.year c.month) -
        leapsThrough (corrected c.year c.month))) % 7 } := by
  have hmonth := monthStart_mem c.month_lt
  have hday := c.day_mem
  have hlength := monthLength_le c.year c.month
  have hbefore := daysBefore_eq 1 c.month_lt.le
  have hstart := yearStart_add_monthStart c.year c.month
  have hcommon := monthStart_eq c.year c.month
  have hcorr : 1900 + (c.year - 1900) - (if (c.month : ℤ) < 2 then 1 else 0) = corrected c.year c.month := by
    unfold corrected
    split_ifs <;> omega
  have hmem : -1 ≤ corrected c.year c.month ∧ corrected c.year c.month ≤ 9999 := by
    unfold corrected
    split_ifs <;> omega
  have hleap := leapDays_mem hmem
  have hepoch : leapsThrough 1969 = 477 := by decide
  change yearStart c.year + monthStart c.year c.month = 365 * (c.year - 1970) +
    leapsThrough (corrected c.year c.month) - leapsThrough 1969 + monthStart 1 c.month at hstart
  rw [dayOfTheWeek, h.year, h.mon, h.mday, hcorr, int_eq (by omega)]
  generalize corrected c.year c.month = y at *
  have hsum : -473 + 365 * (c.year - 1900 - 70) + y.tdiv 4 - (y.tdiv 4).tdiv 25 +
      (if (y.tdiv 4).tmod 25 < 0 then 1 else 0) + ((y.tdiv 4).tdiv 25).tdiv 4 + monthStart 1 c.month +
      c.day - 1 = -474 + 365 * (c.year - 1970) + leapDays y + monthStart 1 c.month + c.day := by
    unfold leapDays
    ring
  dsimp only
  rw [show false = isleap 1 from rfl, hbefore, ok_bind, hsum, int_eq (by split_ifs at hcommon <;> omega),
    tmod_tmod_seven]
  congr 2
  unfold Civil.wday Civil.dayNumber Civil.yday
  omega

end

/-- The day of the week and the day of the year are right for every date but those in
January and February of the year 0. -/
theorem date_fields_iff (c : Civil) (tm : Tm) (htm : Dated tm c) (hyear : 0 ≤ c.year ∧ c.year ≤ 9999) :
    (dayOfTheWeek tm = .ok { tm with wday := c.wday } ∧ dayOfTheYear tm = .ok { tm with yday := c.yday }) ↔
      ¬ (c.year = 0 ∧ c.month < 2) := by
  have hwday : 0 ≤ c.wday ∧ c.wday < 7 := by
    unfold Civil.wday
    omega
  have hweek : dayOfTheWeek tm = .ok { tm with wday := c.wday } ↔
      (c.wday + (leapDays (corrected c.year c.month) - leapsThrough (corrected c.year c.month))) % 7 =
        c.wday := by
    rw [dayOfTheWeek_eq htm hyear, Except.ok.injEq, Tm.mk.injEq]
    simp
  rw [hweek, dayOfTheYear_eq htm hyear, eq_self_iff_true, and_true]
  by_cases hbefore : c.year = 0 ∧ c.month < 2
  · have hminus : corrected c.year c.month = -1 := by
      rw [corrected, if_pos hbefore.2, hbefore.1]
      rfl
    rw [hminus, leapDays_before]
    omega
  have hnonneg : 0 ≤ corrected c.year c.month := by
    unfold corrected
    split_ifs <;> omega
  rw [leapDays_eq hnonneg]
  omega

def marchZero : Civil := ⟨0, 2, 1, 0, 0, 0, by decide, by decide, by decide, zero_mem_sixty, zero_mem_sixty⟩

theorem date_fields_march :
    dayOfTheWeek ⟨0, 0, 0, 1, 2, -1900, 0, 0, 0⟩ = .ok ⟨0, 0, 0, 1, 2, -1900, marchZero.wday, 0, 0⟩ ∧
      dayOfTheYear ⟨0, 0, 0, 1, 2, -1900, 0, 0, 0⟩ = .ok ⟨0, 0, 0, 1, 2, -1900, 0, marchZero.yday, 0⟩ :=
  (date_fields_iff marchZero ⟨0, 0, 0, 1, 2, -1900, 0, 0, 0⟩ ⟨rfl, rfl, rfl⟩ (by decide)).mpr (by decide)

def januaryZero : Civil := ⟨0, 0, 1, 0, 0, 0, by decide, by decide, by decide, zero_mem_sixty, zero_mem_sixty⟩

theorem january_zero_taken_for_sunday : januaryZero.wday = 6 ∧
      dayOfTheWeek ⟨0, 0, 0, 1, 0, -1900, 0, 0, 0⟩ = .ok ⟨0, 0, 0, 1, 0, -1900, 0, 0, 0⟩ := by
  decide

end Eglibc.Strptime
