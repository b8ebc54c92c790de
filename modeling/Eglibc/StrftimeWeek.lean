import Eglibc.Offtime

/-!
# Weeks in strftime

The weeks of `%G`, `%V`, `%U` and `%W` in `time/strftime_l.c`, for years that fit in an
`int` also after their adjustment.
-/
namespace Eglibc.Strftime
open Calendar Offtime

def isoWeekDays (yday wday : ℤ) : ℤ :=
  let bigEnoughMultipleOf7 := ((366 : ℤ).tdiv 7 + 2) * 7
  yday - (yday - wday + 4 + bigEnoughMultipleOf7).tmod 7 + 4 - 1

/-- The values of `year` and `days` for `%G` and `%V` -/
def isoYearDays (tmYear yday wday : ℤ) : ℤ × ℤ :=
  let year := tmYear + 1900
  let days := isoWeekDays yday wday
  if days < 0 then
    let year := year - 1
    (year, isoWeekDays (yday + (365 + if isleap year then 1 else 0)) wday)
  else
    let d := isoWeekDays (yday - (365 + if isleap year then 1 else 0)) wday
    if 0 ≤ d then (year + 1, d) else (year, days)

def weekG (tmYear yday wday : ℤ) : ℤ := (isoYearDays tmYear yday wday).1

def weekV (tmYear yday wday : ℤ) : ℤ := (isoYearDays tmYear yday wday).2.tdiv 7 + 1

def weekU (yday wday : ℤ) : ℤ := (yday - wday + 7).tdiv 7

def weekW (yday wday : ℤ) : ℤ := (yday - (wday - 1 + 7).tmod 7 + 7).tdiv 7

structure YearDay where
  year : ℤ
  yday : ℕ
  inside : yday < yearLength year

namespace YearDay

def number (d : YearDay) : ℤ := yearStart d.year + d.yday

/-- Counted from 0 for Sunday. -/
def wday (d : YearDay) : ℤ := (4 + d.number) % 7

/-- How many days of the year with this weekday there have been up to the day. -/
def count (w : ℤ) (d : YearDay) : ℕ :=
  (List.range (d.yday + 1)).countP fun i : ℕ => (4 + (yearStart d.year + i)) % 7 = w

/-- The ISO week from Monday to Sunday around a Thursday: it belongs to the year of the
Thursday, and its number is how many Thursdays this year has had. -/
def InIsoWeek (d : YearDay) (year week : ℤ) : Prop :=
  ∃ thursday : YearDay, thursday.wday = 4 ∧ thursday.year = year ∧ thursday.count 4 = week ∧
    thursday.number - 3 ≤ d.number ∧ d.number ≤ thursday.number + 3

end YearDay

lemma countP_weekday (a w : ℤ) (n : ℕ) (hw : 0 ≤ w ∧ w < 7) :
    ((List.range n).countP (fun i : ℕ => (4 + (a + i)) % 7 = w) : ℤ) =
      (n + 6 - (w - 4 - a) % 7) / 7 := by
  induction n with
  | zero => simp; omega
  | succ n ih =>
    rw [List.range_succ, List.countP_append, Nat.cast_add, ih, List.countP_singleton]
    push_cast
    split_ifs with h <;> simp at h <;> omega

lemma isoWeekDays_eq (hy : -366 ≤ yday) (hw : 0 ≤ wday ∧ wday < 7) :
    isoWeekDays yday wday = yday - (yday - wday + 4) % 7 + 3 := by
  have hbig : ((366 : ℤ).tdiv 7 + 2) * 7 = 378 := rfl
  simp only [isoWeekDays, hbig]
  rw [Int.tmod_eq_emod_of_nonneg (by omega)]
  omega

lemma isleap_length (y : ℤ) : (365 + if isleap y then 1 else 0) = yearLength y := by
  rw [← yearLength_isleap]
  split_ifs <;> rfl

namespace YearDay
variable (d : YearDay)

lemma count_eq (w : ℤ) (hw : 0 ≤ w ∧ w < 7) :
    (d.count w : ℤ) = (d.yday + 7 - (w - 4 - yearStart d.year) % 7) / 7 := by
  rw [count, countP_weekday _ _ _ hw]
  push_cast
  omega

lemma inIsoWeek_of_thursday {year t days : ℤ} (ht : 0 ≤ t ∧ t < yearLength year)
    (hday : yearStart year + t = d.number - (d.number + 3) % 7 + 3) (hdays : days / 7 = t / 7) :
    d.InIsoWeek year (days / 7 + 1) := by
  refine ⟨⟨year, t.toNat, by omega⟩, ?_, rfl, ?_, ?_⟩
  · simp only [wday, number]
    omega
  · rw [count_eq _ _ (by decide)]
    dsimp only
    omega
  · change yearStart year + t.toNat - 3 ≤ _ ∧ _ ≤ yearStart year + t.toNat + 3
    omega

end YearDay

/-- The week dates are those of ISO 8601, and the other week numbers count the Sundays and
the Mondays of the year. -/
theorem strftime_weeks (d : YearDay) :
    d.InIsoWeek (weekG (d.year - 1900) d.yday d.wday) (weekV (d.year - 1900) d.yday d.wday) ∧
      weekU d.yday d.wday = d.count 0 ∧ weekW d.yday d.wday = d.count 1 := by
  have hlt := d.inside
  have hbefore := yearStart_succ (d.year - 1)
  have hafter := yearStart_succ d.year
  have hlen := yearLength_mem d.year
  have hlen' := yearLength_mem (d.year - 1)
  have hlen'' := yearLength_mem (d.year + 1)
  have hwday : 0 ≤ d.wday ∧ d.wday < 7 := by
    unfold YearDay.wday
    omega
  rw [sub_add_cancel] at hbefore
  refine ⟨?_, ?_, ?_⟩
  · have hnumber : d.number = yearStart d.year + d.yday := rfl
    have hdef : d.wday = (4 + d.number) % 7 := rfl
    unfold weekG weekV isoYearDays
    simp only [sub_add_cancel, isleap_length]
    rw [isoWeekDays_eq (by omega) hwday, isoWeekDays_eq (by omega) hwday,
      isoWeekDays_eq (by omega) hwday]
    -- `t` is the day of the Thursday in the year that is chosen
    split_ifs with hprev hnext <;> dsimp only <;> rw [Int.tdiv_eq_ediv_of_nonneg (by omega)]
    · exact d.inIsoWeek_of_thursday (t := d.yday + yearLength (d.year - 1) - (d.wday + 6) % 7 + 3)
        ⟨by omega, by omega⟩ (by omega) (by omega)
    · exact d.inIsoWeek_of_thursday (t := d.yday - yearLength d.year - (d.wday + 6) % 7 + 3)
        ⟨by omega, by omega⟩ (by omega) (by omega)
    · exact d.inIsoWeek_of_thursday (t := d.yday - (d.wday + 6) % 7 + 3)
        ⟨by omega, by omega⟩ (by omega) (by omega)
  · rw [YearDay.count_eq _ _ (by decide), weekU, Int.tdiv_eq_ediv_of_nonneg (by omega)]
    unfold YearDay.wday YearDay.number
    omega
  · rw [YearDay.count_eq _ _ (by decide), weekW, Int.tmod_eq_emod_of_nonneg (by omega),
      Int.tdiv_eq_ediv_of_nonneg (by omega)]
    unfold YearDay.wday YearDay.number
    omega

end Eglibc.Strftime
