import Mathlib

/-!
# The proleptic Gregorian calendar

Years are integers, months are counted from 0 and days of a month from 1. Days are
numbered from the first day of 1970, instants in seconds from its midnight. `Civil` is a
date with a time of day; every instant has exactly one.
-/
namespace Eglibc.Calendar

def Leap (y : ℤ) : Prop := y % 4 = 0 ∧ (y % 100 ≠ 0 ∨ y % 400 = 0)

instance (y : ℤ) : Decidable (Leap y) := inferInstanceAs (Decidable (_ ∧ _))

def yearLength (y : ℤ) : ℤ := if Leap y then 366 else 365

def leapsThrough (y : ℤ) : ℤ := y / 4 - y / 100 + y / 400

def yearStart (y : ℤ) : ℤ := 365 * (y - 1970) + leapsThrough (y - 1) - leapsThrough 1969

def monthLength (y : ℤ) (m : ℕ) : ℤ :=
  if m = 1 then if Leap y then 29 else 28 else if m ∈ [3, 5, 8, 10] then 30 else 31

def monthStart (y : ℤ) (m : ℕ) : ℤ := ∑ i ∈ Finset.range m, monthLength y i

@[ext] structure Civil where
  year : ℤ
  month : ℕ
  day : ℤ
  hour : ℤ
  minute : ℤ
  second : ℤ
  month_lt : month < 12
  day_mem : 1 ≤ day ∧ day ≤ monthLength year month
  hour_mem : 0 ≤ hour ∧ hour < 24
  minute_mem : 0 ≤ minute ∧ minute < 60
  second_mem : 0 ≤ second ∧ second < 60

lemma zero_mem_sixty : (0 : ℤ) ≤ 0 ∧ (0 : ℤ) < 60 := by decide

def Civil.yday (c : Civil) : ℤ := monthStart c.year c.month + c.day - 1

def Civil.dayNumber (c : Civil) : ℤ := yearStart c.year + c.yday

/-- The day of the week, counted from 0 for Sunday. The first day of 1970 was a Thursday. -/
def Civil.wday (c : Civil) : ℤ := (4 + c.dayNumber) % 7

def Civil.instant (c : Civil) : ℤ :=
  86400 * c.dayNumber + 3600 * c.hour + 60 * c.minute + c.second

section
variable {y y' d : ℤ}

lemma yearLength_mem (y : ℤ) : 365 ≤ yearLength y ∧ yearLength y ≤ 366 := by
  unfold yearLength
  split_ifs <;> omega

lemma yearStart_epoch : yearStart 1970 = 0 := by decide

lemma leapsThrough_step (y : ℤ) :
    leapsThrough y = leapsThrough (y - 1) + if Leap y then 1 else 0 := by
  unfold leapsThrough Leap
  split_ifs with h <;> omega

lemma yearStart_succ (y : ℤ) : yearStart (y + 1) = yearStart y + yearLength y := by
  have hstep := leapsThrough_step y
  unfold yearStart yearLength
  rw [Int.add_sub_cancel, hstep]
  split_ifs <;> omega

lemma yearStart_strictMono : StrictMono yearStart := by
  apply strictMono_int_of_lt_succ
  intro y
  have hlength := yearLength_mem y
  rw [yearStart_succ]
  omega

lemma year_unique (h : yearStart y ≤ d ∧ d < yearStart (y + 1))
    (h' : yearStart y' ≤ d ∧ d < yearStart (y' + 1)) : y = y' := by
  have hlt := yearStart_strictMono.lt_iff_lt.mp (lt_of_le_of_lt h.1 h'.2)
  have hlt' := yearStart_strictMono.lt_iff_lt.mp (lt_of_le_of_lt h'.1 h.2)
  omega

lemma exists_year (d : ℤ) : ∃ y, yearStart y ≤ d ∧ d < yearStart (y + 1) := by
  obtain ⟨y, hy, hgreatest⟩ := Int.exists_greatest_of_bdd (P := fun y => yearStart y ≤ d)
    ⟨2000 + |d|, fun y hy => by
      unfold yearStart leapsThrough at hy
      rcases abs_cases d with ⟨h, _⟩ | ⟨h, _⟩ <;> omega⟩
    ⟨-|d|, by
      unfold yearStart leapsThrough
      rcases abs_cases d with ⟨h, _⟩ | ⟨h, _⟩ <;> omega⟩
  refine ⟨y, hy, ?_⟩
  by_contra hle
  have := hgreatest (y + 1) (by omega)
  omega

end

section
variable {y d : ℤ} {m m' : ℕ}

lemma monthLength_pos (y : ℤ) (m : ℕ) : 1 ≤ monthLength y m := by
  unfold monthLength
  split_ifs <;> omega

lemma monthLength_le (y : ℤ) (m : ℕ) : monthLength y m ≤ 31 := by
  unfold monthLength
  split_ifs <;> omega

@[simp] lemma monthStart_zero (y : ℤ) : monthStart y 0 = 0 := rfl

lemma monthStart_succ (y : ℤ) (m : ℕ) : monthStart y (m + 1) = monthStart y m + monthLength y m :=
  Finset.sum_range_succ _ _

lemma monthStart_twelve (y : ℤ) : monthStart y 12 = yearLength y := by
  unfold monthStart monthLength yearLength
  by_cases h : Leap y <;> simp [h, Finset.sum_range_succ]

lemma monthStart_strictMono (y : ℤ) : StrictMono (monthStart y) := by
  apply strictMono_nat_of_lt_succ
  intro m
  have hpos := monthLength_pos y m
  rw [monthStart_succ]
  omega

lemma monthLength_eq (y : ℤ) (m : ℕ) :
    monthLength y m = monthLength 1 m + if m = 1 ∧ Leap y then 1 else 0 := by
  have hcommon : ¬ Leap 1 := by decide
  unfold monthLength
  by_cases hm : m = 1 <;> by_cases hleap : Leap y <;> simp [hm, hleap, hcommon]

lemma monthStart_eq (y : ℤ) (m : ℕ) :
    monthStart y m = monthStart 1 m + if 2 ≤ m ∧ Leap y then 1 else 0 := by
  induction m with
  | zero => simp
  | succ m ih =>
    rw [monthStart_succ, monthStart_succ, ih, monthLength_eq]
    by_cases hleap : Leap y
    · simp only [hleap, and_true]
      split_ifs <;> omega
    · simp [hleap]

lemma yearStart_add_monthStart (y : ℤ) (m : ℕ) : yearStart y + monthStart y m =
      365 * (y - 1970) + leapsThrough (if m < 2 then y - 1 else y) - leapsThrough 1969 +
        monthStart 1 m := by
  have hstep := leapsThrough_step y
  rw [monthStart_eq]
  unfold yearStart
  by_cases hm : m < 2
  · simp [hm]
  · rw [if_neg hm, hstep]
    have hm' : 2 ≤ m := by omega
    simp only [hm', true_and]
    omega

lemma monthLength_ge (y : ℤ) (m : ℕ) : 28 ≤ monthLength y m := by
  unfold monthLength
  split_ifs <;> omega

lemma month_unique (h : monthStart y m ≤ d ∧ d < monthStart y (m + 1))
    (h' : monthStart y m' ≤ d ∧ d < monthStart y (m' + 1)) : m = m' := by
  have hlt := (monthStart_strictMono y).lt_iff_lt.mp (lt_of_le_of_lt h.1 h'.2)
  have hlt' := (monthStart_strictMono y).lt_iff_lt.mp (lt_of_le_of_lt h'.1 h.2)
  omega

lemma exists_month (h : 0 ≤ d ∧ d < yearLength y) :
    ∃ m < 12, monthStart y m ≤ d ∧ d < monthStart y (m + 1) := by
  have hstart : monthStart y (Nat.findGreatest (fun m => monthStart y m ≤ d) 11) ≤ d :=
    Nat.findGreatest_spec (P := fun m => monthStart y m ≤ d) (Nat.zero_le 11) (by simpa using h.1)
  have hle := Nat.findGreatest_le (P := fun m => monthStart y m ≤ d) 11
  refine ⟨_, Nat.lt_succ_of_le hle, hstart, ?_⟩
  by_contra hnot
  push Not at hnot
  rcases Nat.lt_or_ge (Nat.findGreatest (fun m => monthStart y m ≤ d) 11) 11 with hlt | hge
  · exact Nat.findGreatest_is_greatest (Nat.lt_succ_self _) hlt hnot
  · rw [le_antisymm hle hge, monthStart_twelve] at hnot
    omega

end

section
variable {c c' : Civil}

lemma Civil.month_mem (c : Civil) :
    monthStart c.year c.month ≤ c.yday ∧ c.yday < monthStart c.year (c.month + 1) := by
  have hday := c.day_mem
  rw [Civil.yday, monthStart_succ]
  omega

lemma Civil.yday_mem (c : Civil) : 0 ≤ c.yday ∧ c.yday < yearLength c.year := by
  have hmonth := c.month_mem
  have hfirst := (monthStart_strictMono c.year).monotone (Nat.zero_le c.month)
  have hlast := (monthStart_strictMono c.year).monotone (Nat.succ_le_of_lt c.month_lt)
  rw [monthStart_zero] at hfirst
  rw [monthStart_twelve, Nat.succ_eq_add_one] at hlast
  omega

lemma Civil.year_mem (c : Civil) :
    yearStart c.year ≤ c.dayNumber ∧ c.dayNumber < yearStart (c.year + 1) := by
  have hyday := c.yday_mem
  rw [Civil.dayNumber, yearStart_succ]
  omega

lemma Civil.instant_injective : Function.Injective Civil.instant := by
  intro c c' h
  have hhour := c.hour_mem
  have hhour' := c'.hour_mem
  have hminute := c.minute_mem
  have hminute' := c'.minute_mem
  have hsecond := c.second_mem
  have hsecond' := c'.second_mem
  unfold Civil.instant at h
  have hday : c.dayNumber = c'.dayNumber := by omega
  have hyear : c.year = c'.year := year_unique c.year_mem (hday ▸ c'.year_mem)
  have hyday : c.yday = c'.yday := by
    unfold Civil.dayNumber at hday
    rw [hyear] at hday
    omega
  have hmonth : c.month = c'.month := by
    have hmem := c.month_mem
    rw [hyday, hyear] at hmem
    exact month_unique hmem c'.month_mem
  have hdate : c.day = c'.day := by
    unfold Civil.yday at hyday
    rw [hyear, hmonth] at hyday
    omega
  exact Civil.ext hyear hmonth hdate (by omega) (by omega) (by omega)

lemma Civil.instant_surjective : Function.Surjective Civil.instant := by
  intro i
  obtain ⟨y, hy⟩ := exists_year (i / 86400)
  rw [yearStart_succ] at hy
  obtain ⟨m, hm, hstart, hend⟩ := exists_month (y := y) (d := i / 86400 - yearStart y) (by omega)
  rw [monthStart_succ] at hend
  refine ⟨⟨y, m, i / 86400 - yearStart y - monthStart y m + 1, i % 86400 / 3600,
    i % 3600 / 60, i % 60, hm, ?_, ?_, ?_, ?_⟩, ?_⟩
  · omega
  · omega
  · omega
  · omega
  · simp only [Civil.instant, Civil.dayNumber, Civil.yday]
    omega

end

end Eglibc.Calendar
