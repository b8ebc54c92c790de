import Eglibc.Calendar
import Eglibc.Signed

/-!
# Breaking down a time value

Model of `time/offtime.c`. Arithmetic is that of a 64-bit `time_t`, where overflow is a
fault; a value stored into an `int` field is converted.
-/
namespace Eglibc.Offtime
open Checked Signed Calendar

structure Tm where
  sec : ℤ
  min : ℤ
  hour : ℤ
  mday : ℤ
  mon : ℤ
  year : ℤ
  wday : ℤ
  yday : ℤ
  isdst : ℤ
  deriving DecidableEq, Repr

def isleap (y : ℤ) : Bool := y.tmod 4 = 0 && (y.tmod 100 ≠ 0 || y.tmod 400 = 0)

def monYday (leap : Bool) : List ℤ :=
  if leap then [0, 31, 60, 91, 121, 152, 182, 213, 244, 274, 305, 335, 366]
  else [0, 31, 59, 90, 120, 151, 181, 212, 243, 273, 304, 334, 365]

def time (x : ℤ) : Run ℤ := checked 64 x

def int (x : ℤ) : ℤ := wrap 32 x

def secsPerHour : ℤ := 60 * 60

def secsPerDay : ℤ := secsPerHour * 24

/-- `while (rem < 0)` -/
def borrowBody : ℤ × ℤ → Run (ℤ × ℤ ⊕ ℤ × ℤ)
  | (days, rem) =>
    if rem < 0 then do
      let rem ← time (rem + secsPerDay)
      let days ← time (days - 1)
      .ok (.inl (days, rem))
    else .ok (.inr (days, rem))

/-- `while (rem >= SECS_PER_DAY)` -/
def carryBody : ℤ × ℤ → Run (ℤ × ℤ ⊕ ℤ × ℤ)
  | (days, rem) =>
    if rem ≥ secsPerDay then do
      let rem ← time (rem - secsPerDay)
      let days ← time (days + 1)
      .ok (.inl (days, rem))
    else .ok (.inr (days, rem))

def div (a b : ℤ) : ℤ := a.tdiv b - if a.tmod b < 0 then 1 else 0

def leapsThruEndOf (y : ℤ) : Run ℤ := do
  let leaps ← time (div y 4 - div y 100)
  time (leaps + div y 400)

/-- One correction of the year: a guess with years of 365 days, and the days that are
left or missing with respect to it. -/
def yearBody : ℤ × ℤ → Run (ℤ × ℤ ⊕ ℤ × ℤ)
  | (days, y) =>
    if days < 0 || days ≥ (if isleap y then 366 else 365) then do
      let guess ← time (y + days.tdiv 365)
      let yg ← time (guess - if days.tmod 365 < 0 then 1 else 0)
      let years ← time (yg - y)
      let shift ← time (years * 365)
      let before ← leapsThruEndOf (← time (yg - 1))
      let shift ← time (shift + before)
      let before ← leapsThruEndOf (← time (y - 1))
      let shift ← time (shift - before)
      let days ← time (days - shift)
      .ok (.inl (days, yg))
    else .ok (.inr (days, y))

def monthOf (ip : List ℤ) (days : ℤ) : ℕ → Run ℕ
  | 0 => do
      let first ← load ip 0
      if days < first then .error (.read 0) else .ok 0
  | y + 1 => do
      let first ← load ip (y + 1)
      if days < first then monthOf ip days y else .ok (y + 1)

/-- `__offtime`: the returned number and what is left in `*tp`. -/
def offtime (t offset : ℤ) (tp : Tm) : Run (ℤ × Tm) := do
  let days := t.tdiv secsPerDay
  let rem ← time (t.tmod secsPerDay + offset)
  let (days, rem) ← iterate borrowBody (rem.natAbs + 1) (days, rem)
  let (days, rem) ← iterate carryBody (rem.natAbs + 1) (days, rem)
  let tp := { tp with hour := int (rem.tdiv secsPerHour) }
  let rem := rem.tmod secsPerHour
  let tp := { tp with min := int (rem.tdiv 60), sec := int (rem.tmod 60) }
  let weekdays ← time (4 + days)
  let wday := int (weekdays.tmod 7)
  let tp := { tp with wday := if wday < 0 then wday + 7 else wday }
  let (days, y) ← iterate yearBody (days.natAbs + 2) (days, 1970)
  let year ← time (y - 1900)
  let tp := { tp with year := int year }
  if tp.year ≠ year then
    .ok (0, tp)
  else do
    let tp := { tp with yday := int days }
    let ip := monYday (isleap y)
    let mon ← monthOf ip days 11
    let first ← load ip mon
    let days ← time (days - first)
    let mday ← time (days + 1)
    .ok (1, { tp with mon := int mon, mday := int mday })

section
variable {x y : ℤ}

lemma time_eq (h : -2 ^ 63 ≤ x ∧ x < 2 ^ 63) : time x = .ok x := checked_eq h

lemma int_eq (h : -2 ^ 31 ≤ x ∧ x < 2 ^ 31) : int x = x := wrap_eq (by decide) h

lemma isleap_iff (y : ℤ) : isleap y = true ↔ Leap y := by
  have htmod : ∀ n : ℤ, y.tmod n = 0 ↔ y % n = 0 := by
    intro n
    rw [← Int.dvd_iff_tmod_eq_zero, ← Int.dvd_iff_emod_eq_zero]
  simp [isleap, Leap, htmod]

lemma yearLength_isleap (y : ℤ) : (if isleap y then 366 else 365) = yearLength y := by
  simp [yearLength, isleap_iff]

lemma div_eq (a : ℤ) (hb : 0 < b) : div a b = a / b := by
  have hpos := Int.emod_nonneg a hb.ne'
  have hlt := Int.emod_lt_of_pos a hb
  rw [div, Int.tdiv_eq_ediv, Int.tmod_eq_emod, Int.sign_eq_one_of_pos hb]
  split_ifs <;> omega

lemma leapsThruEndOf_eq (h : -2 ^ 60 ≤ y ∧ y < 2 ^ 60) :
    leapsThruEndOf y = .ok (leapsThrough y) := by
  rw [leapsThruEndOf, div_eq y (by decide), div_eq y (by decide), div_eq y (by decide),
    time_eq (by omega), ok_bind, time_eq (by omega)]
  rfl

lemma leaps_between (y : ℤ) (hk : 0 ≤ k) :
    leapsThrough y ≤ leapsThrough (y + k) ∧ leapsThrough (y + k) ≤ leapsThrough y + (k + 3) / 4 := by
  unfold leapsThrough
  omega

end

section
variable (days rem : ℤ)

lemma secsPerDay_eq : secsPerDay = 86400 := rfl

lemma borrow_returns (hdays : -2 ^ 61 ≤ days ∧ days < 2 ^ 61) (hrem : -2 ^ 61 ≤ rem ∧ rem < 2 ^ 61) :
    Returns (iterate borrowBody (rem.natAbs + 1) (days, rem)) fun s =>
      86400 * s.1 + s.2 = 86400 * days + rem ∧ 0 ≤ s.2 ∧ s.2 < 2 ^ 61 := by
  apply iterate_returns (I := fun s => 86400 * s.1 + s.2 = 86400 * days + rem ∧ rem ≤ s.2 ∧
    s.2 < 2 ^ 61) (fun s => (-s.2).toNat)
  · rintro ⟨d, r⟩ ⟨htotal, hle, hlt⟩
    dsimp only [borrowBody] at htotal hle hlt ⊢
    have hday := secsPerDay_eq
    split_ifs with hneg
    · rw [time_eq (by omega), ok_bind, time_eq (by omega), ok_bind]
      apply returns_ok
      refine ⟨⟨?_, ?_, ?_⟩, ?_⟩ <;> dsimp only <;> omega
    · exact returns_ok ⟨htotal, by omega, hlt⟩
  · exact ⟨rfl, le_refl _, hrem.2⟩
  · omega

lemma carry_returns (hdays : -2 ^ 61 ≤ days ∧ days < 2 ^ 61) (hrem : 0 ≤ rem ∧ rem < 2 ^ 61) :
    Returns (iterate carryBody (rem.natAbs + 1) (days, rem)) fun s =>
      86400 * s.1 + s.2 = 86400 * days + rem ∧ 0 ≤ s.2 ∧ s.2 < 86400 := by
  apply iterate_returns (I := fun s => 86400 * s.1 + s.2 = 86400 * days + rem ∧ 0 ≤ s.2 ∧
    s.2 ≤ rem) (fun s => s.2.toNat)
  · rintro ⟨d, r⟩ ⟨htotal, hle, hlt⟩
    dsimp only [carryBody] at htotal hle hlt ⊢
    have hday := secsPerDay_eq
    split_ifs with hlarge
    · rw [time_eq (by omega), ok_bind, time_eq (by omega), ok_bind]
      apply returns_ok
      refine ⟨⟨?_, ?_, ?_⟩, ?_⟩ <;> dsimp only <;> omega
    · exact returns_ok ⟨htotal, hle, by omega⟩
  · exact ⟨rfl, hrem.1, le_refl _⟩
  · omega

end

section
variable {days y : ℤ}

def InYear (s : ℤ × ℤ) : Prop := 0 ≤ s.1 ∧ s.1 < yearLength s.2

instance (s : ℤ × ℤ) : Decidable (InYear s) := inferInstanceAs (Decidable (_ ∧ _))

lemma guess_closer (days y : ℤ) : let yg := y + days / 365
    let left := yearStart y + days - yearStart yg
    InYear (left, yg) ∨ left.natAbs < days.natAbs := by
  intro yg left
  have hleft : left = days % 365 - (leapsThrough (y - 1 + days / 365) - leapsThrough (y - 1)) := by
    have hyears : yg - 1 = y - 1 + days / 365 := by omega
    simp only [left, yearStart, hyears]
    omega
  unfold InYear
  dsimp only
  have hguess := yearLength_mem yg
  by_cases hneg : days < 0
  · by_cases hnear : -365 ≤ days
    · -- the year before
      have hyg : yg = y - 1 := by omega
      have hbefore := yearStart_succ (y - 1)
      have hlength' := yearLength_mem (y - 1)
      rw [Int.sub_add_cancel] at hbefore
      left
      simp only [left, hyg]
      omega
    · have hleaps := leaps_between (y - 1 + days / 365) (k := -(days / 365)) (by omega)
      simp at hleaps
      omega
  · have hleaps := leaps_between (y - 1) (k := days / 365) (by omega)
    omega

lemma yearBody_eq (hdays : -2 ^ 58 ≤ days ∧ days < 2 ^ 58) (hy : -2 ^ 58 ≤ y ∧ y < 2 ^ 58) :
    yearBody (days, y) = if InYear (days, y) then .ok (.inr (days, y))
      else .ok (.inl (yearStart y + days - yearStart (y + days / 365), y + days / 365)) := by
  have hcondition : (days < 0 || days ≥ (if isleap y then 366 else 365)) = true ↔
      ¬ InYear (days, y) := by
    rw [yearLength_isleap, Bool.or_eq_true, decide_eq_true_eq, decide_eq_true_eq]
    unfold InYear
    dsimp only
    omega
  have hguess : days.tdiv 365 - (if days.tmod 365 < 0 then 1 else 0) = days / 365 :=
    div_eq days (by decide)
  have hyg : y + days.tdiv 365 - (if days.tmod 365 < 0 then 1 else 0) = y + days / 365 := by omega
  dsimp only [yearBody]
  by_cases h : InYear (days, y)
  · rw [if_pos h, if_neg (by rwa [hcondition, not_not])]
  rw [if_neg h, if_pos (hcondition.mpr h), time_eq (by omega), ok_bind, hyg, time_eq (by omega),
    ok_bind, time_eq (by omega), ok_bind, time_eq (by omega), ok_bind, time_eq (by omega), ok_bind,
    leapsThruEndOf_eq (by omega), ok_bind]
  have hleaps : -2 ^ 60 ≤ leapsThrough (y + days / 365 - 1) ∧
      leapsThrough (y + days / 365 - 1) < 2 ^ 60 := by
    unfold leapsThrough
    omega
  have hleaps' : -2 ^ 60 ≤ leapsThrough (y - 1) ∧ leapsThrough (y - 1) < 2 ^ 60 := by
    unfold leapsThrough
    omega
  rw [time_eq (by omega), ok_bind, time_eq (by omega), ok_bind, leapsThruEndOf_eq (by omega),
    ok_bind, time_eq (by omega), ok_bind, time_eq (by omega), ok_bind]
  unfold yearStart
  congr 3
  omega

lemma year_returns (hd : -2 ^ 57 ≤ d ∧ d < 2 ^ 57) :
    Returns (iterate yearBody (d.natAbs + 2) (d, 1970)) fun s =>
      yearStart s.2 + s.1 = d ∧ InYear s := by
  -- a day of the year is the last state; before it the distance goes down
  apply iterate_returns (I := fun s => yearStart s.2 + s.1 = d ∧ (InYear s ∨ s.1.natAbs ≤ d.natAbs))
    (fun s => if InYear s then 0 else s.1.natAbs)
  · rintro ⟨days, y⟩ ⟨htotal, hbound⟩
    dsimp only at htotal hbound
    have hlength := yearLength_mem y
    have hdays : days.natAbs ≤ d.natAbs + 366 := by
      unfold InYear at hbound
      dsimp only at hbound
      omega
    have hy : -2 ^ 58 ≤ y ∧ y < 2 ^ 58 := by
      unfold yearStart leapsThrough at htotal
      omega
    rw [yearBody_eq (by omega) hy]
    split_ifs with h
    · exact returns_ok ⟨htotal, h⟩
    have hbound := hbound.resolve_left h
    have hcloser := guess_closer days y
    apply returns_ok
    refine ⟨⟨by dsimp only; omega, ?_⟩, ?_⟩
    · rcases hcloser with hin | hlt
      · exact .inl hin
      · exact .inr (by omega)
    dsimp only
    have hne : days ≠ 0 := by
      rintro rfl
      exact h ⟨le_refl _, by dsimp only; omega⟩
    split_ifs with hin
    · omega
    · exact hcloser.resolve_left hin
  · exact ⟨by simp [yearStart_epoch], .inr (le_refl _)⟩
  · split_ifs <;> omega

end

section
variable {d y : ℤ}

lemma load_monYday (y : ℤ) (hm : m ≤ 12) : load (monYday (isleap y)) m = .ok (monthStart y m) := by
  have htable : monYday (isleap y) = (List.range 13).map (monthStart y) := by
    by_cases h : Leap y
    · simp [monYday, (isleap_iff y).mpr h, List.range_succ, monthStart, Finset.sum_range_succ,
        monthLength, h]
    · have hleap : isleap y = false := by rwa [← Bool.not_eq_true, isleap_iff]
      simp [monYday, hleap, List.range_succ, monthStart, Finset.sum_range_succ, monthLength, h]
  rw [htable, load, List.getElem?_map, List.getElem?_range (by omega), Option.map_some]

lemma monthOf_returns (hd : 0 ≤ d) (hm : m < 12) (hend : d < monthStart y (m + 1)) :
    Returns (monthOf (monYday (isleap y)) d m) fun k =>
      k < 12 ∧ monthStart y k ≤ d ∧ d < monthStart y (k + 1) := by
  induction m with
  | zero =>
    rw [monthOf, load_monYday y (by omega), ok_bind, monthStart_zero, if_neg (by omega)]
    exact returns_ok ⟨hm, by simpa using hd, hend⟩
  | succ m ih =>
    rw [monthOf, load_monYday y (by omega), ok_bind]
    split_ifs with hlt
    · exact ih (by omega) hlt
    · exact returns_ok ⟨hm, not_lt.mp hlt, hend⟩

end

def Tm.fill (tp : Tm) (c : Civil) : Tm :=
  { tp with
    sec := c.second, min := c.minute, hour := c.hour, mday := c.day, mon := c.month,
    year := c.year - 1900, wday := c.wday, yday := c.yday }

def Tm.spoil (tp : Tm) (c : Civil) : Tm :=
  { tp with
    sec := c.second, min := c.minute, hour := c.hour, year := int (c.year - 1900),
    wday := c.wday }

section
variable {t offset : ℤ} {c : Civil}

lemma split_instant (hc : c.instant = t) (htotal : 86400 * days + rem = t)
    (hrem : 0 ≤ rem ∧ rem < 86400) :
    days = c.dayNumber ∧ rem.tdiv secsPerHour = c.hour ∧ (rem.tmod secsPerHour).tdiv 60 = c.minute ∧
      (rem.tmod secsPerHour).tmod 60 = c.second := by
  have hhour := c.hour_mem
  have hminute := c.minute_mem
  have hsecond := c.second_mem
  have hsecs : secsPerHour = 3600 := rfl
  have hmod : 0 ≤ rem % 3600 := Int.emod_nonneg _ (by decide)
  rw [hsecs, Int.tdiv_eq_ediv_of_nonneg hrem.1, Int.tmod_eq_emod_of_nonneg hrem.1,
    Int.tdiv_eq_ediv_of_nonneg hmod, Int.tmod_eq_emod_of_nonneg hmod]
  unfold Civil.instant at hc
  omega

lemma weekday_eq (days : ℤ) :
    (if int ((4 + days).tmod 7) < 0 then int ((4 + days).tmod 7) + 7 else int ((4 + days).tmod 7)) =
      (4 + days) % 7 := by
  have htmod : (4 + days).tmod 7 = (4 + days) % 7 ∨ (4 + days).tmod 7 = (4 + days) % 7 - 7 ∧
      (4 + days) % 7 ≠ 0 := by
    rw [Int.tmod_eq_emod]
    split_ifs with h
    · exact .inl (by simp)
    · exact .inr ⟨rfl, fun h0 => h (.inr (Int.dvd_of_emod_eq_zero h0))⟩
  rw [int_eq (by omega)]
  split_ifs <;> omega

lemma offtime_eq (tp : Tm) (ht : Fits 64 t) (ho : -604800 ≤ offset ∧ offset ≤ 604800)
    (hc : c.instant = t + offset) :
    offtime t offset tp = .ok (if Fits 32 (c.year - 1900) then (1, tp.fill c) else (0, tp.spoil c)) := by
  have hday := secsPerDay_eq
  have hrem := Int.mul_tdiv_add_tmod t secsPerDay
  have hlow := Int.lt_tmod_of_pos t (by decide : 0 < secsPerDay)
  have hhigh := Int.tmod_lt_of_pos t (by decide : 0 < secsPerDay)
  rw [hday] at hrem hlow hhigh
  unfold Fits at ht
  unfold offtime
  dsimp only
  rw [hday, time_eq (by omega), ok_bind]
  obtain ⟨⟨days1, rem1⟩, heq1, htotal1, hrem1⟩ := borrow_returns (t.tdiv 86400)
    (t.tmod 86400 + offset) (by omega) (by omega)
  rw [heq1, ok_bind]
  obtain ⟨⟨days, rem⟩, heq, htotal, hrem2⟩ := carry_returns days1 rem1 (by omega) hrem1
  rw [heq, ok_bind]
  obtain ⟨rfl, hhour, hminute, hsecond⟩ := split_instant hc (by omega : 86400 * days + rem = _) hrem2
  rw [hhour, hminute, hsecond, time_eq (by omega), ok_bind, weekday_eq]
  obtain ⟨⟨yday, year⟩, hyear, hstart, hin⟩ := year_returns (d := c.dayNumber) (by omega)
  dsimp only at hstart
  have hyearMem := c.year_mem
  obtain rfl : year = c.year := by
    unfold InYear at hin
    dsimp only at hin
    exact year_unique (d := c.dayNumber) ⟨by omega, by rw [yearStart_succ]; omega⟩ hyearMem
  obtain rfl : yday = c.yday := by
    unfold Civil.dayNumber at hstart
    omega
  have hydays := c.yday_mem
  have hlength := yearLength_mem c.year
  have hyears : -2 ^ 62 ≤ c.year ∧ c.year < 2 ^ 62 := by
    unfold yearStart leapsThrough at hstart
    omega
  rw [hyear, ok_bind]
  rw [time_eq (by omega), ok_bind]
  by_cases hfits : Fits 32 (c.year - 1900)
  · have hint : int (c.year - 1900) = c.year - 1900 := int_eq hfits
    obtain ⟨m, hm, hmlt, hmonth⟩ := monthOf_returns hydays.1 (by decide : 11 < 12)
      (by rw [monthStart_twelve]; exact hydays.2)
    obtain rfl : m = c.month := month_unique hmonth c.month_mem
    rw [if_pos hfits, if_neg (not_not.mpr hint), hm, ok_bind, load_monYday c.year (by omega), ok_bind]
    have hdate : c.yday - monthStart c.year c.month = c.day - 1 := by
      unfold Civil.yday
      omega
    have hdates := c.day_mem
    have hlast := monthLength_le c.year c.month
    have hhours := c.hour_mem
    have hminutes := c.minute_mem
    have hseconds := c.second_mem
    rw [hdate, time_eq (by omega), ok_bind, Int.sub_add_cancel, time_eq (by omega), ok_bind, hint,
      int_eq (x := c.hour) (by omega), int_eq (x := c.minute) (by omega),
      int_eq (x := c.second) (by omega), int_eq (x := c.yday) (by omega),
      int_eq (x := (c.month : ℤ)) (by omega), int_eq (x := c.day) (by omega)]
    rfl
  have hint : int (c.year - 1900) ≠ c.year - 1900 := fun h =>
    hfits ((wrap_eq_iff (by decide)).mp h)
  have hhours := c.hour_mem
  have hminutes := c.minute_mem
  have hseconds := c.second_mem
  rw [if_neg hfits, if_pos hint, int_eq (x := c.hour) (by omega), int_eq (x := c.minute) (by omega),
    int_eq (x := c.second) (by omega)]
  rfl

end

/-- For every time value and every offset of at most a week, `__offtime` returns 0 exactly
if the year of the instant does not fit, and stores its only date and time of day
otherwise. -/
theorem offtime_calendar (t offset : ℤ) (tp : Tm) (ht : Fits 64 t)
    (ho : -604800 ≤ offset ∧ offset ≤ 604800) :
    ∃ c : Civil, c.instant = t + offset ∧ (∀ c' : Civil, c'.instant = t + offset → c' = c) ∧
      ∃ r tm, offtime t offset tp = .ok (r, tm) ∧
        (r = 0 ↔ ¬ Fits 32 (c.year - 1900)) ∧
        (r ≠ 0 → tm = tp.fill c ∧ 0 ≤ tm.yday ∧ tm.yday < yearLength c.year ∧
          0 ≤ tm.mon ∧ tm.mon ≤ 11 ∧ tm.yday = monthStart c.year tm.mon.toNat + tm.mday - 1) := by
  obtain ⟨c, hc⟩ := Civil.instant_surjective (t + offset)
  have hresult := offtime_eq tp ht ho hc
  refine ⟨c, hc, fun c' hc' => Civil.instant_injective (hc'.trans hc.symm), ?_⟩
  by_cases hfits : Fits 32 (c.year - 1900)
  · have hmonth := c.month_lt
    rw [if_pos hfits] at hresult
    refine ⟨1, tp.fill c, hresult, by simp [hfits], fun _ => ⟨rfl, c.yday_mem.1, c.yday_mem.2,
      Int.natCast_nonneg _, ?_, rfl⟩⟩
    simp only [Tm.fill]
    omega
  · rw [if_neg hfits] at hresult
    exact ⟨0, tp.spoil c, hresult, by simp [hfits], fun h => absurd rfl h⟩

/-- The instant a week before the first day of 1970. -/
theorem offtime_calendar_week_before : Fits 64 0 ∧ ∃ c : Civil, c.instant = 0 + -604800 ∧
      ∃ r tm, offtime 0 (-604800) ⟨0, 0, 0, 0, 0, 0, 0, 0, 0⟩ = .ok (r, tm) ∧
        (r = 0 ↔ ¬ Fits 32 (c.year - 1900)) := by
  have hfits : Fits 64 0 := by decide
  obtain ⟨c, hc, -, r, tm, heq, hr, -⟩ :=
    offtime_calendar 0 (-604800) ⟨0, 0, 0, 0, 0, 0, 0, 0, 0⟩ hfits (by decide)
  exact ⟨hfits, c, hc, r, tm, heq, hr⟩

end Eglibc.Offtime
