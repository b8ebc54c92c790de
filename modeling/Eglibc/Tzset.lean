import Eglibc.Offtime

/-!
# Time zone rules

Model of `compute_change`, `__tz_compute` and their use in `__tz_convert` of
`time/tzset.c`. `time_t` and `long int` have 64 bits, and overflow of a signed type is a
fault. Time zone names and `tm_gmtoff` are left out.
-/
namespace Eglibc.Tzset
open Checked Signed Calendar Offtime

inductive RuleType where
  | J0
  | J1
  | M
  deriving DecidableEq, Repr

structure Rule where
  type : RuleType
  m : ℕ
  n : ℕ
  d : ℕ
  secs : ℕ
  offset : ℤ
  change : ℤ
  computedFor : ℤ
  deriving DecidableEq, Repr

def januaryFirst (year : ℤ) : Run ℤ :=
  if 1970 < year then do
    let days ← checked 32 ((year - 1970) * 365)
    let days ← checked 32 (days + ((year - 1).tdiv 4 - (1970 : ℤ).tdiv 4))
    let days ← checked 32 (days - ((year - 1).tdiv 100 - (1970 : ℤ).tdiv 100))
    let days ← checked 32 (days + ((year - 1).tdiv 400 - (1970 : ℤ).tdiv 400))
    time (days * secsPerDay)
  else .ok 0

def zeller (m : ℕ) (year : ℤ) : ℤ :=
  let m1 : ℤ := (m + 9) % 12 + 1
  let yy0 := if m ≤ 2 then year - 1 else year
  let yy1 := yy0.tdiv 100
  let yy2 := yy0.tmod 100
  let dow := ((26 * m1 - 2).tdiv 10 + 1 + yy2 + yy2.tdiv 4 + yy1.tdiv 4 - 2 * yy1).tmod 7
  if dow < 0 then dow + 7 else dow

/-- `for (i = 1; i < rule->n; ++i)`, for the passes that are left. -/
def laterWeek (length : ℤ) : ℕ → ℤ → ℤ
  | 0, d => d
  | k + 1, d => if d + 7 ≥ length then d else laterWeek length k (d + 7)

def ruleDay (rule : Rule) (year : ℤ) : Run ℤ :=
  match rule.type with
  | .J1 => .ok (rule.d - 1 + if rule.d ≥ 60 ∧ isleap year then 1 else 0)
  | .J0 => .ok rule.d
  | .M =>
    match rule.m with
    | 0 => .error (.read 0)
    | k + 1 => do
      let before ← load (monYday (isleap year)) k
      let after ← load (monYday (isleap year)) (k + 1)
      let d := rule.d - zeller rule.m year
      let d := if d < 0 then d + 7 else d
      .ok (before + laterWeek (after - before) (rule.n - 1) d)

/-- The value that is stored in `rule->change`. -/
def changeIn (rule : Rule) (year : ℤ) : Run ℤ := do
  let t ← januaryFirst year
  let day ← ruleDay rule year
  let t ← time (t + day * secsPerDay)
  let t ← time (t - rule.offset)
  time (t + rule.secs)

def computeChange (rule : Rule) (year : ℤ) : Run Rule :=
  if year ≠ -1 ∧ rule.computedFor = year then .ok rule
  else do
    let change ← changeIn rule year
    .ok { rule with change := change, computedFor := year }

/-- The numbers of a rule that can be written in a `TZ` value. -/
def Rule.Valid (r : Rule) : Prop :=
  r.secs < 2 ^ 32 ∧ Fits 64 r.offset ∧
    match r.type with
    | .J1 => 1 ≤ r.d ∧ r.d ≤ 365
    | .J0 => r.d ≤ 365
    | .M => (1 ≤ r.m ∧ r.m ≤ 12) ∧ (1 ≤ r.n ∧ r.n ≤ 5) ∧ r.d ≤ 6

def weekday (year day : ℤ) : ℤ := (4 + yearStart year + day) % 7

/-- `day`, counted from 0, is what the rule denotes: the day with the month and date of
the day `d` of a common year, the day `d`, or the `n`-th or last day of the week `d` in
the month `m`. -/
def Rule.Denotes (r : Rule) (year day : ℤ) : Prop :=
  match r.type with
  | .J1 => ∃ k < 12, ∃ date, 1 ≤ date ∧ date ≤ monthLength 1 k ∧ monthStart 1 k + date = r.d ∧
      day = monthStart year k + date - 1
  | .J0 => day = r.d
  | .M => monthStart year (r.m - 1) ≤ day ∧ day < monthStart year r.m ∧ weekday year day = r.d ∧
      if r.n = 5 then monthStart year r.m ≤ day + 7
      else monthStart year (r.m - 1) + 7 * (r.n - 1) ≤ day ∧ day < monthStart year (r.m - 1) + 7 * r.n

def Rule.instant (r : Rule) (year day : ℤ) : ℤ := 86400 * (yearStart year + day) + r.secs - r.offset

section

variable {year : ℤ}

def lastYear : ℤ := 5881459

lemma checked_int (h : -2 ^ 31 ≤ x ∧ x < 2 ^ 31) : checked 32 x = .ok x := checked_eq h

lemma januaryFirst_eq (hyear : 1970 ≤ year) (hlast : year ≤ lastYear) :
    januaryFirst year = .ok (86400 * yearStart year) := by
  unfold januaryFirst
  unfold lastYear at hlast
  by_cases h : 1970 < year
  · have hstart : yearStart year = 365 * (year - 1970) + ((year - 1) / 4 - (year - 1) / 100 +
        (year - 1) / 400) - 477 := rfl
    rw [if_pos h, show (1970 : ℤ).tdiv 4 = 492 from rfl, show (1970 : ℤ).tdiv 100 = 19 from rfl,
      show (1970 : ℤ).tdiv 400 = 4 from rfl, Int.tdiv_eq_ediv_of_nonneg (by omega),
      Int.tdiv_eq_ediv_of_nonneg (by omega), Int.tdiv_eq_ediv_of_nonneg (by omega), secsPerDay_eq,
      checked_int (by omega), ok_bind, checked_int (by omega), ok_bind, checked_int (by omega), ok_bind,
      checked_int (by omega), ok_bind, time_eq (by omega), hstart]
    congr 1
    ring
  · obtain rfl : year = 1970 := by omega
    rfl

lemma januaryFirst_fails (hlast : lastYear < year) : ∃ fault, januaryFirst year = .error fault := by
  unfold lastYear at hlast
  have hlarge : ¬ Fits 32 ((year - 1970) * 365 + ((year - 1) / 4 - 492)) := by
    unfold Fits
    omega
  rw [januaryFirst, if_pos (by omega), show (1970 : ℤ).tdiv 4 = 492 from rfl,
    Int.tdiv_eq_ediv_of_nonneg (by omega)]
  by_cases hfits : Fits 32 ((year - 1970) * 365)
  · rw [checked_eq hfits, ok_bind, checked, if_neg hlarge]
    exact ⟨_, rfl⟩
  · rw [checked, if_neg hfits]
    exact ⟨_, rfl⟩

lemma januaryFirst_before (hyear : year < 1970) : januaryFirst year = .ok 0 := if_neg (by omega)

end

/-! ## The day of a rule -/

def Rule.date (r : Rule) (year : ℤ) : ℤ :=
  match r.type with
  | .J1 => r.d - 1 + if 60 ≤ r.d ∧ Leap year then 1 else 0
  | .J0 => r.d
  | .M =>
    let first := monthStart year (r.m - 1)
    let day := first + (r.d - weekday year first) % 7 + 7 * (r.n - 1)
    if day < monthStart year r.m then day else day - 7

section

variable {r : Rule} {year day : ℤ}

lemma march_iff (hk : k < 12) (hdate : 1 ≤ date ∧ date ≤ monthLength 1 k) :
    60 ≤ monthStart 1 k + date ↔ 2 ≤ k := by
  have hmarch : monthStart 1 2 = 59 := by decide
  have hmono := (monthStart_strictMono 1).monotone
  constructor
  · intro h
    by_contra hlt
    have hle := hmono (show k + 1 ≤ 2 by omega)
    rw [monthStart_succ] at hle
    omega
  · intro h
    have hle := hmono h
    omega

lemma date_of_month (hk : k < 12) (hdate : 1 ≤ date ∧ date ≤ monthLength 1 k)
    (hsum : monthStart 1 k + date = r.d) :
    monthStart year k + date - 1 = r.d - 1 + if 60 ≤ r.d ∧ Leap year then 1 else 0 := by
  have hmarch := march_iff hk hdate
  rw [hsum] at hmarch
  rw [monthStart_eq]
  by_cases h2 : 2 ≤ k
  · have h60 : 60 ≤ r.d := by exact_mod_cast hmarch.mpr h2
    simp [h2, h60]
    omega
  · omega

lemma denotes_J1 (htype : r.type = .J1) (hd : 1 ≤ r.d ∧ r.d ≤ 365) :
    r.Denotes year day ↔ day = r.date year := by
  unfold Rule.Denotes Rule.date
  rw [htype]
  constructor
  · rintro ⟨k, hk, date, hlow, hhigh, hsum, rfl⟩
    exact date_of_month hk ⟨hlow, hhigh⟩ hsum
  · intro hday
    have hlength : yearLength 1 = 365 := by decide
    obtain ⟨k, hk, hstart, hend⟩ := exists_month (y := 1) (d := r.d - 1) (by omega)
    rw [monthStart_succ] at hend
    refine ⟨k, hk, r.d - monthStart 1 k, by omega, by omega, by omega, ?_⟩
    exact hday.trans (date_of_month hk ⟨by omega, by omega⟩ (by omega)).symm

lemma month_bounds (hm : 1 ≤ r.m ∧ r.m ≤ 12) (year : ℤ) :
    monthStart year (r.m - 1) + 28 ≤ monthStart year r.m ∧
      monthStart year r.m ≤ monthStart year (r.m - 1) + 31 := by
  have hge := monthLength_ge year (r.m - 1)
  have hle := monthLength_le year (r.m - 1)
  have hsucc := monthStart_succ year (r.m - 1)
  rw [Nat.sub_add_cancel hm.1] at hsucc
  omega

lemma denotes_M (htype : r.type = .M) (hm : 1 ≤ r.m ∧ r.m ≤ 12) (hn : 1 ≤ r.n ∧ r.n ≤ 5)
    (hd : r.d ≤ 6) : r.Denotes year day ↔ day = r.date year := by
  have hbounds := month_bounds hm year
  unfold Rule.Denotes Rule.date weekday
  rw [htype]
  dsimp only
  split_ifs <;> omega

lemma denotes_iff (hr : r.Valid) : r.Denotes year day ↔ day = r.date year := by
  obtain ⟨-, -, hr⟩ := hr
  cases htype : r.type with
  | J1 =>
    rw [htype] at hr
    exact denotes_J1 htype hr
  | J0 =>
    unfold Rule.Denotes Rule.date
    rw [htype]
  | M =>
    rw [htype] at hr
    exact denotes_M htype hr.1 hr.2.1 hr.2.2

lemma tmod_seven (x : ℤ) : (if x.tmod 7 < 0 then x.tmod 7 + 7 else x.tmod 7) = x % 7 := by
  rw [Int.tmod_eq_emod]
  split_ifs <;> omega

lemma zeller_congruence {m : ℕ} (y : ℤ) (hm : 1 ≤ m ∧ m ≤ 12) :
    (26 * (((m : ℤ) + 9) % 12 + 1) - 2) / 10 + 1 + y % 100 + y % 100 / 4 + y / 100 / 4 - 2 * (y / 100) ≡
      4 + 365 * ((if m ≤ 2 then y + 1 else y) - 1970) + leapsThrough y - leapsThrough 1969 +
        monthStart 1 (m - 1) [ZMOD 7] := by
  have hleaps : leapsThrough y = 24 * (y / 100) + y % 100 / 4 + y / 100 / 4 := by
    unfold leapsThrough
    omega
  have hyear : y = 100 * (y / 100) + y % 100 := by omega
  have hepoch : leapsThrough 1969 = 477 := by decide
  generalize y % 100 / 4 = f at *
  generalize y / 100 / 4 = g at *
  generalize y / 100 = c at *
  generalize y % 100 = z at *
  obtain ⟨hlow, hhigh⟩ := hm
  unfold Int.ModEq monthStart
  interval_cases m <;> simp [Finset.sum_range_succ, monthLength, Leap] <;> omega

lemma zeller_eq {m : ℕ} (hm : 1 ≤ m ∧ m ≤ 12) (hyear : 1 ≤ year) :
    zeller m year = weekday year (monthStart year (m - 1)) := by
  have hday := yearStart_add_monthStart year (m - 1)
  have hmonth : m - 1 < 2 ↔ m ≤ 2 := by omega
  simp only [hmonth] at hday
  unfold weekday zeller
  rw [tmod_seven, Int.add_assoc 4, hday]
  generalize hy : (if m ≤ 2 then year - 1 else year) = y
  have hnonneg : 0 ≤ y := by
    rw [← hy]
    split_ifs <;> omega
  have hback : year = if m ≤ 2 then y + 1 else y := by
    split_ifs <;> omega
  have hcongruence := zeller_congruence y hm
  rw [← hback] at hcongruence
  rw [Int.tdiv_eq_ediv_of_nonneg hnonneg, Int.tmod_eq_emod_of_nonneg hnonneg,
    Int.tdiv_eq_ediv_of_nonneg (by omega), Int.tdiv_eq_ediv_of_nonneg (by omega),
    Int.tdiv_eq_ediv_of_nonneg (by omega)]
  refine Eq.trans hcongruence ?_
  congr 1
  ring

lemma laterWeek_eq (hk : 0 ≤ k ∧ k ≤ 6) (hlength : 28 ≤ length ∧ length ≤ 31) (hn : 1 ≤ n ∧ n ≤ 5) :
    laterWeek length (n - 1) k =
      if k + 7 * (n - 1) < length then k + 7 * (n - 1) else k + 7 * (n - 1) - 7 := by
  obtain ⟨hlow, hhigh⟩ := hn
  interval_cases n
  · rw [if_pos (by omega)]
    simp [laterWeek]
  all_goals simp only [laterWeek, Nat.reduceSub]; push_cast; split_ifs <;> omega

lemma ruleDay_eq (hr : r.Valid) (hyear : 1 ≤ year) : ruleDay r year = .ok (r.date year) := by
  obtain ⟨-, -, hr⟩ := hr
  unfold ruleDay Rule.date
  cases htype : r.type with
  | J1 => simp only [isleap_iff, ge_iff_le]
  | J0 => rfl
  | M =>
    rw [htype] at hr
    obtain ⟨hm, hn, hd⟩ := hr
    have hbounds := month_bounds hm year
    obtain ⟨k, hk⟩ : ∃ k, r.m = k + 1 := ⟨r.m - 1, by omega⟩
    have hzeller := zeller_eq hm hyear
    rw [hk] at hbounds hzeller hm ⊢
    dsimp only at hbounds hzeller ⊢
    rw [Nat.add_sub_cancel] at hbounds hzeller ⊢
    rw [load_monYday year (by omega), ok_bind, load_monYday year (by omega), ok_bind, hzeller]
    have hweek : 0 ≤ weekday year (monthStart year k) ∧ weekday year (monthStart year k) ≤ 6 := by
      unfold weekday
      omega
    generalize weekday year (monthStart year k) = w at hweek ⊢
    have hfirst : (if (r.d : ℤ) - w < 0 then (r.d : ℤ) - w + 7 else (r.d : ℤ) - w) = (r.d - w) % 7 := by
      split_ifs <;> omega
    rw [hfirst, laterWeek_eq (by omega) (by omega) hn]
    congr 1
    split_ifs <;> omega

lemma date_mem (hr : r.Valid) (year : ℤ) : 0 ≤ r.date year ∧ r.date year ≤ 366 := by
  have hvalid := hr
  obtain ⟨-, -, hr⟩ := hr
  cases htype : r.type with
  | J1 =>
    rw [htype] at hr
    rw [Rule.date, htype]
    dsimp only at hr ⊢
    split_ifs <;> omega
  | J0 =>
    rw [htype] at hr
    rw [Rule.date, htype]
    dsimp only at hr ⊢
    omega
  | M =>
    have hdenotes : r.Denotes year (r.date year) := (denotes_iff hvalid).mpr rfl
    rw [htype] at hr
    unfold Rule.Denotes at hdenotes
    rw [htype] at hdenotes
    have hmono := (monthStart_strictMono year).monotone
    have hstart := hmono (Nat.zero_le (r.m - 1))
    have hend := hmono hr.1.2
    rw [monthStart_twelve] at hend
    have hlength := yearLength_mem year
    rw [monthStart_zero] at hstart
    omega

end

/-! ## The change of a year -/

section

variable {r rule : Rule} {year t x : ℤ}

lemma changeIn_iff (hr : r.Valid) (hyear : 1 ≤ year) (hjanuary : januaryFirst year = .ok t)
    (ht : 0 ≤ t ∧ t < 2 ^ 60) : changeIn r year = .ok x ↔
      Fits 64 (t + 86400 * r.date year + r.secs - r.offset) ∧
        x = t + 86400 * r.date year + r.secs - r.offset := by
  have hdate := date_mem hr year
  have hday := ruleDay_eq hr hyear
  obtain ⟨hsecs, hoffset, -⟩ := hr
  have hend : t + r.date year * 86400 - r.offset + r.secs =
      t + 86400 * r.date year + r.secs - r.offset := by
    ring
  rw [changeIn, hjanuary, ok_bind, hday, ok_bind, secsPerDay_eq, time_eq (by omega), ok_bind]
  unfold Fits at hoffset
  by_cases hmiddle : Fits 64 (t + r.date year * 86400 - r.offset)
  · rw [time, checked_eq hmiddle, ok_bind, hend, time, checked]
    split_ifs with hfits <;> simp [hfits, eq_comm]
  -- the offset can only lead above the range, and the time of day does not lead back
  have hlarge : ¬ Fits 64 (t + 86400 * r.date year + r.secs - r.offset) := by
    unfold Fits at hmiddle ⊢
    omega
  rw [time, checked, if_neg hmiddle]
  simp [hlarge]

lemma yearStart_mem (hyear : 1970 ≤ year) (hlast : year ≤ lastYear) :
    0 ≤ 86400 * yearStart year ∧ 86400 * yearStart year < 2 ^ 60 := by
  have hepoch := yearStart_strictMono.monotone hyear
  rw [yearStart_epoch] at hepoch
  unfold lastYear at hlast
  refine ⟨by omega, ?_⟩
  unfold yearStart leapsThrough
  omega

lemma changeIn_since_epoch (hr : r.Valid) (hyear : 1970 ≤ year) : changeIn r year = .ok x ↔
      year ≤ lastYear ∧ Fits 64 (r.instant year (r.date year)) ∧ x = r.instant year (r.date year) := by
  have hinstant : r.instant year (r.date year) =
      86400 * yearStart year + 86400 * r.date year + r.secs - r.offset := by
    unfold Rule.instant
    ring
  by_cases hlast : year ≤ lastYear
  · rw [changeIn_iff hr (by omega) (januaryFirst_eq hyear hlast) (yearStart_mem hyear hlast), hinstant]
    simp [hlast]
  · obtain ⟨fault, hfault⟩ := januaryFirst_fails (not_le.mp hlast)
    simp [changeIn, hfault, hlast]

/-- Before 1970 the code takes the first day of 1970 for that of the year. -/
lemma changeIn_before_epoch (hr : r.Valid) (hyear : 1 ≤ year ∧ year < 1970)
    (hx : changeIn r year = .ok x) : x ≠ r.instant year (r.date year) := by
  have hepoch := yearStart_strictMono hyear.2
  rw [yearStart_epoch] at hepoch
  rw [changeIn_iff hr hyear.1 (januaryFirst_before hyear.2) (by norm_num)] at hx
  unfold Rule.instant
  omega

def Rule.Computed (r rule : Rule) : Prop :=
  r.computedFor = -1 ∧ ∃ years : List ℤ, years.foldlM computeChange r = .ok rule

lemma Rule.Computed.current (h : r.Computed rule) :
    rule = { r with change := rule.change, computedFor := rule.computedFor } ∧
      (rule.computedFor ≠ -1 → changeIn r rule.computedFor = .ok rule.change) := by
  obtain ⟨hfresh, years, hrun⟩ := h
  induction years using List.reverseRecOn generalizing rule with
  | nil =>
    cases hrun
    exact ⟨rfl, fun hcomputed => absurd hfresh hcomputed⟩
  | append_singleton years year ih =>
    rw [List.foldlM_append] at hrun
    obtain ⟨before, hbefore, hlast⟩ := ok_of_bind hrun
    obtain ⟨hrule, hcurrent⟩ := ih hbefore
    obtain ⟨after, hstep, hafter⟩ := ok_of_bind hlast
    cases hafter
    unfold computeChange at hstep
    split_ifs at hstep with hdone
    · cases hstep
      exact ⟨hrule, hcurrent⟩
    obtain ⟨change, hchange, hresult⟩ := ok_of_bind hstep
    cases hresult
    rw [hrule] at hchange ⊢
    exact ⟨rfl, fun _ => hchange⟩

lemma computeChange_eq (h : r.Computed rule) (hyear : year ≠ -1) :
    computeChange rule year = (changeIn r year >>= fun change =>
      .ok { r with change := change, computedFor := year }) := by
  obtain ⟨hrule, hcurrent⟩ := h.current
  unfold computeChange
  by_cases hdone : rule.computedFor = year
  · rw [if_pos ⟨hyear, hdone⟩, ← hdone, hcurrent (by rwa [hdone]), ok_bind, ← hrule]
  · rw [if_neg (fun hboth => hdone hboth.2), hrule]
    rfl

/-- The change of a rule is the one of the day it denotes from 1970 on, but in no earlier
year, where the days are counted from 1970. -/
theorem computeChange_denotes_iff (r rule : Rule) (year : ℤ) (hr : r.Valid) (hrun : r.Computed rule)
    (hyear : 1 ≤ year ∧ year ≤ 100000) : (∃ result, computeChange rule year = .ok result ∧
        ∃ day, r.Denotes year day ∧ result.change = r.instant year day) ↔
      1970 ≤ year ∧ ∀ day, r.Denotes year day → Fits 64 (r.instant year day) := by
  have hlast : year ≤ lastYear := by
    unfold lastYear
    omega
  simp only [denotes_iff hr, forall_eq, exists_eq_left]
  rw [computeChange_eq hrun (by omega)]
  constructor
  · rintro ⟨result, hresult, hchange⟩
    obtain ⟨change, hstored, hresult⟩ := ok_of_bind hresult
    cases hresult
    have hepoch : 1970 ≤ year := by
      by_contra hlt
      exact changeIn_before_epoch hr ⟨hyear.1, not_le.mp hlt⟩ hstored hchange
    rw [changeIn_since_epoch hr hepoch] at hstored
    exact ⟨hepoch, hstored.2.1⟩
  · rintro ⟨hepoch, hfits⟩
    rw [(changeIn_since_epoch hr hepoch).mpr ⟨hlast, hfits, rfl⟩]
    exact ⟨_, rfl, rfl⟩

end

def newYear : Rule := ⟨.J1, 0, 0, 1, 0, 36000, 0, -1⟩

/-- The last Sunday of October at three o'clock of the daylight saving time of `newYear`. -/
def october : Rule := ⟨.M, 10, 5, 0, 10800, 39600, 0, -1⟩

lemma newYear_valid : newYear.Valid := by
  refine ⟨by decide, by decide, ?_⟩
  simp [newYear]

lemma october_valid : october.Valid := by
  refine ⟨by decide, by decide, ?_⟩
  simp [october]

lemma Rule.Computed.fresh {r : Rule} (h : r.computedFor = -1) : r.Computed r := ⟨h, [], rfl⟩

theorem computeChange_denotes_october : ∃ result, computeChange october 2013 = .ok result ∧
      ∃ day, october.Denotes 2013 day ∧ result.change = october.instant 2013 day := by
  refine (computeChange_denotes_iff october october 2013 october_valid (.fresh rfl) (by decide)).mpr
    ⟨by decide, fun day hday => ?_⟩
  rw [denotes_iff october_valid] at hday
  subst hday
  decide

/-- In 1969 the change is put at the start of 1970. -/
theorem computeChange_ignores_year : newYear.Valid ∧ newYear.Computed newYear ∧
      ∃ result, computeChange newYear 1969 = .ok result ∧
        ∀ day, newYear.Denotes 1969 day → result.change ≠ newYear.instant 1969 day := by
  refine ⟨newYear_valid, .fresh rfl, { newYear with change := -36000, computedFor := 1969 }, rfl, ?_⟩
  intro day hday
  rw [denotes_iff newYear_valid] at hday
  subst hday
  decide

/-! ## Daylight saving time -/

def Within (first last : ℤ → ℤ) (year timer : ℤ) : Prop := first year ≤ timer ∧ timer < last year

instance (first last : ℤ → ℤ) (year timer : ℤ) : Decidable (Within first last year timer) :=
  inferInstanceAs (Decidable (_ ∧ _))

def Rule.ChangesAt (r : Rule) (change : ℤ → ℤ) : Prop :=
  ∀ y, ∃ day, r.Denotes y day ∧ change y = r.instant y day

section

variable {std dst s d : Rule} {start finish : ℤ → ℤ} {timer : ℤ} {tm : Tm} {c : Civil}

lemma Rule.ChangesAt.eq {r : Rule} {change : ℤ → ℤ} (h : r.ChangesAt change) (hr : r.Valid) (y : ℤ) :
    change y = r.instant y (r.date y) := by
  obtain ⟨day, hday, hchange⟩ := h y
  rwa [(denotes_iff hr).mp hday] at hchange

/-- The change comes less than a week after the start of its day (a time of day has up to
24 hours, and up to 167 in later standards), and the offset is less than 26 hours, which
`compute_offset` sees to. -/
def Rule.Posix (r : Rule) : Prop := r.secs < 604800 ∧ -93600 < r.offset ∧ r.offset < 93600

/-- Where the change of a year lies, in seconds from the start of the year in Greenwich. -/
def Rule.place (r : Rule) (year : ℤ) : ℤ := 86400 * r.date year + r.secs - r.offset

/-- By how much the change of a year lies before the start of the year in Greenwich. -/
def Rule.lead (r : Rule) (year : ℤ) : ℤ := -r.place year

/-- The seconds of the year so far. -/
def elapsed (c : Civil) : ℤ := c.instant - 86400 * yearStart c.year

/-- The seconds left of the year. -/
def remaining (c : Civil) : ℤ := 86400 * yearLength c.year - elapsed c

def Between (first second : Rule) (c : Civil) : Prop :=
  first.place c.year ≤ elapsed c ∧ elapsed c < second.place c.year

instance (first second : Rule) (c : Civil) : Decidable (Between first second c) :=
  inferInstanceAs (Decidable (_ ∧ _))

section
variable {first second r : Rule} {change change' : ℤ → ℤ}

lemma place_mem (hr : r.Valid) (hp : r.Posix) (y : ℤ) :
    -93600 < r.place y ∧ r.place y < 86400 * 366 + 698400 := by
  have hdate := date_mem hr y
  obtain ⟨hsecs, hlow, hhigh⟩ := hp
  unfold Rule.place
  omega

section
variable (hfirst : first.Valid) (hsecond : second.Valid) (hp : first.Posix) (hp' : second.Posix)
  (hchange : first.ChangesAt change) (hchange' : second.ChangesAt change')
include hfirst hsecond hp hp' hchange hchange'

end

end

end

end Eglibc.Tzset
