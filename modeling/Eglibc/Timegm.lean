import Eglibc.Mktime

/-!
# The inverse of the conversion to UTC

`__mktime_internal` with `__offtime` without an offset, for a `time_t` of 64 bits.
-/
namespace Eglibc.Timegm
open Checked Signed Calendar Offtime Mktime

/-- `__gmtime_r`; a `time_t` has 64 bits. -/
def gmtimeR (t : ℤ) (tm : Tm) : Bool × Tm :=
  if Fits 64 t then
    match offtime t 0 { tm with isdst := 0 } with
    | .ok (r, tm') => (decide (r ≠ 0), tm')
    | .error _ => (false, tm)
  else (false, tm)

def brokenDown (c : Civil) : Tm :=
  ⟨c.second, c.minute, c.hour, c.day, c.month, c.year - 1900, c.wday, c.yday, 0⟩

/-- The instant that the fields stand for: a month outside the year counts whole years, and
the other numbers are added up. -/
def instantOf (tp : Tm) : ℤ :=
  let year := 1900 + tp.year + tp.mon / 12
  86400 * (yearStart year + monthStart year (tp.mon % 12).toNat + (tp.mday - 1)) + 3600 * tp.hour +
    60 * tp.min + tp.sec

/-- The year of the instant fits, counted from 1900, in an `int`. -/
def YearFits (i : ℤ) : Prop := ∃ c : Civil, c.instant = i ∧ Fits 32 (c.year - 1900)

structure IntFields (tp : Tm) : Prop where
  sec : Fits 32 tp.sec
  min : Fits 32 tp.min
  hour : Fits 32 tp.hour
  mday : Fits 32 tp.mday
  mon : Fits 32 tp.mon
  year : Fits 32 tp.year
  isdst : Fits 32 tp.isdst

def firstInstant : ℤ := 86400 * yearStart (1900 - 2 ^ 31)

def lastInstant : ℤ := 86400 * yearStart (1900 + 2 ^ 31) - 1

section
variable {c : Civil} {i : ℤ}

lemma firstInstant_eq : firstInstant = -67768040609740800 := by decide

lemma lastInstant_eq : lastInstant = 67768036191676799 := by decide

lemma le_instant_iff (c : Civil) (y : ℤ) : 86400 * yearStart y ≤ c.instant ↔ y ≤ c.year := by
  have hyear := c.year_mem
  have hhour := c.hour_mem
  have hminute := c.minute_mem
  have hsecond := c.second_mem
  unfold Civil.instant
  constructor
  · intro h
    have hlt : yearStart y < yearStart (c.year + 1) := by omega
    have := yearStart_strictMono.lt_iff_lt.mp hlt
    omega
  · intro h
    have := yearStart_strictMono.monotone h
    omega

lemma fits_iff (c : Civil) :
    Fits 32 (c.year - 1900) ↔ firstInstant ≤ c.instant ∧ c.instant ≤ lastInstant := by
  have hfirst := le_instant_iff c (1900 - 2 ^ 31)
  have hlast := le_instant_iff c (1900 + 2 ^ 31)
  unfold firstInstant lastInstant Fits
  omega

lemma yearFits_iff : YearFits i ↔ firstInstant ≤ i ∧ i ≤ lastInstant := by
  constructor
  · rintro ⟨c, rfl, h⟩
    exact (fits_iff c).mp h
  · intro h
    obtain ⟨c, rfl⟩ := Civil.instant_surjective i
    exact ⟨c, rfl, (fits_iff c).mpr h⟩

lemma gmtimeR_eq (tm : Tm) (hc : firstInstant ≤ c.instant ∧ c.instant ≤ lastInstant) :
    gmtimeR c.instant tm = (true, brokenDown c) := by
  have hfits := (fits_iff c).mpr hc
  rw [firstInstant_eq, lastInstant_eq] at hc
  have ht : Fits 64 c.instant := by
    unfold Fits
    omega
  have hresult := offtime_eq { tm with isdst := 0 } ht (by decide : -604800 ≤ (0 : ℤ) ∧ _)
    (c := c) (by omega)
  rw [gmtimeR, if_pos ht, hresult, if_pos hfits]
  rfl

lemma gmtimeR_fails {t : ℤ} (tm : Tm) (ht : ¬ (firstInstant ≤ t ∧ t ≤ lastInstant)) :
    (gmtimeR t tm).1 = false := by
  unfold gmtimeR
  by_cases hfits : Fits 64 t
  · obtain ⟨c, hc⟩ := Civil.instant_surjective t
    have hresult := offtime_eq { tm with isdst := 0 } hfits (by decide : -604800 ≤ (0 : ℤ) ∧ _)
      (c := c) (by omega)
    have hyear : ¬ Fits 32 (c.year - 1900) := by rwa [fits_iff, hc]
    simp [hfits, hresult, hyear]
  · rw [if_neg hfits]

end

def utc : Converter .bits64 where
  call := gmtimeR
  first := firstInstant
  last := lastInstant
  least_le := by decide
  first_le := by decide
  le_last := by decide
  le_greatest := by decide
  succeeds t tm := by
    by_cases h : firstInstant ≤ t ∧ t ≤ lastInstant
    · obtain ⟨c, rfl⟩ := Civil.instant_surjective t
      simp [gmtimeR_eq tm h, h]
    · simp [gmtimeR_fails tm h, h]
  determined t tm tm' h := by
    by_cases ht : firstInstant ≤ t ∧ t ≤ lastInstant
    · obtain ⟨c, rfl⟩ := Civil.instant_surjective t
      rw [gmtimeR_eq tm ht, gmtimeR_eq tm' ht]
    · rw [gmtimeR_fails tm ht] at h
      cases h

section
variable {x y : ℤ} {q : Request} {c : Civil} {tp : Tm}

lemma cast_eq (h : -2 ^ 63 ≤ x ∧ x < 2 ^ 63) : TimeT.bits64.cast x = x := wrap_eq (by decide) h

lemma timeTAddOk_eq (h : -2 ^ 63 ≤ x + y ∧ x + y < 2 ^ 63) : timeTAddOk .bits64 x y = true := by
  rw [timeTAddOk, cast_eq h, beq_iff_eq, decide_eq_decide]
  omega

def requested (q : Request) : ℤ :=
  86400 * (yearStart (1900 + q.year) + q.yday) + 3600 * q.hour + 60 * q.min + q.sec

structure Moderate (q : Request) : Prop where
  year : -2 ^ 32 < q.year ∧ q.year < 2 ^ 32
  yday : -2 ^ 33 < q.yday ∧ q.yday < 2 ^ 33
  hour : -2 ^ 33 < q.hour ∧ q.hour < 2 ^ 33
  min : -2 ^ 33 < q.min ∧ q.min < 2 ^ 33
  sec : 0 ≤ q.sec ∧ q.sec < 60

lemma leapCounts_eq (hy : -2 ^ 32 < y ∧ y < 2 ^ 32) :
    leapCounts y = ((y + 1899) / 4, (y + 1899) / 100, (y + 1899) / 400) := by
  have hfourth : int (shr y 2 + shr 1900 2 - if y % 4 = 0 then 1 else 0) = (y + 1899) / 4 := by
    unfold shr
    rw [int_eq (by split_ifs <;> omega)]
    split_ifs <;> omega
  have hdiv := div_eq ((y + 1899) / 4) (by decide : (0 : ℤ) < 25)
  unfold Offtime.div at hdiv
  unfold leapCounts
  dsimp only
  rw [hfourth, hdiv, shr]
  refine Prod.ext rfl (Prod.ext ?_ ?_)
  · dsimp only
    omega
  · dsimp only
    omega

lemma ydhmsDiff_eq (hq : Moderate q) {year0 yday0 hour0 min0 sec0 : ℤ}
    (hyear : -2 ^ 31 ≤ year0 ∧ year0 < 2 ^ 31) (hyday : -2 ^ 33 < yday0 ∧ yday0 < 2 ^ 33)
    (hhour : -2 ^ 33 < hour0 ∧ hour0 < 2 ^ 33) (hmin : -2 ^ 33 < min0 ∧ min0 < 2 ^ 33)
    (hsec : -2 ^ 33 < sec0 ∧ sec0 < 2 ^ 33) : ydhmsDiff .bits64 q year0 yday0 hour0 min0 sec0 =
      requested q - requested ⟨year0, yday0, hour0, min0, sec0⟩ := by
  have hqyear := hq.year
  have hqyday := hq.yday
  have hqhour := hq.hour
  have hqmin := hq.min
  have hqsec := hq.sec
  rw [ydhmsDiff, leapCounts_eq hq.year, leapCounts_eq (by omega)]
  dsimp only
  rw [int_eq (by omega), cast_eq (x := q.year) (by omega), cast_eq (x := q.year - year0) (by omega)]
  have hdays : 365 * (q.year - year0) + q.yday - yday0 +
      ((q.year + 1899) / 4 - (year0 + 1899) / 4 - ((q.year + 1899) / 100 - (year0 + 1899) / 100) +
        ((q.year + 1899) / 400 - (year0 + 1899) / 400)) =
      yearStart (1900 + q.year) + q.yday - (yearStart (1900 + year0) + yday0) := by
    unfold yearStart leapsThrough
    omega
  have hstart : -2 ^ 43 < yearStart (1900 + q.year) ∧ yearStart (1900 + q.year) < 2 ^ 43 := by
    unfold yearStart leapsThrough
    omega
  have hstart0 : -2 ^ 43 < yearStart (1900 + year0) ∧ yearStart (1900 + year0) < 2 ^ 43 := by
    unfold yearStart leapsThrough
    omega
  unfold requested
  dsimp only
  rw [hdays]
  generalize yearStart (1900 + q.year) = start at hstart ⊢
  generalize yearStart (1900 + year0) = start0 at hstart0 ⊢
  rw [cast_eq (x := start + q.yday - (start0 + yday0)) (by omega),
    cast_eq (x := 24 * _ + q.hour - hour0) (by omega), cast_eq (x := 60 * _ + q.min - min0) (by omega),
    cast_eq (by omega)]
  omega

lemma requested_bound (hq : Moderate q) : -2 ^ 61 < requested q ∧ requested q < 2 ^ 61 := by
  have hyear := hq.year
  have hyday := hq.yday
  have hhour := hq.hour
  have hmin := hq.min
  have hsec := hq.sec
  unfold requested yearStart leapsThrough
  omega

lemma guess_eq (hq : Moderate q) (hc : firstInstant ≤ c.instant ∧ c.instant ≤ lastInstant) :
    guessTimeTm .bits64 q c.instant (some (brokenDown c)) = requested q := by
  have hyear := (fits_iff c).mpr hc
  have hyday := c.yday_mem
  have hlength := yearLength_mem c.year
  have hhour := c.hour_mem
  have hminute := c.minute_mem
  have hsecond := c.second_mem
  have hbound := requested_bound hq
  have hdiff : ydhmsDiff .bits64 q (brokenDown c).year (brokenDown c).yday (brokenDown c).hour
      (brokenDown c).min (brokenDown c).sec = requested q - c.instant := by
    dsimp only [brokenDown]
    rw [ydhmsDiff_eq hq hyear (by omega) (by omega) (by omega) (by omega)]
    simp only [requested, Civil.instant, Civil.dayNumber]
    simp
  unfold guessTimeTm
  dsimp only
  rw [hdiff, if_pos (timeTAddOk_eq (by omega)), cast_eq (by omega)]
  omega

lemma leapyear_eq (y : ℤ) : leapyear y = isleap (1900 + y) := by
  rw [Bool.eq_iff_iff, isleap_iff]
  have htmod : y.tmod 100 = 0 ↔ y % 100 = 0 := by
    rw [← Int.dvd_iff_tmod_eq_zero, ← Int.dvd_iff_emod_eq_zero]
  unfold leapyear Leap
  simp only [Bool.and_eq_true, Bool.or_eq_true, decide_eq_true_eq, ne_eq, htmod]
  by_cases hcentury : y % 100 = 0
  · rw [Int.tdiv_eq_ediv_of_dvd (Int.dvd_of_emod_eq_zero hcentury)]
    omega
  · omega

def clamped (tp : Tm) : Tm := { tp with sec := min 59 (max 0 tp.sec) }

lemma request_eq (tp : Tm) (htp : IntFields tp) :
    Moderate (request tp) ∧ requested (request tp) = instantOf (clamped tp) := by
  have hyear := htp.year
  have hmon := htp.mon
  have hmday := htp.mday
  have hhour := htp.hour
  have hmin := htp.min
  unfold Fits at hyear hmon hmday hhour hmin
  have hyears : tp.mon.tdiv 12 - (if tp.mon.tmod 12 < 0 then 1 else 0) = tp.mon / 12 :=
    div_eq tp.mon (by decide)
  have hmonths : tp.mon.tmod 12 + 12 * (if tp.mon.tmod 12 < 0 then 1 else 0) = tp.mon % 12 := by
    have := Int.mul_tdiv_add_tmod tp.mon 12
    omega
  have hmonth : (tp.mon % 12).toNat ≤ 12 := by omega
  have hday : (monYday (isleap (1900 + (tp.year + tp.mon / 12)))).getD (tp.mon % 12).toNat 0 =
      monthStart (1900 + (tp.year + tp.mon / 12)) (tp.mon % 12).toNat := by
    have hload := load_monYday (1900 + (tp.year + tp.mon / 12)) hmonth
    unfold load at hload
    rw [List.getD_eq_getElem?_getD]
    split at hload
    · next a ha => rw [ha, Option.getD_some, Except.ok.inj hload]
    · cases hload
  have hrequest : request tp = ⟨tp.year + tp.mon / 12,
      monthStart (1900 + (tp.year + tp.mon / 12)) (tp.mon % 12).toNat - 1 + tp.mday, tp.hour, tp.min,
      min 59 (max 0 tp.sec)⟩ := by
    unfold request
    dsimp only
    rw [hyears, hmonths, leapyear_eq, hday]
  have hfirst := (monthStart_strictMono (1900 + (tp.year + tp.mon / 12))).monotone
    (Nat.zero_le (tp.mon % 12).toNat)
  have hlast := (monthStart_strictMono (1900 + (tp.year + tp.mon / 12))).monotone hmonth
  have hlength := yearLength_mem (1900 + (tp.year + tp.mon / 12))
  rw [monthStart_zero] at hfirst
  rw [monthStart_twelve] at hlast
  rw [hrequest]
  constructor
  · exact ⟨by dsimp only; omega, by dsimp only; omega, by dsimp only; omega, by dsimp only; omega,
      by dsimp only; omega⟩
  · simp only [requested, instantOf, clamped, add_assoc]
    omega

end

section
variable {q : Request} {isdst t : ℤ}

def nearest (t : ℤ) : ℤ := max firstInstant (min lastInstant t)

lemma nearest_mem (t : ℤ) : firstInstant ≤ nearest t ∧ nearest t ≤ lastInstant := by
  have hle : firstInstant ≤ lastInstant := by decide
  unfold nearest
  omega

lemma nearest_eq (ht : firstInstant ≤ t ∧ t ≤ lastInstant) : nearest t = t := by
  unfold nearest
  omega

lemma rangedConvert_utc (t : ℤ) (tm : Tm) : ∃ c : Civil, c.instant = nearest t ∧
      rangedConvert utc t tm = .ok (true, nearest t, brokenDown c) := by
  have hfirst : utc.first < 0 := by decide
  have hlast : 0 < utc.last := by decide
  obtain ⟨c, hc⟩ := Civil.instant_surjective (nearest t)
  obtain ⟨⟨r, t', tm'⟩, heq, hranged⟩ := rangedConvert_returns utc t tm
  cases r with
  | true =>
    obtain ⟨-, hconverts, ht'⟩ := hranged
    obtain rfl : t' = nearest t := ht'
    have hcall : (true, brokenDown c) = (true, tm') := by
      rw [← hconverts tm, ← hc]
      exact (gmtimeR_eq tm (by rw [hc]; exact nearest_mem t)).symm
    cases hcall
    exact ⟨c, hc, heq⟩
  | false =>
    have hbeyond := hranged.1
    unfold Converter.Beyond at hbeyond
    omega

lemma probeBody_utc (hq : Moderate q) (isdst : ℤ) (s : Probe) :
    ∃ c : Civil, c.instant = nearest s.t ∧ probeBody utc q isdst s =
      if nearest s.t ≠ requested q then
        if oscillating isdst s (nearest s.t) (brokenDown c) then
          .ok (.inr (.oscillates (nearest s.t) (brokenDown c), s.calls + 1))
        else if s.remaining - 1 = 0 then .ok (.inr (.exhausted, s.calls + 1))
        else .ok (.inl ⟨requested q, s.t2, nearest s.t, (brokenDown c).isdst ≠ 0, s.remaining - 1,
          brokenDown c, s.calls + 1⟩)
      else .ok (.inr (.matched (nearest s.t) (brokenDown c), s.calls + 1)) := by
  obtain ⟨c, hc, hranged⟩ := rangedConvert_utc s.t s.tm
  have hguess : guessTimeTm .bits64 q (nearest s.t) (bif true then some (brokenDown c) else none) =
      requested q := by
    rw [← hc]
    exact guess_eq hq (by rw [hc]; exact nearest_mem s.t)
  refine ⟨c, hc, ?_⟩
  rw [probeBody, hranged, ok_bind]
  dsimp only
  rw [hguess]

/-- What the probes keep: they do not go back and forth, and after the first one the
requested time is probed. -/
def Settles (q : Request) (s : Probe) : Prop :=
  (s.t = requested q ∨ s.t2 = s.t ∧ s.remaining = 6) ∧ (nearest s.t = s.t1 → nearest s.t = s.t2)

def Settled (q : Request) : Probed × ℕ → Prop
  | (.matched t tm, _) => ∃ c : Civil, c.instant = requested q ∧
      (firstInstant ≤ requested q ∧ requested q ≤ lastInstant) ∧ t = requested q ∧ tm = brokenDown c
  | (.oscillates _ _, _) => False
  | (.exhausted, _) => ¬ (firstInstant ≤ requested q ∧ requested q ≤ lastInstant)

lemma probe_utc (hq : Moderate q) (isdst t0 : ℤ) (tm : Tm) :
    Returns (probe utc q isdst t0 tm) (Settled q) := by
  obtain ⟨out, hout, -⟩ := probe_returns utc q isdst t0 tm
  refine ⟨out, hout, ?_⟩
  apply iterate_ok (I := Settles q) _ _ _ hout
  · rintro s s' ⟨hnext, hstay⟩ heq
    obtain ⟨c, hc, hbody⟩ := probeBody_utc hq isdst s
    rw [hbody] at heq
    split_ifs at heq with hne hosc hlast <;> cases heq
    refine ⟨.inl rfl, ?_⟩
    dsimp only
    intro hback
    rcases hnext with ht | ⟨ht, -⟩
    · rw [ht]
    · rw [← ht, ← hback, nearest_eq (nearest_mem _)]
  · rintro s r ⟨hnext, hstay⟩ heq
    obtain ⟨c, hc, hbody⟩ := probeBody_utc hq isdst s
    rw [hbody] at heq
    split_ifs at heq with hne hosc hlast <;> cases heq
    · have hvalues := oscillating_values hosc
      exact hvalues.2 (hstay hvalues.1)
    · intro hin
      rcases hnext with ht | ⟨-, hremaining⟩
      · rw [ht] at hne
        exact hne (nearest_eq hin)
      · omega
    · have hmatch := not_not.mp hne
      exact ⟨c, hc.trans hmatch, hmatch ▸ nearest_mem s.t, hmatch, rfl⟩
  · refine ⟨.inr ⟨rfl, rfl⟩, fun h => h⟩

lemma neighbour_utc (stack : Uninitialised) (h : isdstDiffer isdst 0 = true) (deltas : List ℤ) :
    neighbour utc stack q isdst t deltas = .ok none := by
  induction deltas with
  | nil => rfl
  | cons delta rest ih =>
    obtain ⟨c, -, hranged⟩ := rangedConvert_utc (TimeT.bits64.cast (t + delta))
      (stack.otm (TimeT.bits64.cast (t + delta)))
    have hsame : (!isdstDiffer isdst (brokenDown c).isdst) = false := by
      simp [show (brokenDown c).isdst = 0 from rfl, h]
    unfold neighbour
    dsimp only
    rw [hranged, ok_bind, ih]
    rw [hsame, if_neg Bool.false_ne_true]
    split_ifs <;> rfl

end

section
variable {tp : Tm} {c : Civil}

lemma second_eq (hc : c.instant = instantOf (clamped tp)) : c.second = min 59 (max 0 tp.sec) := by
  have hsecond := c.second_mem
  simp only [instantOf, clamped, Civil.instant] at hc
  omega

lemma instantOf_clamped (tp : Tm) :
    instantOf tp = instantOf (clamped tp) + tp.sec - min 59 (max 0 tp.sec) := by
  simp only [instantOf, clamped]
  omega

lemma offsetFound_utc (htp : IntFields tp) (hc : c.instant = instantOf (clamped tp))
    (hin : firstInstant ≤ c.instant ∧ c.instant ≤ lastInstant) {c' : Civil}
    (hc' : c'.instant = instantOf tp)
    (hin' : firstInstant ≤ c'.instant ∧ c'.instant ≤ lastInstant) (t0 offset : ℤ) (calls : ℕ) :
    let out := offsetFound utc tp t0 offset c.instant (brokenDown c) calls
    out.value = instantOf tp ∧ out.tp = brokenDown c' := by
  have hsec := htp.sec
  have hsecond := second_eq hc
  have hclamp := instantOf_clamped tp
  by_cases hsame : (brokenDown c).sec = tp.sec
  · rw [offsetFound, if_neg (not_not.mpr hsame.symm)]
    have hequal : c.instant = c'.instant := by
      simp only [brokenDown] at hsame
      omega
    cases Civil.instant_injective hequal
    exact ⟨hc', rfl⟩
  have hadjusted : adjusted .bits64 tp c.instant (brokenDown c) = some c'.instant := by
    have hne : ¬ ((request tp).sec = 0 ∧ (brokenDown c).sec = 60) := by
      rintro ⟨-, h⟩
      simp only [brokenDown] at h
      omega
    have hrequest : (request tp).sec = min 59 (max 0 tp.sec) := rfl
    rw [firstInstant_eq, lastInstant_eq] at hin hin'
    unfold adjusted
    dsimp only
    rw [if_neg hne, timeTAddOk_eq (by omega), if_neg (by simp), cast_eq (by omega), hrequest,
      timeTAddOk_eq (by omega), if_neg (by simp), cast_eq (by omega)]
    congr 1
    omega
  have hcall : utc.call c'.instant (brokenDown c) = (true, brokenDown c') := gmtimeR_eq _ hin'
  rw [offsetFound, if_pos (Ne.symm hsame), hadjusted]
  dsimp only
  rw [hcall]
  exact ⟨hc', rfl⟩

lemma repair_eq (tp : Tm) (t0 offset : ℤ) : repair .bits64 tp t0 offset = some (t0, offset) :=
  if_neg (by decide)

lemma mktimeInternal_utc (stack : Uninitialised) (htp : IntFields tp) (offset : ℤ) :
    if firstInstant ≤ instantOf (clamped tp) ∧ instantOf (clamped tp) ≤ lastInstant then
      ∃ c : Civil, c.instant = instantOf (clamped tp) ∧ ∃ t0 calls,
        mktimeInternal utc stack tp offset =
          .ok (offsetFound utc tp t0 offset c.instant (brokenDown c) calls)
    else ∃ calls, mktimeInternal utc stack tp offset = .ok ⟨-1, tp, offset, false, calls⟩ := by
  obtain ⟨hmoderate, hrequested⟩ := request_eq tp htp
  obtain ⟨⟨probed, calls⟩, hprobe, hsettled⟩ := probe_utc hmoderate tp.isdst
    (firstGuess .bits64 (request tp) offset) stack.tm
  unfold mktimeInternal
  dsimp only
  rw [repair_eq]
  dsimp only
  rw [hprobe, ok_bind]
  cases probed with
  | matched t tm =>
    obtain ⟨c, hc, hin, rfl, rfl⟩ := hsettled
    rw [hrequested] at hin
    rw [if_pos hin]
    refine ⟨c, hc.trans hrequested, firstGuess .bits64 (request tp) offset, calls, ?_⟩
    dsimp only
    rw [hc]
    by_cases hdiffer : isdstDiffer tp.isdst (brokenDown c).isdst = true
    · rw [if_pos hdiffer, neighbour_utc stack hdiffer, ok_bind]
    · rw [if_neg hdiffer]
  | oscillates t tm => exact absurd hsettled id
  | exhausted =>
    rw [if_neg (hrequested ▸ hsettled)]
    exact ⟨calls, rfl⟩

lemma instantOf_brokenDown (c : Civil) : instantOf (brokenDown c) = c.instant := by
  have hmonth := c.month_lt
  have hyears : (c.month : ℤ) / 12 = 0 := by omega
  have hmonths : ((c.month : ℤ) % 12).toNat = c.month := by omega
  simp only [instantOf, brokenDown, hyears, hmonths, Civil.instant, Civil.dayNumber, Civil.yday]
  simp
  omega

lemma intFields_brokenDown (hfits : Fits 32 (c.year - 1900)) : IntFields (brokenDown c) := by
  have hmonth := c.month_lt
  have hday := c.day_mem
  have hlast := monthLength_le c.year c.month
  have hhour := c.hour_mem
  have hminute := c.minute_mem
  have hsecond := c.second_mem
  constructor <;> simp only [brokenDown]
  case year => exact hfits
  all_goals unfold Fits; omega

end

/-- Every call of `__mktime_internal` with the conversion to UTC returns the time of the
fields with its broken-down form, if its year fits, exactly if the year still fits when
the seconds are clamped; so `timegm` is the inverse of `gmtime`. -/
theorem timegm_exact_iff (stack : Uninitialised) (tp : Tm) (offset : ℤ) (htp : IntFields tp) :
    (∃ out, mktimeInternal utc stack tp offset = .ok out ∧
      ((∀ c : Civil, c.instant = instantOf tp → Fits 32 (c.year - 1900) →
          out.value = instantOf tp ∧ out.tp = brokenDown c) ↔
        (YearFits (instantOf tp) → YearFits (instantOf (clamped tp))))) ∧
    ∀ c : Civil, Fits 32 (c.year - 1900) →
      ∃ out, mktimeInternal utc stack (brokenDown c) offset = .ok out ∧ out.value = c.instant ∧
        out.tp = brokenDown c := by
  constructor
  · have hcall := mktimeInternal_utc stack htp offset
    split_ifs at hcall with hin
    · obtain ⟨c, hc, t0, calls, heq⟩ := hcall
      refine ⟨_, heq, iff_of_true ?_ fun _ => yearFits_iff.mpr hin⟩
      intro c' hc' hfits
      exact offsetFound_utc htp hc (hc ▸ hin) hc' ((fits_iff c').mp hfits) t0 offset calls
    obtain ⟨calls, heq⟩ := hcall
    refine ⟨_, heq, ?_⟩
    have hclamp := instantOf_clamped tp
    have hsec := htp.sec
    unfold Fits at hsec
    rw [firstInstant_eq, lastInstant_eq] at hin
    constructor
    · rintro hvalue ⟨c, hc, hfits⟩
      have := (hvalue c hc hfits).1
      dsimp only at this
      omega
    · intro hboth c hc hfits
      have hclamped := yearFits_iff.mp (hboth ⟨c, hc, hfits⟩)
      exact absurd hclamped hin
  · intro c hfits
    have hin := (fits_iff c).mp hfits
    have hfields := intFields_brokenDown hfits
    have hinstant := instantOf_brokenDown c
    have hclamped : clamped (brokenDown c) = brokenDown c := by
      have hsecond := c.second_mem
      have hsame : min 59 (max 0 c.second) = c.second := by omega
      simp only [clamped, brokenDown, hsame]
    have hcall := mktimeInternal_utc stack hfields offset
    rw [if_pos (by rwa [hclamped, hinstant])] at hcall
    obtain ⟨c', hc', t0, calls, heq⟩ := hcall
    rw [hclamped, hinstant] at hc'
    cases Civil.instant_injective hc'
    have hfound := offsetFound_utc hfields (by rw [hclamped, hinstant]) hin hinstant.symm hin t0 offset
      calls
    rw [hinstant] at hfound
    exact ⟨_, heq, hfound⟩

/-- The first second of 1970 given as the sixtieth of the minute before. -/
theorem timegm_exact_iff_sixty :
    ∃ out, mktimeInternal utc zeroStack ⟨60, 59, 23, 31, 11, 69, 0, 0, 0⟩ 0 = .ok out ∧
      (YearFits 0 → YearFits (-1) → out.value = 0) := by
  obtain ⟨⟨out, heq, hiff⟩, -⟩ := timegm_exact_iff zeroStack ⟨60, 59, 23, 31, 11, 69, 0, 0, 0⟩ 0
    ⟨by decide, by decide, by decide, by decide, by decide, by decide, by decide⟩
  refine ⟨out, heq, fun hzero hbefore => ?_⟩
  obtain ⟨c, hc, hfits⟩ := hzero
  exact (hiff.mpr (fun _ => hbefore) c hc hfits).1

/-- Five seconds before the end of the last year that fits, given as negative seconds of
the next one: the call fails. -/
theorem last_year_refused : let tp : Tm := ⟨-5, 0, 0, 1, 12, 2 ^ 31 - 1, 0, 0, 0⟩
    instantOf tp = lastInstant - 4 ∧
    (gmtimeR (instantOf tp) tp) = (true, ⟨55, 59, 23, 31, 11, 2 ^ 31 - 1, 3, 364, 0⟩) ∧
    (mktimeInternal utc zeroStack tp 0).map (fun out => (out.value, out.tp)) = .ok (-1, tp) := by
  intro tp
  have hfields : IntFields tp :=
    ⟨by decide, by decide, by decide, by decide, by decide, by decide, by decide⟩
  have hcall := mktimeInternal_utc zeroStack hfields 0
  obtain ⟨calls, hfailed⟩ := hcall
  refine ⟨by decide, by decide +kernel, ?_⟩
  rw [hfailed]
  rfl

end Eglibc.Timegm
