import Eglibc.Offtime

/-!
# Inverting a conversion of time values

Model of `time/mktime.c`, for a `time_t` of 32 and of 64 bits. Signed arithmetic wraps
(`WRAPV` is 1). The conversion function succeeds exactly on an interval of time values
around 0; what it leaves in its buffer when it fails, and what uninitialised variables
hold, is arbitrary.
-/
namespace Eglibc.Mktime
open Checked Signed Offtime

inductive TimeT
  | bits32
  | bits64
  deriving DecidableEq, Repr

def TimeT.bits : TimeT → ℕ
  | .bits32 => 32
  | .bits64 => 64

/-- `TIME_T_MIN` -/
def TimeT.least (w : TimeT) : ℤ := -2 ^ (w.bits - 1)

/-- `TIME_T_MAX` -/
def TimeT.greatest (w : TimeT) : ℤ := 2 ^ (w.bits - 1) - 1

def TimeT.cast (w : TimeT) (x : ℤ) : ℤ := wrap w.bits x

/-- A conversion function, with the interval of time values for which it succeeds. -/
structure Converter (w : TimeT) where
  call : ℤ → Tm → Bool × Tm
  first : ℤ
  last : ℤ
  least_le : w.least ≤ first
  first_le : first ≤ 0
  le_last : 0 ≤ last
  le_greatest : last ≤ w.greatest
  succeeds : ∀ t tm, (call t tm).1 = true ↔ first ≤ t ∧ t ≤ last
  determined : ∀ t tm tm', (call t tm).1 = true → (call t tm).2 = (call t tm').2

def Converter.Converts {w : TimeT} (c : Converter w) (t : ℤ) (tm : Tm) : Prop :=
  ∀ old, c.call t old = (true, tm)

/-- What the uninitialised `tm` holds, and `otm` when a time value is about to be converted. -/
structure Uninitialised where
  tm : Tm
  otm : ℤ → Tm

structure Request where
  year : ℤ
  yday : ℤ
  hour : ℤ
  min : ℤ
  sec : ℤ
  deriving DecidableEq, Repr

section
variable (w : TimeT)

/-- `leapyear`; the year is counted from 1900. -/
def leapyear (year : ℤ) : Bool :=
  year % 4 = 0 && (year.tmod 100 ≠ 0 || year.tdiv 100 % 4 = -(1900 / 100) % 4)

def isdstDiffer (a b : ℤ) : Bool := decide (a = 0) != decide (b = 0) && 0 ≤ a && 0 ≤ b

/-- The leap years before the year, in the arithmetic of `ydhms_diff`: fourths, hundredths
and four-hundredths. -/
def leapCounts (year : ℤ) : ℤ × ℤ × ℤ :=
  let a4 := int (shr year 2 + shr 1900 2 - if year % 4 = 0 then 1 else 0)
  let a100 := a4.tdiv 25 - if a4.tmod 25 < 0 then 1 else 0
  (a4, a100, shr a100 2)

def ydhmsDiff (q : Request) (year0 yday0 hour0 min0 sec0 : ℤ) : ℤ :=
  let (a4, a100, a400) := leapCounts q.year
  let (b4, b100, b400) := leapCounts year0
  let interveningLeapDays := int ((a4 - b4) - (a100 - b100) + (a400 - b400))
  let years := w.cast (w.cast q.year - year0)
  let days := w.cast (365 * years + q.yday - yday0 + interveningLeapDays)
  let hours := w.cast (24 * days + q.hour - hour0)
  let minutes := w.cast (60 * hours + q.min - min0)
  w.cast (60 * minutes + q.sec - sec0)

/-- `time_t_avg`, which does not overflow -/
def timeTAvg (a b : ℤ) : ℤ := shr a 1 + shr b 1 + if a % 2 = 1 ∧ b % 2 = 1 then 1 else 0

/-- `time_t_add_ok` and `time_t_int_add_ok` -/
def timeTAddOk (a b : ℤ) : Bool := decide (w.cast (a + b) < a) == decide (b < 0)

/-- `guess_time_tm`; no broken-down time stands for a null pointer. -/
def guessTimeTm (q : Request) (t : ℤ) (tp : Option Tm) : ℤ :=
  let extreme := if t < 0 then if t ≤ w.least + 1 then t + 1 else w.least
    else if w.greatest - 1 ≤ t then t - 1 else w.greatest
  match tp with
  | none => extreme
  | some tp =>
    let d := ydhmsDiff w q tp.year tp.yday tp.hour tp.min tp.sec
    if timeTAddOk w t d then w.cast (t + d) else extreme

end

section
variable {w : TimeT} (c : Converter w)

structure Bisection where
  bad : ℤ
  ok : ℤ
  t : ℤ
  r : Bool
  tm : Tm

def bisectBody (s : Bisection) : Run (Bisection ⊕ Bisection) :=
  if s.bad ≠ s.ok + (if s.bad < 0 then -1 else 1) then
    let mid := timeTAvg s.ok s.bad
    match c.call mid s.tm with
    | (true, tm) => .ok (.inl { s with ok := mid, t := mid, r := true, tm })
    | (false, tm) => .ok (.inl { s with bad := mid, t := mid, r := false, tm })
  else .ok (.inr s)

/-- `ranged_convert`: whether the returned pointer is not null, `*t` and `*tp`. -/
def rangedConvert (t : ℤ) (tp : Tm) : Run (Bool × ℤ × Tm) := do
  let (r, tp) := c.call t tp
  if !r && t ≠ 0 then do
    let s ← iterate (bisectBody c) (t.natAbs + 1) ⟨t, 0, t, r, tp⟩
    if !s.r && s.ok ≠ 0 then
      let last := c.call s.ok s.tm
      .ok (last.1, s.ok, last.2)
    else .ok (s.r, s.t, s.tm)
  else .ok (r, t, tp)

structure Probe where
  t : ℤ
  t1 : ℤ
  t2 : ℤ
  dst2 : Bool
  remaining : ℤ
  tm : Tm
  calls : ℕ

/-- How the probing loop is left: with a match, because it goes back and forth between
two values, or because it has used up its probes. -/
inductive Probed
  | matched (t : ℤ) (tm : Tm)
  | oscillates (t : ℤ) (tm : Tm)
  | exhausted

def oscillating (isdst : ℤ) (s : Probe) (t : ℤ) (tm : Tm) : Bool :=
  t = s.t1 && t ≠ s.t2 && (tm.isdst < 0 ||
    if isdst < 0 then !s.dst2 || tm.isdst ≠ 0 else decide (isdst ≠ 0) != decide (tm.isdst ≠ 0))

def probeBody (q : Request) (isdst : ℤ) (s : Probe) : Run (Probe ⊕ Probed × ℕ) := do
  let (r, t, tm) ← rangedConvert c s.t s.tm
  let gt := guessTimeTm w q t (bif r then some tm else none)
  let calls := s.calls + 1
  if t ≠ gt then
    if oscillating isdst s t tm then .ok (.inr (.oscillates t tm, calls))
    else if s.remaining - 1 = 0 then .ok (.inr (.exhausted, calls))
    else .ok (.inl ⟨gt, s.t2, t, tm.isdst ≠ 0, s.remaining - 1, tm, calls⟩)
  else .ok (.inr (.matched t tm, calls))

def probe (q : Request) (isdst t0 : ℤ) (tm : Tm) : Run (Probed × ℕ) :=
  iterate (probeBody c q isdst) 7 ⟨t0, t0, t0, false, 6, tm, 0⟩

def strides : List ℤ :=
  let stride := 601200
  let durationMax := 536454000
  let deltaBound := durationMax / 2 + stride
  (List.range ((deltaBound - 1) / stride)).flatMap fun k =>
    [-1, 1].map fun direction => ((k + 1) * stride : ℕ) * direction

/-- The search for a neighbouring time with the requested `tm_isdst`, and the time value
that is extrapolated from it. -/
def neighbour (stack : Uninitialised) (q : Request) (isdst t : ℤ) : List ℤ → Run (Option ℤ)
  | [] => .ok none
  | delta :: rest =>
    if timeTAddOk w t delta then do
      let ot := w.cast (t + delta)
      let (_, ot, otm) ← rangedConvert c ot (stack.otm ot)
      if !isdstDiffer isdst otm.isdst then .ok (some (guessTimeTm w q ot (some otm)))
      else neighbour stack q isdst t rest
    else neighbour stack q isdst t rest

end

section
variable (w : TimeT)

def request (tp : Tm) : Request :=
  let monRemainder := tp.mon.tmod 12
  let negativeMonRemainder := if monRemainder < 0 then 1 else 0
  let monYears := tp.mon.tdiv 12 - negativeMonRemainder
  let year := tp.year + monYears
  let monYday := (monYday (leapyear year)).getD (monRemainder + 12 * negativeMonRemainder).toNat 0 - 1
  ⟨year, monYday + tp.mday, tp.hour, tp.min, min 59 (max 0 tp.sec)⟩

def firstGuess (q : Request) (offset : ℤ) : ℤ :=
  ydhmsDiff w q (1970 - 1900) 0 0 0 (int (w.cast (-offset)))

def repair (tp : Tm) (t0 offset : ℤ) : Option (ℤ × ℤ) :=
  if ((((w.greatest.tdiv (2 ^ 31 - 1)).tdiv 366).tdiv 24).tdiv 60).tdiv 60 < 3 then
    let requested := int (shr tp.year 1 - shr (1970 - 1900) 1 + shr tp.mday 10 + shr tp.hour 14 +
      shr tp.min 20)
    let absDiff (t : ℤ) : ℤ :=
      let diff := int (int (shr t 26) - requested)
      if diff < 0 then -1 - diff else diff
    let threshold := shr (w.cast (w.greatest.tdiv 3 - w.least.tdiv 3)) 26
    if threshold < absDiff t0 then
      let repaired := w.cast (-1 - t0)
      if threshold < absDiff repaired then none
      else some (repaired, w.cast (offset + w.cast (repaired - t0)))
    else some (t0, offset)
  else some (t0, offset)

/-- What a call leaves: the returned value, `*tp` and `*offset`; whether the last return
was reached; and the number of calls of `guess_time_tm`. -/
structure Answer where
  value : ℤ
  tp : Tm
  offset : ℤ
  final : Bool
  calls : ℕ
  deriving DecidableEq, Repr

def adjusted (tp : Tm) (t : ℤ) (tm : Tm) : Option ℤ :=
  let sec := (request tp).sec
  let secAdjustment := (if sec = 0 ∧ tm.sec = 60 then 1 else 0) - sec
  if !timeTAddOk w t tp.sec then none
  else
    let t1 := w.cast (t + tp.sec)
    if !timeTAddOk w t1 secAdjustment then none else some (w.cast (t1 + secAdjustment))

/-- From the label `offset_found` on. -/
def offsetFound {w : TimeT} (c : Converter w) (tp : Tm) (t0 guessedOffset t : ℤ) (tm : Tm)
    (calls : ℕ) : Answer :=
  let offset := w.cast (guessedOffset + t - t0)
  let failed : Answer := ⟨-1, tp, offset, false, calls⟩
  if tp.sec ≠ tm.sec then
    match adjusted w tp t tm with
    | none => failed
    | some t2 =>
      match c.call t2 tm with
      | (false, _) => failed
      | (true, tm) => ⟨t2, tm, offset, true, calls⟩
  else ⟨t, tm, offset, true, calls⟩

def mktimeInternal {w : TimeT} (c : Converter w) (stack : Uninitialised) (tp : Tm) (offset : ℤ) :
    Run Answer := do
  let q := request tp
  match repair w tp (firstGuess w q offset) offset with
  | none => .ok ⟨-1, tp, offset, false, 0⟩
  | some (t0, guessedOffset) =>
    match ← probe c q tp.isdst t0 stack.tm with
    | (.exhausted, calls) => .ok ⟨-1, tp, offset, false, calls⟩
    | (.oscillates t tm, calls) => .ok (offsetFound c tp t0 guessedOffset t tm calls)
    | (.matched t tm, calls) =>
      if isdstDiffer tp.isdst tm.isdst then
        match ← neighbour c stack q tp.isdst t strides with
        | none => .ok (offsetFound c tp t0 guessedOffset t tm calls)
        | some guess => do
          let (_, t, tm) ← rangedConvert c guess tm
          .ok (offsetFound c tp t0 guessedOffset t tm calls)
      else .ok (offsetFound c tp t0 guessedOffset t tm calls)

end

section
variable {w : TimeT} (c : Converter w) {t : ℤ}

def Converter.Stuck (s : ℤ) : Prop := s = 1 ∧ c.last = 0 ∨ s = -1 ∧ c.first = 0

def Converter.Beyond (t : ℤ) : Prop := 0 < t ∧ c.last = 0 ∨ t < 0 ∧ c.first = 0

variable {c}

lemma Converter.converts_iff (h : c.call t old = (true, tm)) : c.Converts t tm := by
  intro old'
  have hs : (c.call t old).1 = true := by rw [h]
  have hs' : (c.call t old').1 = true := (c.succeeds t old').mpr ((c.succeeds t old).mp hs)
  have hd := c.determined t old old' hs
  rw [h] at hd
  exact Prod.ext hs' hd.symm

lemma Converter.Converts.mem (h : c.Converts t tm) : c.first ≤ t ∧ t ≤ c.last := by
  have hs := c.succeeds t tm
  rw [h tm] at hs
  exact hs.mp rfl

lemma Converter.Stuck.not_converts (hs : c.Stuck t) : ¬ c.Converts t tm := by
  intro h
  have hmem := h.mem
  unfold Converter.Stuck at hs
  omega

lemma timeTAvg_eq (a b : ℤ) : timeTAvg a b = (a + b) / 2 := by
  unfold timeTAvg shr
  split_ifs <;> omega

/-- What the search keeps: `ok` is in the interval and `bad` beyond its end, on the
side of the time value; the last conversion was that of `t`. -/
structure Bisects (c : Converter w) (t : ℤ) (s : Bisection) : Prop where
  side : 0 ≤ s.ok ∧ s.ok ≤ c.last ∧ c.last < s.bad ∧ 0 < t ∨
    s.ok ≤ 0 ∧ c.first ≤ s.ok ∧ s.bad < c.first ∧ t < 0
  good : s.r = true → s.t = s.ok ∧ s.ok ≠ 0 ∧ c.Converts s.t s.tm
  failed : s.r = false → s.t = s.bad

lemma bisectBody_returns (h : Bisects c t s) :
    Returns (bisectBody c s) (Pass (Bisects c t) (fun s => (s.bad - s.ok).natAbs)
      (fun s => Bisects c t s ∧ s.bad = s.ok + (if s.bad < 0 then -1 else 1)) s) := by
  have hfirst := c.first_le
  have hlast := c.le_last
  have hside := h.side
  unfold bisectBody
  by_cases hend : s.bad ≠ s.ok + (if s.bad < 0 then -1 else 1)
  · rw [if_pos hend, timeTAvg_eq]
    dsimp only
    rcases hcall : c.call ((s.ok + s.bad) / 2) s.tm with ⟨_ | _, tm⟩
    · have hmid := c.succeeds ((s.ok + s.bad) / 2) s.tm
      rw [hcall] at hmid
      have hout : ¬ (c.first ≤ (s.ok + s.bad) / 2 ∧ (s.ok + s.bad) / 2 ≤ c.last) :=
        fun hin => Bool.false_ne_true (hmid.mpr hin)
      apply returns_ok
      refine ⟨⟨?_, ?_, ?_⟩, ?_⟩
      · dsimp only
        omega
      · exact nofun
      · exact fun _ => rfl
      · dsimp only
        omega
    have hconverts := Converter.converts_iff hcall
    have hmem := hconverts.mem
    apply returns_ok
    refine ⟨⟨?_, ?_, ?_⟩, ?_⟩
    · dsimp only
      omega
    · exact fun _ => ⟨rfl, by dsimp only; omega, hconverts⟩
    · exact nofun
    · dsimp only
      omega
  · rw [if_neg hend]
    exact returns_ok ⟨h, not_not.mp hend⟩

/-- What `ranged_convert` does: it converts the nearest time value of the interval, but
fails beside the end of the interval that is 0. -/
def Ranged (c : Converter w) (t : ℤ) : Bool × ℤ × Tm → Prop
  | (true, t', tm) => ¬ c.Beyond t ∧ c.Converts t' tm ∧ t' = max c.first (min c.last t)
  | (false, t', _) => c.Beyond t ∧ c.Stuck t' ∧ t' = t.sign

lemma rangedConvert_returns (c : Converter w) (t : ℤ) (tp : Tm) :
    Returns (rangedConvert c t tp) (Ranged c t) := by
  have hfirst := c.first_le
  have hlast := c.le_last
  unfold rangedConvert
  rcases hcall : c.call t tp with ⟨_ | _, tm⟩
  · have hout := c.succeeds t tp
    rw [hcall] at hout
    have hout : ¬ (c.first ≤ t ∧ t ≤ c.last) := fun hin => Bool.false_ne_true (hout.mpr hin)
    have hne : t ≠ 0 := by omega
    dsimp only
    rw [if_pos (by simp [hne])]
    apply (iterate_returns (fun s => (s.bad - s.ok).natAbs) (fun s => bisectBody_returns)
      (s := (⟨t, 0, t, false, tm⟩ : Bisection)) (I := Bisects c t)
      ⟨by dsimp only; omega, nofun, fun _ => rfl⟩ (by dsimp only; omega)).bind
    rintro s ⟨h, hend⟩
    have hside := h.side
    have hbeyond : t.sign = if 0 < t then 1 else -1 := by
      split_ifs with hpos
      · exact Int.sign_eq_one_of_pos hpos
      · exact Int.sign_eq_neg_one_of_neg (by omega)
    -- the two values are neighbours now, so `ok` is the end of the interval
    have hok : s.ok = max c.first (min c.last t) := by
      split_ifs at hend <;> omega
    cases hr : s.r with
    | true =>
      obtain ⟨ht, hzero, hconverts⟩ := h.good hr
      refine returns_ok ⟨?_, hconverts, ht.trans hok⟩
      unfold Converter.Beyond
      omega
    | false =>
      have ht := h.failed hr
      by_cases hzero : s.ok = 0
      · rw [if_neg (by simp [hzero])]
        apply returns_ok
        unfold Ranged Converter.Beyond Converter.Stuck
        split_ifs at hend ⊢ <;> omega
      rw [if_pos (by simp [hzero])]
      have hin := (c.succeeds s.ok s.tm).mpr (by omega)
      rcases hcall : c.call s.ok s.tm with ⟨r, tm⟩
      rw [hcall] at hin
      obtain rfl : r = true := hin
      apply returns_ok
      refine ⟨?_, Converter.converts_iff hcall, hok⟩
      unfold Converter.Beyond
      omega
  have hconverts := Converter.converts_iff hcall
  have hmem := hconverts.mem
  refine returns_ok ⟨?_, hconverts, ?_⟩
  · unfold Converter.Beyond
    omega
  · omega

end

section
variable {w : TimeT} {c : Converter w} {q : Request} {isdst : ℤ}

lemma guess_null (w : TimeT) (q : Request) (ht : t = 1 ∨ t = -1) :
    guessTimeTm w q t none ≠ t ∧ (t = 1 → 0 < guessTimeTm w q t none) ∧
      (t = -1 → guessTimeTm w q t none < 0) := by
  unfold guessTimeTm
  dsimp only
  cases w <;> rcases ht with rfl | rfl <;> decide

/-- What the probing loop keeps. If the conversion failed at a time value, the loop has
not left it since. -/
structure Probing (c : Converter w) (s : Probe) : Prop where
  probes : s.remaining + s.calls = 6 ∧ 0 < s.remaining
  stays : c.Stuck s.t1 → s.t2 = s.t1
  next : c.Stuck s.t2 → c.Beyond s.t ∧ s.t.sign = s.t2

def Probed.Sound (c : Converter w) (q : Request) : Probed × ℕ → Prop
  | (.matched t tm, calls) => c.Converts t tm ∧ guessTimeTm w q t (some tm) = t ∧ calls ≤ 6
  | (.oscillates t tm, calls) => c.Converts t tm ∧ calls ≤ 6
  | (.exhausted, calls) => calls ≤ 6

lemma oscillating_values (h : oscillating isdst s t tm = true) : t = s.t1 ∧ t ≠ s.t2 := by
  unfold oscillating at h
  simp only [Bool.and_eq_true, decide_eq_true_eq] at h
  exact h.1

lemma probeBody_returns (h : Probing c s) : Returns (probeBody c q isdst s)
      (Pass (Probing c) (fun s => s.remaining.toNat) (Probed.Sound c q) s) := by
  have hprobes := h.probes
  have hcalls : s.calls + 1 ≤ 6 := by omega
  apply (rangedConvert_returns c s.t s.tm).bind
  rintro ⟨r, t, tm⟩ hranged
  cases r with
  | true =>
    dsimp only [cond_true]
    obtain ⟨hbeyond, hconverts, -⟩ := hranged
    have hfree : ¬ c.Stuck t := fun hs => hs.not_converts hconverts
    split_ifs with hne hosc hlast
    · exact returns_ok ⟨hconverts, hcalls⟩
    · exact returns_ok hcalls
    · apply returns_ok
      refine ⟨⟨by dsimp only; omega, ?_, fun hs => absurd hs hfree⟩, by dsimp only; omega⟩
      intro hs
      exact absurd (h.next hs).1 hbeyond
    · exact returns_ok ⟨hconverts, (not_not.mp hne).symm, hcalls⟩
  | false =>
    dsimp only [cond_false]
    obtain ⟨hbeyond, hstuck, hsign⟩ := hranged
    have hunit : t = 1 ∨ t = -1 := by
      unfold Converter.Stuck at hstuck
      omega
    obtain ⟨hne, hpos, hneg⟩ := guess_null w q hunit
    rw [if_pos hne.symm]
    split_ifs with hosc hlast
    · -- going back and forth needs a conversion that succeeds
      obtain ⟨ht1, ht2⟩ := oscillating_values hosc
      have ht := h.stays (ht1 ▸ hstuck)
      exact absurd (ht1.trans ht.symm) ht2
    · exact returns_ok hcalls
    · apply returns_ok
      refine ⟨⟨by dsimp only; omega, ?_, ?_⟩, by dsimp only; omega⟩
      · intro hs
        rw [hsign, (h.next hs).2]
      · rintro (⟨hone, hlast⟩ | ⟨hone, hfirst⟩)
        · exact ⟨.inl ⟨hpos hone, hlast⟩, (Int.sign_eq_one_of_pos (hpos hone)).trans hone.symm⟩
        · exact ⟨.inr ⟨hneg hone, hfirst⟩, (Int.sign_eq_neg_one_of_neg (hneg hone)).trans hone.symm⟩

lemma probe_returns (c : Converter w) (q : Request) (isdst t0 : ℤ) (tm : Tm) :
    Returns (probe c q isdst t0 tm) (Probed.Sound c q) := by
  apply iterate_returns (I := Probing c) (fun s => s.remaining.toNat) fun s => probeBody_returns
  · refine ⟨by simp, fun _ => rfl, fun hs => ?_⟩
    dsimp only at hs ⊢
    rcases hs with ⟨rfl, hlast⟩ | ⟨rfl, hfirst⟩
    · exact ⟨.inl ⟨Int.one_pos, hlast⟩, rfl⟩
    · exact ⟨.inr ⟨by decide, hfirst⟩, rfl⟩
  · simp

end

section
variable {w : TimeT} {c : Converter w} {stack : Uninitialised} {tp tm : Tm} {offset t0 t : ℤ}
  {calls : ℕ}

end

section
variable {w : TimeT}

def Converter.nearest (c : Converter w) (t : ℤ) : ℤ := max c.first (min c.last t)

variable {c : Converter w} {stack : Uninitialised} {tp : Tm} {t guess : ℤ} {deltas : List ℤ}

end

def zeroStack : Uninitialised := ⟨⟨0, 0, 0, 0, 0, 0, 0, 0, 0⟩, fun _ => ⟨0, 0, 0, 0, 0, 0, 0, 0, 0⟩⟩

end Eglibc.Mktime
