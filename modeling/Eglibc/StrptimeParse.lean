import Eglibc.StrptimeDate

/-!
# Parsing a date by a format

Model of `__strptime_internal` of `time/strptime_l.c` until the format is used up, for the
C locale: its names and formats are those of the code, without eras and alternative
digits. The end of a list is the null byte of the string. `tm_gmtoff` is left out.
-/
namespace Eglibc.Strptime
open Checked Signed Offtime

variable {tm : Tm} {low high n : ℕ} {store : ℕ → Parse → Parse} {p : Parse}

structure DateInRange (tm : Tm) : Prop where
  sec : 0 ≤ tm.sec ∧ tm.sec ≤ 61
  min : 0 ≤ tm.min ∧ tm.min ≤ 59
  mday : 1 ≤ tm.mday ∧ tm.mday ≤ 31
  mon : 0 ≤ tm.mon ∧ tm.mon ≤ 11
  wday : 0 ≤ tm.wday ∧ tm.wday ≤ 6
  yday : 0 ≤ tm.yday ∧ tm.yday ≤ 365

structure InRange (tm : Tm) : Prop extends DateInRange tm where
  hour : 0 ≤ tm.hour ∧ tm.hour ≤ 23

lemma inRange_iff : InRange tm ↔
    (0 ≤ tm.sec ∧ tm.sec ≤ 61) ∧ (0 ≤ tm.min ∧ tm.min ≤ 59) ∧ (1 ≤ tm.mday ∧ tm.mday ≤ 31) ∧
      (0 ≤ tm.mon ∧ tm.mon ≤ 11) ∧ (0 ≤ tm.wday ∧ tm.wday ≤ 6) ∧ (0 ≤ tm.yday ∧ tm.yday ≤ 365) ∧
      0 ≤ tm.hour ∧ tm.hour ≤ 23 :=
  ⟨fun h => ⟨h.sec, h.min, h.mday, h.mon, h.wday, h.yday, h.hour⟩,
    fun ⟨hs, hm, hd, ho, hw, hy, hh⟩ => ⟨⟨hs, hm, hd, ho, hw, hy⟩, hh⟩⟩

structure Clock where
  localtimeR : ℤ → Option Tm
  inRange : ∀ {secs tm}, localtimeR secs = some tm → InRange tm

inductive LocaleStatus
  | not
  | loc
  | raw
  deriving DecidableEq, Repr

/-- `struct __strptime_state`, without the era -/
structure State where
  have_I : Bool := false
  haveWday : Bool := false
  haveYday : Bool := false
  haveMon : Bool := false
  haveMday : Bool := false
  haveUweek : Bool := false
  haveWweek : Bool := false
  isPm : Bool := false
  wantCentury : Bool := false
  wantEra : Bool := false
  wantXday : Bool := false
  decided : LocaleStatus := .not
  weekNo : ℤ := 0
  century : ℤ := -1
  deriving DecidableEq, Repr

structure Parse where
  rp : List Char
  tm : Tm
  s : State
  deriving DecidableEq, Repr

/-! ### Reading the input -/

def isSpace (c : Char) : Bool :=
  c = ' ' || c = '\t' || c = '\n' || c = '\x0b' || c = '\x0c' || c = '\r'

def isDigit (c : Char) : Bool := '0' ≤ c && c ≤ '9'

def digit (c : Char) : ℕ := c.toNat - '0'.toNat

def skipSpace (rp : List Char) : List Char := rp.dropWhile isSpace

/-- `match_string`: the rest of the input behind the text, whose case does not matter -/
def matchString (text : String) (rp : List Char) : Option (List Char) :=
  if (rp.take text.toList.length).map Char.toLower = text.toList.map Char.toLower then
    some (rp.drop text.toList.length)
  else none

def matchChar (c : Char) : List Char → Option (List Char)
  | [] => none
  | c' :: rp => if c = c' then some rp else none

/-- The passes of the loop of `get_number` after the first one. -/
def moreDigits (high : ℕ) : ℕ → ℕ → List Char → ℕ × List Char
  | n + 1, val, c :: rp =>
    if val * 10 ≤ high ∧ isDigit c then moreDigits high n (val * 10 + digit c) rp else (val, c :: rp)
  | _, val, rp => (val, rp)

def getNumber (low high n : ℕ) (rp : List Char) : Option (ℕ × List Char) :=
  match skipSpace rp with
  | [] => none
  | c :: rp =>
    if isDigit c then
      let r := moreDigits high (n - 1) (digit c) rp
      if r.1 < low ∨ high < r.1 then none else some r
    else none

def number (low high n : ℕ) (store : ℕ → Parse → Parse) (p : Parse) : Option Parse := do
  let (val, rp) ← getNumber low high n p.rp
  some (store val { p with rp })

/-- The same by `get_alt_number`: the locale has no alternative digits, which is found out once. -/
def altNumber (low high n : ℕ) (store : ℕ → Parse → Parse) (p : Parse) : Option Parse :=
  match p.s.decided with
  | .raw => number low high n store p
  | .not => number low high n store { p with s.decided := .loc }
  | .loc => none

/-! ### Names -/

def weekdayNames : List (String × String) :=
  [("Sunday", "Sun"), ("Monday", "Mon"), ("Tuesday", "Tue"), ("Wednesday", "Wed"),
    ("Thursday", "Thu"), ("Friday", "Fri"), ("Saturday", "Sat")]

def monthNames : List (String × String) :=
  [("January", "Jan"), ("February", "Feb"), ("March", "Mar"), ("April", "Apr"), ("May", "May"),
    ("June", "Jun"), ("July", "Jul"), ("August", "Aug"), ("September", "Sep"),
    ("October", "Oct"), ("November", "Nov"), ("December", "Dec")]

structure Longest where
  rp : List Char
  found : Option (List Char × ℕ × LocaleStatus)

/-- `trp > rp_longest`, where a null pointer is less than every other one -/
def Longest.beyond (l : Longest) (trp : List Char) : Bool :=
  match l.found with
  | none => true
  | some (rp, _) => trp.length < rp.length

/-- The name is taken if it is there and ends behind the longest one so far. -/
def Longest.tryName (l : Longest) (decided : LocaleStatus) (name : String) (cnt : ℕ) : Longest :=
  match matchString name l.rp with
  | some trp => if l.beyond trp then { l with found := some (trp, cnt, decided) } else l
  | none => l

/-- Both names of the locale. They are those of the code, so nothing is decided. -/
def Longest.tryLocale (l : Longest) (decided : LocaleStatus) (names : String × String) (cnt : ℕ) :
    Longest :=
  let status := match l.found with
    | some (_, _, longest) => longest
    | none => decided
  if decided ≠ .raw then (l.tryName status names.1 cnt).tryName status names.2 cnt else l

/-- One pass of the loop over the names of the weekdays. The abbreviated name is matched
against `rp` itself, which it moves. -/
def weekdayPass (decided : LocaleStatus) (l : Longest) (cnt : ℕ) (names : String × String) :
    Longest :=
  let l := l.tryLocale decided names cnt
  if decided ≠ .loc then
    match (matchString names.1 l.rp).filter l.beyond with
    | some trp => { l with found := some (trp, cnt, .raw) }
    | none =>
      match matchString names.2 l.rp with
      | some rp =>
        if l.beyond l.rp then ⟨rp, some (l.rp, cnt, .raw)⟩ else { l with rp }
      | none => l
  else l

/-- One pass of the loop over the names of the months. -/
def monthPass (decided : LocaleStatus) (l : Longest) (cnt : ℕ) (names : String × String) :
    Longest :=
  let l := l.tryLocale decided names cnt
  if decided ≠ .loc then
    match (matchString names.1 l.rp).filter l.beyond with
    | some trp => { l with found := some (trp, cnt, .raw) }
    | none => l.tryName .raw names.2 cnt
  else l

def longestName (pass : Longest → ℕ → String × String → Longest) :
    Longest → ℕ → List (String × String) → Longest
  | l, _, [] => l
  | l, cnt, names :: rest => longestName pass (pass l cnt names) (cnt + 1) rest

def name (pass : LocaleStatus → Longest → ℕ → String × String → Longest)
    (names : List (String × String)) (store : ℕ → Parse → Parse) (p : Parse) : Option Parse := do
  let (rp, cnt, decided) ← (longestName (pass p.s.decided) ⟨p.rp, none⟩ 0 names).found
  some (store cnt { p with rp, s.decided := decided })

/-! ### Conversions -/

/-- The digits of `%s`, from the value of those read so far on. -/
def seconds : ℕ → List Char → ℕ × List Char
  | secs, c :: rp => if isDigit c then seconds (secs * 10 + digit c) rp else (secs, c :: rp)
  | secs, [] => (secs, [])

/-- `%s` -/
def sinceEpoch (clock : Clock) (p : Parse) : Option Parse :=
  match p.rp with
  | [] => none
  | c :: rp =>
    if isDigit c then do
      let r := seconds (digit c) rp
      some { p with rp := r.2, tm := ← clock.localtimeR (wrap 64 r.1) }
    else none

/-- `%p` -/
def amPm (p : Parse) : Option Parse :=
  match matchString "AM" p.rp with
  | some rp => some { p with rp, s.isPm := false }
  | none => do some { p with rp := ← matchString "PM" p.rp, s.isPm := true }

/-- `%G`, whose number is ignored -/
def weekBasedYear (p : Parse) : Option Parse :=
  match p.rp with
  | [] => none
  | c :: rp => if isDigit c then some { p with rp := rp.dropWhile isDigit } else none

def zoneDigits : ℕ → ℕ → List Char → ℕ × ℕ × List Char
  | n + 1, val, c :: rp =>
    if isDigit c then
      let (val, seen, rp) := zoneDigits n (val * 10 + digit c) rp
      (val, seen + 1, rp)
    else (val, 0, c :: rp)
  | _, val, rp => (val, 0, rp)

/-- `%z`, whose offset is only checked -/
def zone (p : Parse) : Option Parse :=
  match skipSpace p.rp with
  | [] => none
  | c :: rp =>
    if c = '+' ∨ c = '-' then
      let (val, n, rp) := zoneDigits 4 0 rp
      if n = 2 then if val * 100 ≤ 1200 then some { p with rp } else none
      else if n = 4 then
        if val % 100 < 60 ∧ val / 100 * 100 + val % 100 * 50 / 30 ≤ 1200 then some { p with rp }
        else none
      else none
    else none

def hereDTFmt : String := "%a %b %e %H:%M:%S %Y"
def hereDFmt : String := "%m/%d/%y"
def hereTFmt : String := "%H:%M:%S"
def hereTFmtAmpm : String := "%I:%M:%S %p"

section
variable (clock : Clock) (recursive : String → Parse → Option Parse)

/-- A format of the locale, then the same one as that of the code. -/
def localeFormat (fmt : String) (p : Parse) : Option Parse :=
  match p.s.decided with
  | .raw => recursive fmt p
  | .loc => recursive fmt p
  | .not =>
    match recursive fmt p with
    | some p' => some p'
    | none => recursive fmt { p with s.decided := .raw }

def wantXday (p : Parse) : Parse := { p with s.wantXday := true }

def matchCentury : Parse → Option Parse :=
  number 0 99 2 fun val p => { p with s.century := val, s.wantXday := true }

def matchYearInCentury : Parse → Option Parse :=
  number 0 99 2 fun val p => { p with
    tm.year := if 69 ≤ val then val else val + 100, s.wantCentury := true, s.wantXday := true }

def fullYear : Parse → Option Parse :=
  number 0 9999 4 fun val p => { p with
    tm.year := val - 1900, s.wantCentury := false, s.wantXday := true }

def conversion (c : Char) (p : Parse) : Option Parse :=
  match c with
  | '%' => do some { p with rp := ← matchChar '%' p.rp }
  | 'a' | 'A' =>
    name weekdayPass weekdayNames (fun cnt p => { p with tm.wday := cnt, s.haveWday := true }) p
  | 'b' | 'B' | 'h' =>
    name monthPass monthNames (fun cnt p => { p with
      tm.mon := cnt, s.haveMon := true, s.wantXday := true }) p
  | 'c' => do some (wantXday (← localeFormat recursive hereDTFmt p))
  | 'C' => matchCentury p
  | 'd' | 'e' =>
    number 1 31 2 (fun val p => { p with
      tm.mday := val, s.haveMday := true, s.wantXday := true }) p
  | 'F' => do some (wantXday (← recursive "%Y-%m-%d" p))
  | 'x' => do some (wantXday (← localeFormat recursive hereDFmt p))
  | 'D' => do some (wantXday (← recursive hereDFmt p))
  | 'k' | 'H' => number 0 23 2 (fun val p => { p with tm.hour := val, s.have_I := false }) p
  | 'l' | 'I' => number 1 12 2 (fun val p => { p with
      tm.hour := (val % 12 : ℕ), s.have_I := true }) p
  | 'j' => number 1 366 3 (fun val p => { p with tm.yday := val - 1, s.haveYday := true }) p
  | 'm' => number 1 12 2 (fun val p => { p with
      tm.mon := val - 1, s.haveMon := true, s.wantXday := true }) p
  | 'M' => number 0 59 2 (fun val p => { p with tm.min := val }) p
  | 'n' | 't' => some { p with rp := skipSpace p.rp }
  | 'p' => amPm p
  | 'r' => localeFormat recursive hereTFmtAmpm p
  | 'R' => recursive "%H:%M" p
  | 's' => sinceEpoch clock p
  | 'S' => number 0 61 2 (fun val p => { p with tm.sec := val }) p
  | 'X' => localeFormat recursive hereTFmt p
  | 'T' => recursive hereTFmt p
  | 'u' => number 1 7 1 (fun val p => { p with tm.wday := (val % 7 : ℕ), s.haveWday := true }) p
  | 'g' => number 0 99 2 (fun _ p => p) p
  | 'G' => weekBasedYear p
  | 'U' => number 0 53 2 (fun val p => { p with s.weekNo := val, s.haveUweek := true }) p
  | 'W' => number 0 53 2 (fun val p => { p with s.weekNo := val, s.haveWweek := true }) p
  | 'V' => number 0 53 2 (fun _ p => p) p
  | 'w' => number 0 6 1 (fun val p => { p with tm.wday := val, s.haveWday := true }) p
  | 'y' => matchYearInCentury p
  | 'Y' => fullYear p
  | 'Z' => some p
  | 'z' => zone p
  | _ => none

/-- The conversion of the letter after `%E`. The locale has no eras. -/
def eraConversion (c : Char) (p : Parse) : Option Parse :=
  match c with
  | 'c' => do some (wantXday (← localeFormat recursive hereDTFmt p))
  | 'C' => if p.s.decided = .loc then none else matchCentury { p with s.decided := .raw }
  | 'y' =>
    -- the year of an era is read first, and the year in the century behind it
    match p.s.decided with
    | .raw => matchYearInCentury p
    | status => do
      let p ← number 0 9999 4 (fun val p => { p with
        tm.year := val, s.wantEra := true, s.wantXday := true, s.wantCentury := true }) p
      if status = .loc then none else matchYearInCentury { p with s.decided := .raw }
  | 'Y' => if p.s.decided = .loc then none else fullYear { p with s.decided := .raw }
  | 'x' => localeFormat recursive hereDFmt p
  | 'X' => localeFormat recursive hereTFmt p
  | _ => none

end

def altConversion (c : Char) (p : Parse) : Option Parse :=
  match c with
  | 'd' | 'e' =>
    altNumber 1 31 2 (fun val p => { p with
      tm.mday := val, s.haveMday := true, s.wantXday := true }) p
  | 'H' => altNumber 0 23 2 (fun val p => { p with tm.hour := val, s.have_I := false }) p
  | 'I' => altNumber 1 12 2 (fun val p => { p with
      tm.hour := (val % 12 : ℕ), s.have_I := true }) p
  | 'm' => altNumber 1 12 2 (fun val p => { p with
      tm.mon := val - 1, s.haveMon := true, s.wantXday := true }) p
  | 'M' => altNumber 0 59 2 (fun val p => { p with tm.min := val }) p
  | 'S' => altNumber 0 61 2 (fun val p => { p with tm.sec := val }) p
  | 'U' => altNumber 0 53 2 (fun val p => { p with s.weekNo := val, s.haveUweek := true }) p
  | 'W' => altNumber 0 53 2 (fun val p => { p with s.weekNo := val, s.haveWweek := true }) p
  | 'V' => altNumber 0 53 2 (fun _ p => p) p
  | 'w' => altNumber 0 6 1 (fun val p => { p with tm.wday := val, s.haveWday := true }) p
  | 'y' => altNumber 0 99 2 (fun val p => { p with
      tm.year := if 69 ≤ val then val else val + 100, s.wantXday := true }) p
  | _ => none

/-- The loop over the format. The formats that a nested call has are those of the code
and have no modifiers of `strftime`. -/
def fields (clock : Clock) (recursive : String → Parse → Option Parse) :
    List Char → Parse → Option Parse
  | [], p => some p
  | '%' :: 'E' :: c :: fmt, p => do fields clock recursive fmt (← eraConversion recursive c p)
  | '%' :: 'O' :: c :: fmt, p => do fields clock recursive fmt (← altConversion c p)
  | '%' :: c :: fmt, p => do fields clock recursive fmt (← conversion clock recursive c p)
  | c :: fmt, p =>
    if isSpace c then fields clock recursive fmt { p with rp := skipSpace p.rp }
    else if c = '%' then none
    else do fields clock recursive fmt { p with rp := ← matchChar c p.rp }

/-- A nested call, which does not nest further. -/
def nested (clock : Clock) (fmt : String) : Parse → Option Parse :=
  fields clock (fun _ _ => none) fmt.toList

/-- `__strptime_internal` up to the end of the format -/
def parse (clock : Clock) (rp fmt : List Char) (tm : Tm) : Option Parse :=
  fields clock (nested clock) fmt ⟨rp, tm, {}⟩

/-! ### Nested formats -/

def formats : List String :=
  [hereDTFmt, hereDFmt, hereTFmt, hereTFmtAmpm, "%Y-%m-%d", "%H:%M"]

section
variable {clock : Clock} {r r' : String → Parse → Option Parse}

-- their conversions make no call
lemma formats_flat (h : fmt ∈ formats) :
    fields clock r fmt.toList = fields clock r' fmt.toList := by
  fin_cases h <;> rfl

variable (h : ∀ fmt ∈ formats, r fmt = r' fmt)
include h

lemma conversion_congr (c : Char) : conversion clock r c = conversion clock r' c := by
  simp only [formats, List.forall_mem_cons] at h
  funext p
  unfold conversion
  split <;> first | rfl | simp only [localeFormat, h]

lemma eraConversion_congr (c : Char) : eraConversion r c = eraConversion r' c := by
  simp only [formats, List.forall_mem_cons] at h
  funext p
  unfold eraConversion
  split <;> first | rfl | simp only [localeFormat, h]

lemma fields_congr : fields clock r = fields clock r' := by
  funext fmt p
  fun_induction fields clock r fmt p <;>
    simp_all [fields, conversion_congr h, eraConversion_congr h]

end

/-- The equation by which `__strptime_internal` calls itself has one solution: a nested
call does not nest. -/
theorem recursion_iff (clock : Clock) (f : List Char → Parse → Option Parse) :
    f = fields clock (fun fmt => f fmt.toList) ↔ f = fields clock (nested clock) := by
  have hnested (r) : fields clock (fun fmt => fields clock r fmt.toList) =
      fields clock (nested clock) := fields_congr fun _ => formats_flat
  constructor
  · intro h
    rw [h, h]
    exact hnested _
  · rintro rfl
    exact (hnested _).symm

/-! ### Ranges -/

def Yields {α : Type} (x : Option α) (Q : α → Prop) : Prop := ∀ a ∈ x, Q a

section
variable {α β : Type} {P : α → Prop} {Q : β → Prop}

lemma yields_some (h : P a) : Yields (some a) P := by
  rintro b ⟨⟩
  exact h

lemma yields_none : Yields (none : Option α) P := nofun

lemma Yields.bind (hx : Yields x P) (hf : ∀ a, P a → Yields (f a) Q) : Yields (x >>= f) Q := by
  cases x with
  | none => exact yields_none
  | some a => exact hf a (hx a rfl)

end

def Parse.Sound (p : Parse) : Prop := InRange p.tm

variable (clock : Clock) (rp : List Char)

lemma getNumber_mem : Yields (getNumber low high n rp) fun r => low ≤ r.1 ∧ r.1 ≤ high := by
  unfold getNumber
  split
  · exact yields_none
  dsimp only
  split_ifs with h₁ h₂
  · exact yields_none
  · exact yields_some (by omega)
  · exact yields_none

section
variable (hstore : ∀ val p, low ≤ val → val ≤ high → p.Sound → (store val p).Sound)
include hstore

lemma number_sound (hp : p.Sound) : Yields (number low high n store p) Parse.Sound :=
  (getNumber_mem p.rp).bind fun _ hr => yields_some (hstore _ _ hr.1 hr.2 hp)

lemma altNumber_sound (hp : p.Sound) : Yields (altNumber low high n store p) Parse.Sound := by
  unfold altNumber
  split
  · exact number_sound hstore hp
  · exact number_sound hstore hp
  · exact yields_none

end

def Longest.Below (n : ℕ) (l : Longest) : Prop := ∀ r ∈ l.found, r.2.1 < n

section
variable {n cnt : ℕ} {l : Longest}

lemma tryName_below (hl : l.Below n) (hcnt : cnt < n) (decided : LocaleStatus) (text : String) :
    (l.tryName decided text cnt).Below n := by
  unfold Longest.tryName
  split
  · split_ifs
    · rintro r ⟨⟩
      exact hcnt
    · exact hl
  · exact hl

lemma tryLocale_below (hl : l.Below n) (hcnt : cnt < n) (decided : LocaleStatus)
    (names : String × String) : (l.tryLocale decided names cnt).Below n := by
  unfold Longest.tryLocale
  dsimp only
  split
  · exact tryName_below (tryName_below hl hcnt _ _) hcnt _ _
  · exact hl

variable (decided : LocaleStatus) (names : String × String)

lemma weekdayPass_below (hl : l.Below n)
    (hcnt : cnt < n) : (weekdayPass decided l cnt names).Below n := by
  have hlocale := tryLocale_below hl hcnt decided names
  unfold weekdayPass
  dsimp only
  split
  · split
    · rintro r ⟨⟩
      exact hcnt
    split
    · split
      · rintro r ⟨⟩
        exact hcnt
      · exact hlocale
    · exact hlocale
  · exact hlocale

lemma monthPass_below (hl : l.Below n)
    (hcnt : cnt < n) : (monthPass decided l cnt names).Below n := by
  have hlocale := tryLocale_below hl hcnt decided names
  unfold monthPass
  dsimp only
  split
  · split
    · rintro r ⟨⟩
      exact hcnt
    · exact tryName_below hlocale hcnt _ _
  · exact hlocale

lemma longestName_below {pass : Longest → ℕ → String × String → Longest}
    (hpass : ∀ l cnt names, l.Below n → cnt < n → (pass l cnt names).Below n)
    {names : List (String × String)} (hl : l.Below n) (hcnt : cnt + names.length ≤ n) :
    (longestName pass l cnt names).Below n := by
  induction names generalizing l cnt with
  | nil => exact hl
  | cons head rest ih =>
    rw [List.length_cons] at hcnt
    exact ih (hpass l cnt head hl (by omega)) (by omega)

lemma name_sound {pass : LocaleStatus → Longest → ℕ → String × String → Longest}
    {names : List (String × String)} (hpass : ∀ decided l cnt pair, l.Below names.length → cnt < names.length →
      (pass decided l cnt pair).Below names.length)
    (hstore : ∀ cnt p, cnt < names.length → p.Sound → (store cnt p).Sound) (hp : p.Sound) :
    Yields (name pass names store p) Parse.Sound := by
  have hbelow : (longestName (pass p.s.decided) ⟨p.rp, none⟩ 0 names).Below names.length :=
    longestName_below (hpass p.s.decided) nofun (by omega)
  exact Yields.bind hbelow fun r hr => yields_some (hstore _ _ hr hp)

end

section
variable {clock : Clock} {recursive : String → Parse → Option Parse}

def KeepsSound (recursive : String → Parse → Option Parse) : Prop :=
  ∀ fmt p, p.Sound → Yields (recursive fmt p) Parse.Sound

lemma localeFormat_sound (hrec : KeepsSound recursive) (fmt : String) (hp : p.Sound) :
    Yields (localeFormat recursive fmt p) Parse.Sound := by
  unfold localeFormat
  split
  · exact hrec fmt p hp
  · exact hrec fmt p hp
  · split
    case h_1 p' h => exact yields_some (hrec fmt p hp p' h)
    case h_2 => exact hrec fmt _ hp

lemma InRange.with_year (h : InRange tm) (year : ℤ) : InRange { tm with year := year } :=
  { h with }

lemma sinceEpoch_sound : Yields (sinceEpoch clock p) Parse.Sound := by
  unfold sinceEpoch
  split
  · exact yields_none
  · split
    · exact Yields.bind (fun tm h => clock.inRange h) fun tm htm => yields_some htm
    · exact yields_none

lemma moves_sound {α : Type} {x : Option α} {f : α → Parse} (hf : ∀ a, (f a).Sound) :
    Yields (do some (f (← x))) Parse.Sound :=
  Yields.bind (P := fun _ => True) (fun _ _ => trivial) fun a _ => yields_some (hf a)

lemma amPm_sound (hp : p.Sound) : Yields (amPm p) Parse.Sound := by
  unfold amPm
  split
  · exact yields_some hp
  · exact moves_sound fun _ => hp

lemma weekBasedYear_sound (hp : p.Sound) : Yields (weekBasedYear p) Parse.Sound := by
  unfold weekBasedYear
  split
  · exact yields_none
  · split
    · exact yields_some hp
    · exact yields_none

lemma zone_sound (hp : p.Sound) : Yields (zone p) Parse.Sound := by
  unfold zone
  split
  · exact yields_none
  split
  · dsimp only
    split_ifs <;> first | exact yields_some hp | exact yields_none
  · exact yields_none

lemma wantXday_sound (hx : Yields x Parse.Sound) : Yields (do some (wantXday (← x))) Parse.Sound :=
  hx.bind fun _ hp => yields_some hp

lemma weekday_sound (hp : p.Sound) : Yields (name weekdayPass weekdayNames
    (fun cnt p => { p with tm.wday := cnt, s.haveWday := true }) p) Parse.Sound := by
  refine name_sound (fun decided l cnt pair => weekdayPass_below decided pair) (fun cnt p hcnt hp => ?_) hp
  have hlen : weekdayNames.length = 7 := rfl
  exact { hp with wday := by dsimp only; omega }

lemma month_sound (hp : p.Sound) : Yields (name monthPass monthNames
    (fun cnt p => { p with tm.mon := cnt, s.haveMon := true, s.wantXday := true }) p)
    Parse.Sound := by
  refine name_sound (fun decided l cnt pair => monthPass_below decided pair) (fun cnt p hcnt hp => ?_) hp
  have hlen : monthNames.length = 12 := rfl
  exact { hp with mon := by dsimp only; omega }

lemma conversion_sound (hrec : KeepsSound recursive) (c : Char) (hp : p.Sound) :
    Yields (conversion clock recursive c p) Parse.Sound := by
  unfold conversion
  split
  -- the numbers are stored in range
  all_goals try
    refine number_sound (fun val p hlow hhigh hp => ?_) hp
    rw [Parse.Sound, inRange_iff] at hp ⊢
    try dsimp only
    omega
  case h_1 => exact moves_sound fun _ => hp
  case h_2 | h_3 => exact weekday_sound hp
  case h_4 | h_5 | h_6 => exact month_sound hp
  case h_7 => exact wantXday_sound (localeFormat_sound hrec _ hp)
  case h_11 => exact wantXday_sound (hrec _ p hp)
  case h_12 => exact wantXday_sound (localeFormat_sound hrec _ hp)
  case h_13 => exact wantXday_sound (hrec _ p hp)
  case h_21 | h_22 => exact yields_some hp
  case h_23 => exact amPm_sound hp
  case h_24 | h_28 => exact localeFormat_sound hrec _ hp
  case h_25 | h_29 => exact hrec _ p hp
  case h_26 => exact sinceEpoch_sound
  case h_32 => exact weekBasedYear_sound hp
  case h_39 => exact yields_some hp
  case h_40 => exact zone_sound hp
  case h_41 => exact yields_none

lemma eraConversion_sound (hrec : KeepsSound recursive) (c : Char) (hp : p.Sound) :
    Yields (eraConversion recursive c p) Parse.Sound := by
  have hyear : ∀ {p : Parse}, p.Sound → Yields (matchYearInCentury p) Parse.Sound := fun hp => by
    refine number_sound (fun val p hlow hhigh hp => ?_) hp
    exact InRange.with_year hp _
  unfold eraConversion
  split
  case h_1 => exact wantXday_sound (localeFormat_sound hrec _ hp)
  case h_2 =>
    split
    · exact yields_none
    · refine number_sound (fun val p hlow hhigh hp => ?_) hp
      exact hp
  case h_3 =>
    split
    · exact hyear hp
    refine Yields.bind (P := Parse.Sound) (number_sound (fun val p hlow hhigh hp => ?_) hp)
      fun p hp => ?_
    · exact InRange.with_year hp _
    · split
      · exact yields_none
      · exact hyear hp
  case h_4 =>
    split
    · exact yields_none
    · refine number_sound (fun val p hlow hhigh hp => ?_) hp
      exact InRange.with_year hp _
  case h_5 | h_6 => exact localeFormat_sound hrec _ hp
  case h_7 => exact yields_none

lemma altConversion_sound (c : Char) (hp : p.Sound) : Yields (altConversion c p) Parse.Sound := by
  unfold altConversion
  split
  all_goals try
    refine altNumber_sound (fun val p hlow hhigh hp => ?_) hp
    rw [Parse.Sound, inRange_iff] at hp ⊢
    try dsimp only
    omega
  exact yields_none

lemma fields_sound (hrec : KeepsSound recursive) (fmt : List Char) (hp : p.Sound) :
    Yields (fields clock recursive fmt p) Parse.Sound := by
  fun_induction fields clock recursive fmt p with
  | case1 p => exact yields_some hp
  | case2 c fmt p ih => exact (eraConversion_sound hrec c hp).bind fun p hp => ih p hp
  | case3 c fmt p ih => exact (altConversion_sound c hp).bind fun p hp => ih p hp
  | case4 c fmt p hE hO ih => exact (conversion_sound hrec c hp).bind fun p hp => ih p hp
  | case5 c fmt p hE hO hc hspace ih => exact ih hp
  | case6 fmt p hE hO hc hspace => exact yields_none
  | case7 c fmt p hE hO hc hspace hpercent ih =>
    exact Yields.bind (P := fun _ => True) (fun _ _ => trivial) fun rp _ => ih rp hp

end

theorem parse_sound (fmt : List Char) (h : InRange tm) :
    Yields (parse clock rp fmt tm) Parse.Sound := by
  have hnested : KeepsSound (nested clock) := fun fmt _ hp =>
    fields_sound (fun _ _ _ => yields_none) fmt.toList hp
  exact fields_sound hnested fmt h

end Eglibc.Strptime
