import Eglibc.Offtime

/-!
# Lookup in time zone data

Model of the two searches of `__tzfile_compute` in `time/tzfile.c`: the first transition
after a time, and the leap second correction in force at a time. The tables are lists,
and an index outside of one is a fault. The names of the zones are left out.
-/
namespace Eglibc.Tzfile
open Checked Signed Offtime

/-! ## Transitions -/

/-- `while (timer < transitions[i - 1]) --i;` -/
def searchDown (transitions : List ℤ) (timer : ℤ) : ℕ → Run ℕ
  | 0 => .error (.read 0)
  | i + 1 => do
    let t ← load transitions i
    if timer < t then searchDown transitions timer i else .ok (i + 1)

/-- `while (timer >= transitions[i]) ++i;` -/
def searchUp (transitions : List ℤ) (timer : ℤ) (i : ℕ) : Run ℕ :=
  if h : i < transitions.length then
    if timer ≥ transitions[i] then searchUp transitions timer (i + 1) else .ok i
  else .error (.read i)
  termination_by transitions.length - i

def bisect (transitions : List ℤ) (timer : ℤ) (lo hi : ℕ) : Run ℕ :=
  if h : lo + 1 < hi then do
    let t ← load transitions ((lo + hi) / 2)
    if timer < t then bisect transitions timer lo ((lo + hi) / 2)
    else bisect transitions timer ((lo + hi) / 2) hi
  else .ok hi
  termination_by hi - lo

def searchBelow (transitions : List ℤ) (timer : ℤ) (i : ℕ) : Run ℕ :=
  if i < 10 then searchDown transitions timer i
  else do
    let t ← load transitions (i - 10)
    if timer ≥ t then searchDown transitions timer i else bisect transitions timer 0 (i - 10)

def searchAbove (transitions : List ℤ) (timer : ℤ) (i : ℕ) : Run ℕ :=
  if i + 10 ≥ transitions.length then searchUp transitions timer i
  else do
    let t ← load transitions (i + 10)
    if timer < t then searchUp transitions timer i
    else bisect transitions timer (i + 10) (transitions.length - 1)

/-- The index `i` at the label `found`. The guess assumes two changes a year, and is
converted to `size_t`. -/
def search (transitions : List ℤ) (timer : ℤ) : Run ℕ := do
  let last ← load transitions (transitions.length - 1)
  let difference ← time (last - timer)
  let guess := (difference.tdiv 15778476 % 2 ^ 64).toNat
  if guess < transitions.length then do
    let i := transitions.length - 1 - guess
    let t ← load transitions i
    if timer < t then searchBelow transitions timer i else searchAbove transitions timer i
  else bisect transitions timer 0 (transitions.length - 1)

section

variable {ts : List ℤ} {timer : ℤ}

def Brackets (ts : List ℤ) (timer : ℤ) (i : ℕ) : Prop :=
  0 < i ∧ i < ts.length ∧ ts.getD (i - 1) 0 ≤ timer ∧ timer < ts.getD i 0

lemma searchDown_returns (hfirst : ts.getD 0 0 ≤ timer) (hi : i < ts.length)
    (hafter : timer < ts.getD i 0) : Returns (searchDown ts timer i) (Brackets ts timer) := by
  induction i with
  | zero => omega
  | succ i ih =>
    rw [searchDown, load_eq 0 (by omega), ok_bind]
    split_ifs with hlt
    · exact ih (by omega) hlt
    · exact returns_ok ⟨by omega, hi, not_lt.mp hlt, hafter⟩

lemma searchUp_returns (hlast : timer < ts.getD (ts.length - 1) 0) (hi : i < ts.length)
    (hbefore : ts.getD i 0 ≤ timer) : Returns (searchUp ts timer i) (Brackets ts timer) := by
  have hnext : i + 1 < ts.length := by
    by_contra hend
    rw [show ts.length - 1 = i by omega] at hlast
    omega
  have hget (j : ℕ) (hj : j < ts.length) : ts[j] = ts.getD j 0 := (List.getD_eq_getElem _ _ hj).symm
  rw [searchUp, dif_pos hi, hget i hi, if_pos hbefore]
  by_cases hlt : timer < ts.getD (i + 1) 0
  · rw [searchUp, dif_pos hnext, hget _ hnext, if_neg (not_le.mpr hlt)]
    exact returns_ok ⟨by omega, hnext, hbefore, hlt⟩
  · exact searchUp_returns hlast hnext (not_lt.mp hlt)
  termination_by ts.length - i

lemma bisect_returns (hlo : ts.getD lo 0 ≤ timer) (hhi : timer < ts.getD hi 0) (hlt : lo < hi)
    (hend : hi < ts.length) : Returns (bisect ts timer lo hi) (Brackets ts timer) := by
  rw [bisect]
  by_cases hgap : lo + 1 < hi
  · rw [dif_pos hgap, load_eq 0 (by omega), ok_bind]
    split_ifs with hmiddle
    · exact bisect_returns hlo hmiddle (by omega) (by omega)
    · exact bisect_returns (not_lt.mp hmiddle) hhi (by omega) hend
  · obtain rfl : hi = lo + 1 := by omega
    rw [dif_neg hgap]
    exact returns_ok ⟨by omega, hend, hlo, hhi⟩
  termination_by hi - lo

lemma searchBelow_returns (hfirst : ts.getD 0 0 ≤ timer) (hi : i < ts.length)
    (hafter : timer < ts.getD i 0) : Returns (searchBelow ts timer i) (Brackets ts timer) := by
  have hdown := searchDown_returns hfirst hi hafter
  unfold searchBelow
  by_cases hnear : i < 10
  · rwa [if_pos hnear]
  rw [if_neg hnear, load_eq 0 (by omega), ok_bind]
  split_ifs with hwindow
  · exact hdown
  have hlt := not_le.mp hwindow
  refine bisect_returns hfirst hlt (Nat.pos_of_ne_zero ?_) (by omega)
  intro hzero
  rw [hzero] at hlt
  omega

lemma searchAbove_returns (hlast : timer < ts.getD (ts.length - 1) 0) (hi : i < ts.length)
    (hbefore : ts.getD i 0 ≤ timer) : Returns (searchAbove ts timer i) (Brackets ts timer) := by
  have hup := searchUp_returns hlast hi hbefore
  unfold searchAbove
  by_cases hnear : i + 10 ≥ ts.length
  · rwa [if_pos hnear]
  rw [if_neg hnear, load_eq 0 (by omega), ok_bind]
  split_ifs with hwindow
  · exact hup
  have hle := not_lt.mp hwindow
  refine bisect_returns hle hlast (lt_of_le_of_ne (by omega) ?_) (by omega)
  intro hsame
  rw [hsame] at hle
  omega

lemma search_returns (hfirst : ts.getD 0 0 ≤ timer) (hlast : timer < ts.getD (ts.length - 1) 0)
    (hne : 0 < ts.length) (hfits : Fits 64 (ts.getD (ts.length - 1) 0 - timer)) :
    Returns (search ts timer) (Brackets ts timer) := by
  have hlong : 0 < ts.length - 1 := by
    by_contra hone
    rw [show ts.length - 1 = 0 by omega] at hlast
    omega
  unfold search
  rw [load_eq 0 (by omega), ok_bind, time, checked_eq hfits, ok_bind]
  dsimp only
  split_ifs with hguess
  · rw [load_eq 0 (by omega), ok_bind]
    split_ifs with hlt
    · exact searchBelow_returns hfirst (by omega) hlt
    · exact searchAbove_returns hlast (by omega) (not_lt.mp hlt)
  · exact bisect_returns hfirst hlast hlong (by omega)

end

/-- Every way of the search ends at a transition after the time whose predecessor is not
after it, with no index outside of the table, in whatever order the transitions are. -/
theorem search_brackets (transitions : List ℤ) (timer : ℤ)
    (hfirst : ∃ first, transitions[0]? = some first ∧ first ≤ timer)
    (hlast : ∃ last, transitions[transitions.length - 1]? = some last ∧ timer < last ∧
      Fits 64 (last - timer)) :
    ∃ i before after, search transitions timer = .ok (i + 1) ∧ transitions[i]? = some before ∧
      transitions[i + 1]? = some after ∧ before ≤ timer ∧ timer < after := by
  obtain ⟨first, hget, hfirst⟩ := hfirst
  obtain ⟨last, hgetLast, hlast, hfits⟩ := hlast
  have hne : 0 < transitions.length := (List.getElem?_eq_some_iff.mp hget).1
  have hfirst_eq : transitions.getD 0 0 = first := by rw [List.getD, hget, Option.getD_some]
  have hlast_eq : transitions.getD (transitions.length - 1) 0 = last := by
    rw [List.getD, hgetLast, Option.getD_some]
  obtain ⟨j, hsearch, hpos, hj, hbefore, hafter⟩ := search_returns (hfirst_eq ▸ hfirst)
    (hlast_eq ▸ hlast) hne (hlast_eq ▸ hfits)
  obtain ⟨i, rfl⟩ : ∃ i, j = i + 1 := ⟨j - 1, by omega⟩
  have hsome (k : ℕ) (hk : k < transitions.length) : transitions[k]? = some (transitions.getD k 0) := by
    rw [List.getD_eq_getElem _ _ hk, List.getElem?_eq_getElem hk]
  exact ⟨i, _, _, hsearch, hsome i (by omega), hsome (i + 1) hj, hbefore, hafter⟩

/-- The table is not in order. -/
theorem search_brackets_unordered :
    ∃ (i : ℕ) (before after : ℤ), search [3, 9, 5, 20] 7 = .ok (i + 1) ∧
      [3, 9, 5, 20][i]? = some before ∧ [3, 9, 5, 20][i + 1]? = some after ∧ before ≤ 7 ∧ 7 < after :=
  search_brackets [3, 9, 5, 20] 7 ⟨3, rfl, by decide⟩ ⟨20, rfl, by decide, by decide⟩

/-! ## Leap seconds -/

structure Leap where
  transition : ℤ
  change : ℤ
  deriving DecidableEq, Repr

def lastLeap (leaps : List Leap) (timer : ℤ) : ℕ → Run (Option ℕ)
  | 0 => .ok none
  | i + 1 => do
    let leap ← load leaps i
    if timer < leap.transition then lastLeap leaps timer i else .ok (some i)

/-- The test for an inserted second. It looks at the entry before, even if there is none. -/
def inserts (leaps : List Leap) (leap : Leap) : ℕ → Run Bool
  | 0 => if leap.change > 0 then .ok true else .error (.read 0)
  | i + 1 => do
    let before ← load leaps i
    .ok (leap.change > before.change)

/-- The count of consecutive leap seconds that end with the entry `i`. -/
def countLeaps (leaps : List Leap) : ℕ → ℤ → Run ℤ
  | 0, hit => .ok hit
  | i + 1, hit => do
    let leap ← load leaps (i + 1)
    let before ← load leaps i
    if leap.transition = wrap 64 (before.transition + 1) ∧ leap.change = wrap 64 (before.change + 1)
    then countLeaps leaps i (hit + 1) else .ok hit

/-- `*leap_hit` for the entry `i` -/
def leapHit (leaps : List Leap) (timer : ℤ) (leap : Leap) (i : ℕ) : Run ℤ :=
  if timer = leap.transition then do
    let inserted ← inserts leaps leap i
    if inserted then countLeaps leaps i 1 else .ok 0
  else .ok 0

/-- `*leap_correct` and `*leap_hit` -/
def leapSecond (leaps : List Leap) (timer : ℤ) : Run (ℤ × ℤ) := do
  let found ← lastLeap leaps timer leaps.length
  match found with
  | none => .ok (0, 0)
  | some i => do
    let leap ← load leaps i
    let hit ← leapHit leaps timer leap i
    .ok (leap.change, hit)

def InForce (leaps : List Leap) (timer : ℤ) (i : ℕ) (leap : Leap) : Prop :=
  leaps[i]? = some leap ∧ leap.transition ≤ timer ∧
    ∀ j l, i < j → leaps[j]? = some l → timer < l.transition

/-- The correction before the entry `i`. -/
def changeBefore (leaps : List Leap) : ℕ → ℤ
  | 0 => 0
  | i + 1 => (leaps[i]?.map Leap.change).getD 0

section

variable {leaps : List Leap} {timer : ℤ} {leap : Leap} {i : ℕ}

lemma load_some {α : Type} {xs : List α} {i : ℕ} {a : α} (h : xs[i]? = some a) : load xs i = .ok a := by
  rw [load, h]

lemma lastLeap_returns (timer : ℤ) {n : ℕ} (hn : n ≤ leaps.length)
    (hafter : ∀ j l, n ≤ j → leaps[j]? = some l → timer < l.transition) :
    Returns (lastLeap leaps timer n) fun found =>
      (found = none ∧ ∀ l ∈ leaps, timer < l.transition) ∨
        ∃ i leap, found = some i ∧ InForce leaps timer i leap := by
  induction n with
  | zero =>
    refine returns_ok (.inl ⟨rfl, fun l hl => ?_⟩)
    obtain ⟨j, hj⟩ := List.mem_iff_getElem?.mp hl
    exact hafter j l (Nat.zero_le j) hj
  | succ n ih =>
    have hget : leaps[n]? = some leaps[n] := List.getElem?_eq_getElem hn
    rw [lastLeap, load_some hget, ok_bind]
    split_ifs with hlt
    · refine ih (by omega) fun j l hj hl => ?_
      rcases hj.eq_or_lt with rfl | hj
      · rw [hget] at hl
        cases hl
        exact hlt
      · exact hafter j l hj hl
    · exact returns_ok (.inr ⟨n, leaps[n], rfl, hget, not_lt.mp hlt, fun j l hj hl => hafter j l hj hl⟩)

lemma InForce.unique {i' : ℕ} {leap' : Leap} (h : InForce leaps timer i leap)
    (h' : InForce leaps timer i' leap') : i' = i ∧ leap' = leap := by
  obtain ⟨hget, hle, hlast⟩ := h
  obtain ⟨hget', hle', hlast'⟩ := h'
  have hindex : i' = i := by
    rcases Nat.lt_trichotomy i' i with hlt | heq | hlt
    · have := hlast' i leap hlt hget
      omega
    · exact heq
    · have := hlast i' leap' hlt hget'
      omega
  subst hindex
  rw [hget] at hget'
  exact ⟨rfl, (Option.some.inj hget').symm⟩

lemma countLeaps_returns {hit : ℤ} (hi : i < leaps.length) (hhit : 0 < hit) :
    Returns (countLeaps leaps i hit) fun result => 0 < result := by
  induction i generalizing hit with
  | zero => exact returns_ok hhit
  | succ i ih =>
    have hget (j : ℕ) (hj : j < leaps.length) : load leaps j = .ok leaps[j] :=
      load_some (List.getElem?_eq_getElem hj)
    rw [countLeaps, hget (i + 1) hi, ok_bind, hget i (by omega), ok_bind]
    split_ifs
    · exact ih (by omega) (by omega)
    · exact returns_ok hhit

lemma inserts_eq (hget : leaps[i]? = some leap) (hsafe : ¬ (i = 0 ∧ leap.change ≤ 0)) :
    inserts leaps leap i = .ok (changeBefore leaps i < leap.change) := by
  cases i with
  | zero =>
    have hpos : 0 < leap.change := by
      by_contra hle
      exact hsafe ⟨rfl, not_lt.mp hle⟩
    simp [inserts, changeBefore, hpos]
  | succ i =>
    have hlt : i < leaps.length := by
      have := (List.getElem?_eq_some_iff.mp hget).1
      omega
    have hbefore := List.getElem?_eq_getElem hlt
    rw [inserts, load_some hbefore, ok_bind, changeBefore, hbefore]
    rfl

lemma leapHit_returns (hget : leaps[i]? = some leap)
    (hsafe : ¬ (i = 0 ∧ timer = leap.transition ∧ leap.change ≤ 0)) :
    Returns (leapHit leaps timer leap i) fun hit =>
      hit ≠ 0 ↔ timer = leap.transition ∧ changeBefore leaps i < leap.change := by
  unfold leapHit
  by_cases htime : timer = leap.transition
  · have hinserts := inserts_eq hget (fun h => hsafe ⟨h.1, htime, h.2⟩)
    rw [if_pos htime, hinserts, ok_bind]
    by_cases hchange : changeBefore leaps i < leap.change
    · simp only [hchange, decide_true, if_true]
      refine (countLeaps_returns (List.getElem?_eq_some_iff.mp hget).1 one_pos).mono fun hit hhit => ?_
      simp [htime, hhit.ne']
    · simp only [hchange, decide_false, Bool.false_eq_true, if_false]
      exact returns_ok (by simp)
  · rw [if_neg htime]
    exact returns_ok (by simp [htime])

lemma leapHit_fails (htime : timer = leap.transition) (hchange : leap.change ≤ 0) :
    leapHit leaps timer leap 0 = .error (.read 0) := by
  rw [leapHit, if_pos htime, inserts, if_neg (not_lt.mpr hchange), error_bind]

end

/-- The lookup is right, and stays in the table, exactly if it does not hit the time of
the first entry with a correction that is not positive. -/
theorem leapSecond_correct_iff (leaps : List Leap) (timer : ℤ) :
    (∃ correct hit, leapSecond leaps timer = .ok (correct, hit) ∧
        ((∀ l ∈ leaps, timer < l.transition) → correct = 0 ∧ hit = 0) ∧
        ∀ i leap, InForce leaps timer i leap → correct = leap.change ∧
          (hit ≠ 0 ↔ timer = leap.transition ∧ changeBefore leaps i < leap.change)) ↔
      ¬ ∃ leap, InForce leaps timer 0 leap ∧ timer = leap.transition ∧ leap.change ≤ 0 := by
  obtain ⟨found, hfound, hcases⟩ := lastLeap_returns timer le_rfl (fun j l hj hl => by
    have := (List.getElem?_eq_some_iff.mp hl).1
    omega)
  unfold leapSecond
  rw [hfound, ok_bind]
  rcases hcases with ⟨rfl, hnone⟩ | ⟨i, leap, rfl, hforce⟩
  · have hnever (i : ℕ) (leap : Leap) (hforce : InForce leaps timer i leap) : False := by
      have hlt := hnone leap (List.mem_of_getElem? hforce.1)
      have hle := hforce.2.1
      omega
    constructor
    · rintro - ⟨leap, hforce, -⟩
      exact hnever 0 leap hforce
    · intro _
      exact ⟨0, 0, rfl, fun _ => ⟨rfl, rfl⟩, fun i leap hforce => (hnever i leap hforce).elim⟩
  dsimp only
  rw [load_some hforce.1, ok_bind]
  by_cases hsafe : i = 0 ∧ timer = leap.transition ∧ leap.change ≤ 0
  · obtain ⟨rfl, htime, hchange⟩ := hsafe
    rw [leapHit_fails htime hchange, error_bind]
    constructor
    · rintro ⟨correct, hit, hresult, -⟩
      cases hresult
    · intro hnot
      exact absurd ⟨leap, hforce, htime, hchange⟩ hnot
  obtain ⟨hit, hhit, hspec⟩ := leapHit_returns hforce.1 hsafe
  rw [hhit, ok_bind]
  constructor
  · rintro - ⟨first, hfirst, htime, hchange⟩
    obtain ⟨hzero, rfl⟩ := hforce.unique hfirst
    exact hsafe ⟨hzero.symm, htime, hchange⟩
  · intro _
    refine ⟨leap.change, hit, rfl, fun hnone => ?_, fun j l hl => ?_⟩
    · have hlt := hnone leap (List.mem_of_getElem? hforce.1)
      have hle := hforce.2.1
      omega
    · obtain ⟨rfl, rfl⟩ := hforce.unique hl
      exact ⟨rfl, hspec⟩

/-- The entry before the first one is read. -/
theorem leapSecond_reads_before :
    InForce [⟨100, -1⟩] 100 0 ⟨100, -1⟩ ∧ leapSecond [⟨100, -1⟩] 100 = .error (.read 0) := by
  refine ⟨⟨rfl, le_rfl, fun j l hj hl => ?_⟩, rfl⟩
  rw [List.getElem?_eq_none (show 1 ≤ j from hj)] at hl
  cases hl

end Eglibc.Tzfile
