import Eglibc.Segments

/-!
# Environment vectors

An `envz` vector is a block of entries, each ended by a NUL, with its length; an entry is
a name, or a name, the separator and a value. The functions edit the block in place.
`realloc` always succeeds and leaves arbitrary bytes behind what it keeps.
-/
namespace Eglibc.Envz
open Checked Segments

variable {e xs zs s : List UInt8} {p start : ℕ}

def sep : UInt8 := 61

/-- The block, absent for a null pointer, and the bytes of it that are in use. -/
structure Vec where
  block : Option (List UInt8)
  len : ℕ

def Vec.empty : Vec := ⟨none, 0⟩

def Vec.object (v : Vec) : List UInt8 := v.block.getD []

/-! ## Scanning -/

def strlenBody (s : List UInt8) (i : ℕ) : Run (ℕ ⊕ ℕ) := do
  if (← load s i) = 0 then .ok (.inr i) else .ok (.inl (i + 1))

def strlen (s : List UInt8) (start : ℕ) : Run ℕ := do
  let stop ← iterate (strlenBody s) (s.length + 1) start
  .ok (stop - start)

structure Scan where
  p : ℕ
  envz : ℕ
  left : ℕ

def matchBody (envz name : List UInt8) (s : Scan) : Run (Scan ⊕ Scan) := do
  if s.left = 0 then .ok (.inr s)
  else
    let c ← load name s.p
    let e ← load envz s.envz
    if c = e ∧ c ≠ 0 ∧ c ≠ sep then .ok (.inl ⟨s.p + 1, s.envz + 1, s.left - 1⟩)
    else .ok (.inr s)

def skipBody (envz : List UInt8) (s : Scan) : Run (Scan ⊕ Scan) := do
  if s.left = 0 then .ok (.inr s)
  else if (← load envz s.envz) ≠ 0 then .ok (.inl { s with envz := s.envz + 1, left := s.left - 1 })
  else .ok (.inr s)

def bingo (envz name : List UInt8) (s : Scan) : Run Bool := do
  let e ← load envz s.envz
  if e = 0 ∨ e = sep then
    let c ← load name s.p
    .ok (c = 0 ∨ c = sep)
  else .ok false

def entryBody (envz name : List UInt8) (start : ℕ) (s : Scan) : Run (Scan ⊕ Option ℕ) := do
  if s.left = 0 then .ok (.inr none)
  else
    let entry := s.envz
    let s ← iterate (matchBody envz name) (s.left + 1) { s with p := start }
    if ← bingo envz name s then .ok (.inr (some entry))
    else
      let s ← iterate (skipBody envz) (s.left + 1) s
      if s.left ≠ 0 then .ok (.inl { s with envz := s.envz + 1, left := s.left - 1 })
      else .ok (.inl s)

def envzEntry (v : Vec) (name : List UInt8) (start : ℕ) : Run (Option ℕ) :=
  iterate (entryBody v.object name start) (v.len + 1) ⟨start, 0, v.len⟩

def valueBody (envz : List UInt8) (entry : ℕ) : Run (ℕ ⊕ Option ℕ) := do
  let c ← load envz entry
  if c ≠ 0 ∧ c ≠ sep then .ok (.inl (entry + 1))
  else if c ≠ 0 then .ok (.inr (some (entry + 1)))
  else .ok (.inr none)

def envzGet (v : Vec) (name : List UInt8) (start : ℕ) : Run (Option ℕ) := do
  match ← envzEntry v name start with
  | none => .ok none
  | some entry => iterate (valueBody v.object) (v.object.length + 1) entry

/-! ## Editing -/

/-- `realloc`, where `junk` is what new memory holds. -/
def realloc (junk : ℕ → UInt8) (block : Option (List UInt8)) (n : ℕ) : List UInt8 :=
  (List.range n).map fun i => (block.getD []).getD i (junk i)

def argzDelete (v : Vec) (entry : ℕ) : Run Vec := do
  let entryLen := (← strlen v.object entry) + 1
  let len := v.len - entryLen
  let moved ← loadRange v.object (entry + entryLen) (len - entry)
  let block ← storeRange v.object entry moved
  if len = 0 then .ok ⟨none, 0⟩ else .ok ⟨some block, len⟩

def argzAppend (junk : ℕ → UInt8) (v : Vec) (buf : List UInt8) (start n : ℕ) : Run Vec := do
  let block := realloc junk v.block (v.len + n)
  let block ← storeRange block v.len (← loadRange buf start n)
  .ok ⟨some block, v.len + n⟩

def argzAdd (junk : ℕ → UInt8) (v : Vec) (str : List UInt8) : Run Vec := do
  argzAppend junk v str 0 ((← strlen str 0) + 1)

def envzRemove (v : Vec) (name : List UInt8) : Run Vec := do
  match ← envzEntry v name 0 with
  | some entry => argzDelete v entry
  | none => .ok v

def envzAdd (junk : ℕ → UInt8) (v : Vec) (name : List UInt8) (value : Option (List UInt8)) :
    Run Vec := do
  let v ← envzRemove v name
  match value with
  | some value =>
    let nameLen ← strlen name 0
    let valueLen ← strlen value 0
    let newLen := v.len + nameLen + 1 + valueLen + 1
    let block := realloc junk v.block newLen
    let block ← storeRange block v.len (← loadRange name 0 nameLen)
    let block ← store block (v.len + nameLen) sep
    let block ← storeRange block (v.len + nameLen + 1) (← loadRange value 0 valueLen)
    let block ← store block (newLen - 1) 0
    .ok ⟨some block, newLen⟩
  | none => argzAdd junk v name

structure Merge where
  vec : Vec
  envz2 : ℕ
  left : ℕ

/-- What `envz_merge` does with an entry of the other vector, given the entry
that has its name. -/
def mergeOne (junk : ℕ → UInt8) (vec : Vec) (envz2 : List UInt8) (start newLen : ℕ)
    (override : Bool) : Option ℕ → Run Vec
  | none => argzAppend junk vec envz2 start newLen
  | some old =>
    if override then do argzAppend junk (← argzDelete vec old) envz2 start newLen
    else .ok vec

def mergeBody (junk : ℕ → UInt8) (envz2 : List UInt8) (override : Bool) (s : Merge) :
    Run (Merge ⊕ Vec) := do
  if s.left = 0 then .ok (.inr s.vec)
  else
    let old ← envzEntry s.vec envz2 s.envz2
    let newLen := (← strlen envz2 s.envz2) + 1
    let vec ← mergeOne junk s.vec envz2 s.envz2 newLen override old
    .ok (.inl ⟨vec, s.envz2 + newLen, s.left - newLen⟩)

def envzMerge (junk : ℕ → UInt8) (v other : Vec) (override : Bool) : Run Vec :=
  iterate (mergeBody junk other.object override) (other.len + 1) ⟨v, 0, other.len⟩

structure Strip where
  object : List UInt8
  entry : ℕ
  left : ℕ

def sepBody (s : List UInt8) (i : ℕ) : Run (ℕ ⊕ Bool) := do
  let c ← load s i
  if c = sep then .ok (.inr true)
  else if c = 0 then .ok (.inr false)
  else .ok (.inl (i + 1))

/-- `strchr (entry, SEP)`, of which only the truth value is used. -/
def hasSep (s : List UInt8) (start : ℕ) : Run Bool := iterate (sepBody s) (s.length + 1) start

def stripBody (s : Strip) : Run (Strip ⊕ Strip) := do
  if s.left = 0 then .ok (.inr s)
  else
    let entryLen := (← strlen s.object s.entry) + 1
    let left := s.left - entryLen
    if ← hasSep s.object s.entry then .ok (.inl ⟨s.object, s.entry + entryLen, left⟩)
    else
      let moved ← loadRange s.object (s.entry + entryLen) left
      .ok (.inl ⟨← storeRange s.object s.entry moved, s.entry, left⟩)

def envzStrip (v : Vec) : Run Vec := do
  let s ← iterate stripBody (v.len + 1) ⟨v.object, 0, v.len⟩
  .ok ⟨v.block.map fun _ => s.object, s.entry⟩

/-! ## What the scans compute -/

/-- The name of an entry, or the part of a name that is compared. -/
def nameOf (e : List UInt8) : List UInt8 := e.takeWhile (· ≠ sep)

def valueOf (e : List UInt8) : Option (List UInt8) :=
  if sep ∈ e then some ((e.dropWhile (· ≠ sep)).drop 1) else none

def encode (es : List (List UInt8)) : List UInt8 := es.flatMap (· ++ [0])

@[simp] lemma encode_nil : encode [] = [] := rfl

@[simp] lemma encode_cons (e : List UInt8) (es : List (List UInt8)) :
    encode (e :: es) = e ++ 0 :: encode es := by
  simp [encode]

@[simp] lemma encode_append (es es' : List (List UInt8)) :
    encode (es ++ es') = encode es ++ encode es' := by
  simp [encode]

lemma sep_notMem_nameOf (e : List UInt8) : sep ∉ nameOf e := by
  intro h
  simpa using List.mem_takeWhile_imp h

lemma entry_split (h : sep ∈ e) : ∃ v, e = nameOf e ++ sep :: v ∧ valueOf e = some v := by
  have happend := List.takeWhile_append_dropWhile (p := fun c => decide (c ≠ sep)) (l := e)
  cases hdrop : e.dropWhile (fun c => decide (c ≠ sep)) with
  | nil =>
    rw [hdrop, List.append_nil] at happend
    have hname : nameOf e = e := happend
    rw [← hname] at h
    exact absurd h (sep_notMem_nameOf e)
  | cons c v =>
    have hc : c = sep := by
      have hstop := List.head_dropWhile_not (fun c => decide (c ≠ sep))
        (hdrop ▸ List.cons_ne_nil c v)
      simp only [hdrop, List.head_cons] at hstop
      simpa using hstop
    subst hc
    refine ⟨v, ?_, ?_⟩
    · rw [hdrop] at happend
      exact happend.symm
    · rw [valueOf, if_pos h, hdrop]
      rfl

lemma nameOf_of_notMem (h : sep ∉ e) : nameOf e = e := by
  apply List.takeWhile_eq_self_iff.mpr
  intro c hc
  simpa using fun hcs : c = sep => h (hcs ▸ hc)

structure Is (v : Vec) (es : List (List UInt8)) : Prop where
  len : v.len = (encode es).length
  holds : Holds v.object 0 (encode es)
  nul_free : ∀ e ∈ es, 0 ∉ e

section
variable {s name : List UInt8} {e n rest : List UInt8} {i : ℕ}

lemma Holds.head (h : Holds xs i (ys ++ zs)) : Holds xs i ys := (holds_append.mp h).1

lemma Holds.tail (h : Holds xs i (ys ++ zs)) : Holds xs (i + ys.length) zs := (holds_append.mp h).2

lemma length_of_holds (h : Holds s i (e ++ 0 :: zs)) : i + e.length < s.length :=
  (Holds.tail h).lt_length

lemma strlen_eq (h : Holds s i (e ++ 0 :: rest)) (he : 0 ∉ e) : strlen s i = .ok e.length := by
  have hscan : Reaches (strlenBody s) e.length i (i + e.length) := by
    apply (Holds.head h).scan (P := (· ≠ 0))
    · intro c hc hzero
      exact he (hzero ▸ hc)
    · intro i c hload hc
      simp [strlenBody, hload, hc]
  have hend : strlenBody s (i + e.length) = .ok (.inr (i + e.length)) := by
    simp [strlenBody, (Holds.tail h).load]
  have hlen := length_of_holds h
  rw [strlen, hscan.exit hend (by omega)]
  simp

lemma hasSep_eq (h : Holds s i (e ++ 0 :: rest)) (he : 0 ∉ e) :
    hasSep s i = .ok (decide (sep ∈ e)) := by
  have hnext : ∀ i c, load s i = .ok c → c ≠ 0 ∧ c ≠ sep → sepBody s i = .ok (.inl (i + 1)) := by
    intro i c hload hc
    simp [sepBody, hload, hc]
  have hlen := length_of_holds h
  by_cases hsep : sep ∈ e
  · obtain ⟨v, he', -⟩ := entry_split hsep
    rw [he', List.append_assoc] at h
    have hscan : Reaches (sepBody s) (nameOf e).length i (i + (nameOf e).length) := by
      apply (Holds.head h).scan _ hnext
      intro c hc
      refine ⟨fun h0 => he ?_, fun h1 => sep_notMem_nameOf e (h1 ▸ hc)⟩
      rw [← h0, he']
      exact List.mem_append_left _ hc
    have hend : sepBody s (i + (nameOf e).length) = .ok (.inr true) := by
      simp [sepBody, (Holds.tail h).load]
    have hle : (nameOf e).length ≤ e.length := (List.takeWhile_sublist _).length_le
    rw [hasSep, hscan.exit hend (by omega)]
    simp [hsep]
  have hscan : Reaches (sepBody s) e.length i (i + e.length) := by
    apply (Holds.head h).scan _ hnext
    intro c hc
    exact ⟨fun h0 => he (h0 ▸ hc), fun h1 => hsep (h1 ▸ hc)⟩
  have hend : sepBody s (i + e.length) = .ok (.inr false) := by
    simp [sepBody, (Holds.tail h).load, sep]
  rw [hasSep, hscan.exit hend (by omega)]
  simp [hsep]

/-! ### Looking for an entry -/

def AtEnd : List UInt8 → Prop
  | [] => True
  | c :: _ => c = sep

lemma match_reaches (left : ℕ) (h : Holds s i (e ++ 0 :: rest)) (hn : Holds name p (n ++ [0]))
    (he : 0 ∉ e) (hn0 : 0 ∉ n) (hleft : e.length < left) : ∃ u n' e', n = u ++ n' ∧ e = u ++ e' ∧
      Reaches (matchBody s name) u.length ⟨p, i, left⟩ ⟨p + u.length, i + u.length, left - u.length⟩ ∧
      matchBody s name ⟨p + u.length, i + u.length, left - u.length⟩ =
        .ok (.inr ⟨p + u.length, i + u.length, left - u.length⟩) ∧
      (AtEnd n' ∧ AtEnd e' ↔ nameOf n = nameOf e) := by
  induction n generalizing e p i left with
  | nil =>
    have hleft' : left ≠ 0 := by omega
    refine ⟨[], [], e, rfl, rfl, .refl _, ?_, ?_⟩
    · cases e with
      | nil | cons d e => simp [matchBody, hleft', hn.load, h.load]
    · cases e with
      | nil => simp [AtEnd]
      | cons d e => by_cases hd : d = sep <;> simp [AtEnd, nameOf, hd]
  | cons c n ih =>
    have hleft' : left ≠ 0 := by omega
    have hc0 : c ≠ 0 := fun hc => hn0 (hc ▸ List.mem_cons_self)
    cases e with
    | nil =>
      refine ⟨[], c :: n, [], rfl, rfl, .refl _, ?_, ?_⟩
      · simp [matchBody, hleft', hn.load, h.load, hc0]
      · by_cases hc : c = sep <;> simp [AtEnd, nameOf, hc]
    | cons d e =>
      by_cases hcd : c = d ∧ c ≠ sep
      · obtain ⟨rfl, hc⟩ := hcd
        obtain ⟨u, n', e', hu, hu', hreach, hexit, hname⟩ := ih (i := i + 1) (p := p + 1)
          (left - 1) (holds_cons.mp h).2 (holds_cons.mp hn).2
          (fun hm => he (List.mem_cons_of_mem _ hm)) (fun hm => hn0 (List.mem_cons_of_mem _ hm))
          (by simp at hleft; omega)
        have hnext : matchBody s name ⟨p, i, left⟩ = .ok (.inl ⟨p + 1, i + 1, left - 1⟩) := by
          simp [matchBody, hleft', hn.load, h.load, hc0, hc]
        refine ⟨c :: u, n', e', by rw [hu, List.cons_append], by rw [hu', List.cons_append], ?_⟩
        rw [show p + (c :: u).length = p + 1 + u.length by simp; omega,
          show i + (c :: u).length = i + 1 + u.length by simp; omega,
          show left - (c :: u).length = left - 1 - u.length by simp; omega]
        refine ⟨hreach.head hnext, hexit, ?_⟩
        rw [hname]
        simp [nameOf, hc]
      refine ⟨[], c :: n, d :: e, rfl, rfl, .refl _, ?_, ?_⟩
      · have : ¬ (c = d ∧ c ≠ 0 ∧ c ≠ sep) := fun h => hcd ⟨h.1, h.2.2⟩
        simp [matchBody, hleft', hn.load, h.load, this]
      · by_cases hc : c = sep <;> by_cases hd : d = sep <;> simp_all [AtEnd, nameOf]

lemma load_atEnd (h : Holds xs i (e ++ 0 :: rest)) (he : 0 ∉ e) :
    ∃ c, load xs i = .ok c ∧ (c = 0 ∨ c = sep ↔ AtEnd e) := by
  cases e with
  | nil => exact ⟨0, h.load, by simp [AtEnd]⟩
  | cons c e =>
    have hc : c ≠ 0 := fun hc => he (hc ▸ List.mem_cons_self)
    exact ⟨c, h.load, by simp [AtEnd, hc]⟩

lemma bingo_eq (left : ℕ) (h : Holds s i (e' ++ 0 :: rest))
    (hn : Holds name p (n' ++ [0])) (he : 0 ∉ e') (hn0 : 0 ∉ n') :
    ∃ b, bingo s name ⟨p, i, left⟩ = .ok b ∧ (b = true ↔ AtEnd n' ∧ AtEnd e') := by
  obtain ⟨d, hd, hdend⟩ := load_atEnd h he
  obtain ⟨c, hc, hcend⟩ := load_atEnd hn hn0
  by_cases hstop : d = 0 ∨ d = sep
  · refine ⟨decide (c = 0 ∨ c = sep), ?_, ?_⟩
    · simp [bingo, hd, hc, ok_bind, hstop]
    · rw [decide_eq_true_eq, hcend, ← hdend]
      exact ⟨fun h => ⟨h, hstop⟩, fun h => h.1⟩
  refine ⟨false, ?_, ?_⟩
  · simp [bingo, hd, ok_bind, hstop]
  · rw [← hdend]
    simp [hstop]

lemma skip_eq (p left budget : ℕ) (h : Holds s i (e ++ 0 :: rest)) (he : 0 ∉ e)
    (hleft : e.length < left) (hb : e.length < budget) :
    iterate (skipBody s) budget ⟨p, i, left⟩ = .ok ⟨p, i + e.length, left - e.length⟩ := by
  have hreach : Reaches (skipBody s) e.length ⟨p, i, left⟩ ⟨p, i + e.length, left - e.length⟩ := by
    clear hb
    induction e generalizing i left with
    | nil => exact .refl _
    | cons c e ih =>
      have hc : c ≠ 0 := fun hc => he (hc ▸ List.mem_cons_self)
      have hleft' : left ≠ 0 := by omega
      have hnext : skipBody s ⟨p, i, left⟩ = .ok (.inl ⟨p, i + 1, left - 1⟩) := by
        simp [skipBody, hleft', h.load, hc]
      have hrest := ih (i := i + 1) (left - 1) (holds_cons.mp h).2
        (fun hm => he (List.mem_cons_of_mem _ hm)) (by simp at hleft; omega)
      rw [show i + (c :: e).length = i + 1 + e.length by simp; omega,
        show left - (c :: e).length = left - 1 - e.length by simp; omega]
      exact hrest.head hnext
  apply hreach.exit _ hb
  have hleft' : left - e.length ≠ 0 := by omega
  simp [skipBody, hleft', (Holds.tail h).load]

lemma entryBody_eq (h : Holds s i (encode (e :: es)))
    (hn : Holds name start (n ++ [0])) (he : 0 ∉ e) (hn0 : 0 ∉ n) :
    ∃ p', entryBody s name start ⟨p, i, (encode (e :: es)).length⟩ =
      if nameOf n = nameOf e then .ok (.inr (some i))
      else .ok (.inl ⟨p', i + (e.length + 1), (encode es).length⟩) := by
  rw [encode_cons] at h ⊢
  have hlen : (e ++ 0 :: encode es).length = e.length + 1 + (encode es).length := by
    simp; omega
  rw [hlen]
  obtain ⟨u, n', e', rfl, rfl, hreach, hexit, hname⟩ := match_reaches
    (e.length + 1 + (encode es).length) h hn he hn0 (by omega)
  have hmatch : iterate (matchBody s name) ((u ++ e').length + 1 + (encode es).length + 1)
      ⟨start, i, (u ++ e').length + 1 + (encode es).length⟩ = .ok ⟨start + u.length, i + u.length,
        (u ++ e').length + 1 + (encode es).length - u.length⟩ :=
    hreach.exit hexit (by simp; omega)
  rw [List.append_assoc] at h hn
  have he' : 0 ∉ e' := fun hm => he (List.mem_append_right _ hm)
  have hn0' : 0 ∉ n' := fun hm => hn0 (List.mem_append_right _ hm)
  obtain ⟨b, hb, hbname⟩ := bingo_eq ((u ++ e').length + 1 + (encode es).length - u.length)
    (Holds.tail h) (Holds.tail hn) he' hn0'
  have hleft : ¬ (u ++ e').length + 1 + (encode es).length = 0 := by omega
  refine ⟨start + u.length, ?_⟩
  simp only [entryBody, if_neg hleft, hmatch, ok_bind, hb]
  rw [hname] at hbname
  by_cases hfound : nameOf (u ++ n') = nameOf (u ++ e')
  · rw [hbname.mpr hfound, if_pos hfound]
    rfl
  have hb' : b = false := by
    rwa [← Bool.not_eq_true, hbname]
  have hskip := skip_eq (start + u.length)
    ((u ++ e').length + 1 + (encode es).length - u.length)
    ((u ++ e').length + 1 + (encode es).length - u.length + 1) (Holds.tail h) he'
    (by simp; omega) (by simp; omega)
  have hne : (u ++ e').length + 1 + (encode es).length - u.length - e'.length ≠ 0 := by
    simp; omega
  rw [hb', if_neg hfound]
  simp only [Bool.false_eq_true, if_false, hskip, ok_bind, if_pos hne]
  have h1 : i + u.length + e'.length + 1 = i + ((u ++ e').length + 1) := by simp; omega
  have h2 : (u ++ e').length + 1 + (encode es).length - u.length - e'.length - 1 =
      (encode es).length := by omega
  rw [h1, h2]

lemma length_le_encode (es : List (List UInt8)) : es.length ≤ (encode es).length := by
  induction es with
  | nil => rfl
  | cons e es ih =>
    simp
    omega

lemma envzEntry_cases (h : Is v es) (hn : Holds name start (n ++ [0])) (hn0 : 0 ∉ n) :
    ((∀ e ∈ es, nameOf e ≠ nameOf n) ∧ envzEntry v name start = .ok none) ∨
    ∃ u e w, es = u ++ e :: w ∧ (∀ e ∈ u, nameOf e ≠ nameOf n) ∧ nameOf e = nameOf n ∧
      envzEntry v name start = .ok (some (encode u).length) := by
  have hscan : ∀ (es : List (List UInt8)) (i p budget : ℕ), Holds v.object i (encode es) →
      (∀ e ∈ es, 0 ∉ e) → es.length < budget →
      ((∀ e ∈ es, nameOf e ≠ nameOf n) ∧
        iterate (entryBody v.object name start) budget ⟨p, i, (encode es).length⟩ = .ok none) ∨
      ∃ u e w, es = u ++ e :: w ∧ (∀ e ∈ u, nameOf e ≠ nameOf n) ∧ nameOf e = nameOf n ∧
        iterate (entryBody v.object name start) budget ⟨p, i, (encode es).length⟩ =
          .ok (some (i + (encode u).length)) := by
    intro es
    induction es with
    | nil =>
      intro i p budget _ _ hb
      obtain _ | budget := budget
      · omega
      left
      refine ⟨by simp, ?_⟩
      apply iterate_exit
      simp [entryBody]
    | cons e es ih =>
      intro i p budget h he hb
      obtain _ | budget := budget
      · omega
      obtain ⟨p', hbody⟩ := entryBody_eq (p := p) h hn (he e List.mem_cons_self) hn0
      by_cases hfound : nameOf n = nameOf e
      · rw [if_pos hfound] at hbody
        right
        refine ⟨[], e, es, rfl, by simp, hfound.symm, ?_⟩
        rw [iterate_exit hbody]
        rfl
      rw [if_neg hfound] at hbody
      rw [iterate_next hbody]
      have hrest := Holds.tail h
      rw [List.length_append, List.length_singleton] at hrest
      obtain ⟨hnone, heq⟩ | ⟨u, x, w, rfl, hu, hx, heq⟩ := ih _ p' budget hrest
        (fun x hx => he x (List.mem_cons_of_mem _ hx)) (by simp at hb; omega)
      · left
        refine ⟨?_, heq⟩
        intro x hx
        obtain rfl | hx := List.mem_cons.mp hx
        · exact fun h => hfound h.symm
        · exact hnone x hx
      right
      refine ⟨e :: u, x, w, rfl, ?_, hx, ?_⟩
      · intro y hy
        obtain rfl | hy := List.mem_cons.mp hy
        · exact fun h => hfound h.symm
        · exact hu y hy
      · rw [heq]
        simp; omega
  have hlen := length_le_encode es
  have hstart := hscan es 0 start (v.len + 1) h.holds h.nul_free (by rw [h.len]; omega)
  rw [← h.len] at hstart
  simpa [envzEntry] using hstart

end

/-! ## What the edits leave -/

section
variable {v : Vec} {es : List (List UInt8)} {e n rest : List UInt8}

lemma value_cases (h : Holds s i (e ++ 0 :: rest)) (he : 0 ∉ e) (hb : e.length < budget) :
    (valueOf e = none ∧ iterate (valueBody s) budget i = .ok none) ∨
    ∃ value j, valueOf e = some value ∧ 0 ∉ value ∧ iterate (valueBody s) budget i = .ok (some j) ∧
      Holds s j (value ++ 0 :: rest) ∧ j + value.length = i + e.length := by
  have hnext : ∀ i c, load s i = .ok c → c ≠ 0 ∧ c ≠ sep → valueBody s i = .ok (.inl (i + 1)) := by
    intro i c hload hc
    simp [valueBody, hload, hc]
  by_cases hsep : sep ∈ e
  · obtain ⟨value, he', hvalue⟩ := entry_split hsep
    rw [he', List.append_assoc] at h
    have hscan : Reaches (valueBody s) (nameOf e).length i (i + (nameOf e).length) := by
      apply (Holds.head h).scan _ hnext
      intro c hc
      refine ⟨fun h0 => he ?_, fun h1 => sep_notMem_nameOf e (h1 ▸ hc)⟩
      rw [← h0, he']
      exact List.mem_append_left _ hc
    have hend : valueBody s (i + (nameOf e).length) = .ok (.inr (some (i + (nameOf e).length + 1))) := by
      simp [valueBody, (Holds.tail h).load, sep]
    have hfree : 0 ∉ value := by
      intro h0
      apply he
      rw [he']
      exact List.mem_append_right _ (List.mem_cons_of_mem _ h0)
    have hlen := congrArg List.length he'
    rw [List.length_append, List.length_cons] at hlen
    right
    exact ⟨value, _, hvalue, hfree, hscan.exit hend (by omega), (holds_cons.mp (Holds.tail h)).2,
      by omega⟩
  have hscan : Reaches (valueBody s) e.length i (i + e.length) := by
    apply (Holds.head h).scan _ hnext
    intro c hc
    exact ⟨fun h0 => he (h0 ▸ hc), fun h1 => hsep (h1 ▸ hc)⟩
  have hend : valueBody s (i + e.length) = .ok (.inr none) := by
    simp [valueBody, (Holds.tail h).load]
  left
  exact ⟨by simp [valueOf, hsep], hscan.exit hend hb⟩

lemma Is.le_length (h : Is v es) : v.len ≤ v.object.length := by
  cases es with
  | nil => simp [h.len]
  | cons e es =>
    have := h.holds.le_length (by simp)
    rw [h.len]
    omega

lemma delete_returns (h : Holds s 0 (encode (u ++ e :: w))) : Returns (do
        let moved ← loadRange s ((encode u).length + (e.length + 1)) (encode w).length
        storeRange s (encode u).length moved) fun s' =>
      s'.length = s.length ∧ Holds s' 0 (encode (u ++ w)) := by
  have hle := h.le_length (by simp)
  simp at hle
  have hu : Holds s 0 (encode u) := by
    rw [encode_append] at h
    exact Holds.head h
  have hw : Holds s ((encode u).length + (e.length + 1)) (encode w) := by
    rw [encode_append, encode_cons, ← List.append_assoc, List.append_cons] at h
    have := Holds.tail h
    simpa [Nat.add_assoc] using this
  have hload : loadRange s ((encode u).length + (e.length + 1)) (encode w).length = .ok (encode w) := by
    rw [loadRange, if_pos (by omega), hw.take_drop]
  rw [hload, ok_bind]
  apply (storeRange_returns (by omega)).mono
  intro s' hs'
  refine ⟨hs'.length_eq, ?_⟩
  simpa using hs'.extend hu (by simp)

lemma argzDelete_returns (h : Is v (u ++ e :: w)) :
    Returns (argzDelete v (encode u).length) fun v' => Is v' (u ++ w) := by
  have he : 0 ∉ e := h.nul_free e (by simp)
  have hfree : ∀ x ∈ u ++ w, 0 ∉ x := by
    intro x hx
    apply h.nul_free x
    simp at hx ⊢
    tauto
  have hentry : Holds v.object (encode u).length (e ++ 0 :: encode w) := by
    have := h.holds
    rw [encode_append, encode_cons] at this
    simpa using Holds.tail this
  have hlen := h.len
  simp at hlen
  have hleft : v.len - (e.length + 1) = (encode u).length + (encode w).length := by omega
  obtain ⟨s', hs', hlength, hholds⟩ := delete_returns h.holds
  simp only [argzDelete, strlen_eq hentry he, ok_bind, hleft, Nat.add_sub_cancel_left]
  cases hmoved : loadRange v.object ((encode u).length + (e.length + 1)) (encode w).length with
  | error fault =>
    rw [hmoved] at hs'
    cases hs'
  | ok moved =>
    rw [hmoved, ok_bind] at hs'
    rw [ok_bind, hs', ok_bind]
    split_ifs with hzero
    · apply returns_ok
      have hnil : encode (u ++ w) = [] := by
        apply List.eq_nil_of_length_eq_zero
        simp [encode_append, hzero]
      exact ⟨by rw [hnil]; rfl, by rw [hnil]; exact holds_nil, hfree⟩
    · apply returns_ok
      exact ⟨by simp, hholds, hfree⟩

lemma realloc_holds (h : Is v es) (junk : ℕ → UInt8) (k : ℕ) :
    Holds (realloc junk v.block (v.len + k)) 0 (encode es) := by
  intro j hj
  have hobject := h.holds j hj
  have hlt : j < v.object.length := by
    have := h.le_length
    rw [h.len] at this
    omega
  have hlen := h.len
  rw [← hobject, realloc]
  simp only [Nat.zero_add, List.getElem?_map]
  rw [List.getElem?_range (by omega)]
  simp only [Option.map_some, Vec.object] at hlt ⊢
  rw [List.getD_eq_getElem _ _ hlt, List.getElem?_eq_getElem hlt]

@[simp] lemma realloc_length (junk : ℕ → UInt8) (block : Option (List UInt8)) (n : ℕ) :
    (realloc junk block n).length = n := by
  simp [realloc]

lemma Is.push (h : Is v es) (he : 0 ∉ e) (hs : Holds s 0 (encode es ++ (e ++ [0]))) :
    Is ⟨some s, v.len + (e.length + 1)⟩ (es ++ [e]) where
  len := by simp [h.len]
  holds := by simpa [Vec.object] using hs
  nul_free x hx := by
    obtain hx | hx := List.mem_append.mp hx
    · exact h.nul_free x hx
    · rwa [List.mem_singleton.mp hx]

lemma argzAppend_returns (h : Is v es) (junk : ℕ → UInt8) (hbuf : Holds buf start (e ++ 0 :: rest))
    (he : 0 ∉ e) :
    Returns (argzAppend junk v buf start (e.length + 1)) fun v' => Is v' (es ++ [e]) := by
  have hload : loadRange buf start (e.length + 1) = .ok (e ++ [0]) := by
    rw [List.append_cons] at hbuf
    exact (Holds.head hbuf).loadRange (by simp) (by simp)
  rw [argzAppend, hload, ok_bind]
  apply (storeRange_returns (by simp)).bind
  intro s hs
  apply returns_ok
  apply h.push he
  exact hs.extend (realloc_holds h junk _) (by simp [h.len])

end

end Eglibc.Envz
