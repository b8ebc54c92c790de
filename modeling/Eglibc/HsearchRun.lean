import Eglibc.Hsearch
import Eglibc.TrialDivision

/-!
# The hash table as a finite map

An entry is stored on the probe sequence of its key, and every slot before it is used.
-/
namespace Eglibc.Hsearch
open Checked Bytes DoubleHash TrialDivision
variable {δ : Type} {signed : Bool} {h : Table δ} {key : CString}

variable {t i : ℕ} {key : CString} {e : Entry δ}

theorem isprime_returns {number : ℕ} (hodd : number % 2 = 1) (hn : 3 ≤ number) :
    Returns (isprime wrapping number) fun b => b = true ↔ number.Prime ∧
      ∃ d, d % 2 = 1 ∧ 3 ≤ d ∧ d < number ∧ number ≤ d * d % 2 ^ 32 := by
  refine iterate_returns (I := fun div => Undivided number div ∧ div ≤ number ∧
    ∀ d, d % 2 = 1 → 3 ≤ d → number ≤ d * d % 2 ^ 32 → div ≤ d) (number - ·) ?_
    ⟨⟨rfl, le_rfl, by omega⟩, hn, fun d _ h3 _ => h3⟩ (by omega)
  rintro div ⟨hu, hle, hleast⟩
  have hmod := hu.1
  simp only [isprimeBody, wrapping, ok_bind]
  split_ifs with hc
  · have hne : div ≠ number := fun h => hc.2 (by simp [h])
    refine returns_ok ⟨⟨hu.next hc.2, by omega, ?_⟩, by dsimp only; omega⟩
    intro d hd h3 hsq
    have hdle := hleast d hd h3 hsq
    have hdne : div ≠ d := fun h => by
      rw [← h] at hsq
      omega
    omega
  refine returns_ok (decide_eq_true_iff.trans ?_)
  constructor
  · intro hdiv
    have hsq : number ≤ div * div % 2 ^ 32 := by
      by_contra hlt
      exact hc ⟨not_le.mp hlt, hdiv⟩
    have hne : div ≠ number := fun h => hdiv (by simp [h])
    exact ⟨prime_of_undivided hodd hn hu (hsq.trans (Nat.mod_le _ _)) hdiv, div, hmod, hu.2.1,
      by omega, hsq⟩
  · rintro ⟨hp, d, hd, h3, hlt, hsq⟩ hdvd
    have := hleast d hd h3 hsq
    have := hu.2.1
    rcases hp.eq_one_or_self_of_dvd div (Nat.dvd_of_mod_eq_zero hdvd) with h | h <;> omega

lemma isprime_wrapping {number : ℕ} {b : Bool} (h : isprime fitting number = .ok b) :
    isprime wrapping number = .ok b := by
  refine iterate_refines (fun div out hout => ?_) h
  by_cases hsq : div * div < 2 ^ 32
  · simpa only [isprimeBody, fitting, wrapping, if_pos hsq, Nat.mod_eq_of_lt hsq] using hout
  · simp only [isprimeBody, fitting, if_neg hsq, error_bind] at hout
    cases hout

lemma isprime_prime {number : ℕ} (hodd : number % 2 = 1) (hn : 3 ≤ number)
    (h : isprime fitting number = .ok true) : number.Prime ∧ number ≠ 3 := by
  obtain ⟨b, hb, hiff⟩ := isprime_returns hodd hn
  rw [isprime_wrapping h] at hb
  cases hb
  obtain ⟨hp, d, -, h3, hlt, -⟩ := hiff.mp rfl
  exact ⟨hp, by omega⟩

theorem primeBody_fitting {nel : ℕ} {out : ℕ ⊕ ℕ} (h : primeBody fitting nel = .ok out) :
    nel < 2 ^ 32 ∧ ∃ b, isprime fitting nel = .ok b ∧
      out = if b then .inr nel else .inl ((nel + 2) % 2 ^ 64) := by
  by_cases hlt : nel < 2 ^ 32
  · refine ⟨hlt, ?_⟩
    simp only [primeBody, fitting, if_pos hlt, ok_bind] at h
    change (isprime fitting nel >>= _) = _ at h
    cases hb : isprime fitting nel with
    | error e =>
      rw [hb] at h
      cases h
    | ok b =>
      rw [hb, ok_bind] at h
      cases b <;> cases h <;> exact ⟨_, rfl, rfl⟩
  · simp only [primeBody, fitting, if_neg hlt, error_bind] at h
    cases h

theorem primeSearch_prime {nel p : ℕ} (h : primeSearch fitting nel = .ok p) :
    primeSearch wrapping nel = .ok p ∧ p.Prime ∧ 5 ≤ p ∧ p < 2 ^ 32 := by
  constructor
  · refine iterate_refines (fun nel out hout => ?_) h
    obtain ⟨hlt, b, hb, rfl⟩ := primeBody_fitting hout
    simp only [primeBody, wrapping, ok_bind, Nat.mod_eq_of_lt hlt]
    change (isprime wrapping nel >>= _) = _
    rw [isprime_wrapping hb, ok_bind]
    cases b <;> rfl
  · refine iterate_ok (I := fun nel => nel % 2 = 1 ∧ 3 ≤ nel)
      (Q := fun p => p.Prime ∧ 5 ≤ p ∧ p < 2 ^ 32) ?_ ?_ ⟨?_, ?_⟩ h
    · intro s s' hs hb
      obtain ⟨hlt, b, _, hout⟩ := primeBody_fitting hb
      cases b <;> cases hout
      omega
    · intro s r hs hb
      obtain ⟨hlt, b, hprime, hout⟩ := primeBody_fitting hb
      cases b <;> cases hout
      obtain ⟨hp, hne⟩ := isprime_prime hs.1 hs.2 hprime
      refine ⟨hp, ?_, hlt⟩
      omega
    · exact Nat.or_mod_two_eq_one.mpr (.inr rfl)
    · refine le_trans ?_ Nat.left_le_or
      split_ifs <;> omega

lemma hashBytes_ok (signed : Bool) (bytes : List UInt8) (hval count : ℕ)
    (hc : count ≤ bytes.length) : ∃ v, hashBytes signed bytes hval count = .ok v := by
  induction count generalizing hval with
  | zero => exact ⟨hval, rfl⟩
  | succ count ih =>
    rw [hashBytes, load_eq 0 (by omega), ok_bind]
    exact ih _ (by omega)

def hashValue (signed : Bool) (key : CString) : ℕ :=
  match hash signed key with
  | .ok v => v
  | .error _ => 1

lemma hash_eq (signed : Bool) (key : CString) :
    hash signed key = .ok (hashValue signed key) ∧ hashValue signed key ≠ 0 := by
  obtain ⟨v, hv⟩ := hashBytes_ok signed key.object (key.bytes.length % 2 ^ 32)
    (key.bytes.length % 2 ^ 32) (by rw [key.length_object]; omega)
  have hhash : hash signed key = if v = 0 then .ok 1 else .ok v := by
    unfold hash
    simp only [hv, ok_bind]
  by_cases h0 : v = 0
  · rw [if_pos h0] at hhash
    simp [hashValue, hhash]
  · simp [hashValue, hhash, h0]

def Table.slot (h : Table δ) (i : ℕ) : Slot δ := h.table.getD i ⟨0, none⟩

def Table.Holds (h : Table δ) (i : ℕ) (e : Entry δ) : Prop :=
  (h.slot i).used ≠ 0 ∧ (h.slot i).entry = some e

def place (signed : Bool) (size : ℕ) (key : CString) (t : ℕ) : ℕ :=
  probe size (1 + hashValue signed key % (size - 2)) (hashValue signed key % size + 1) t

structure Good (signed : Bool) (h : Table δ) : Prop where
  prime : h.size.Prime
  size_ge : 5 ≤ h.size
  size_lt : h.size < 2 ^ 32
  length_eq : h.table.length = h.size + 1
  zero : (h.slot 0).used = 0
  filled_eq : h.filled = h.table.countP fun slot => slot.used ≠ 0
  valid : ∀ i, (h.slot i).used ≠ 0 → ∃ e, (h.slot i).entry = some e ∧
    (h.slot i).used = hashValue signed e.key ∧ ∃ t < h.size, place signed h.size e.key t = i ∧
      ∀ u < t, (h.slot (place signed h.size e.key u)).used ≠ 0
  distinct : ∀ i j e f, h.Holds i e → h.Holds j f → e.key = f.key → i = j

section
variable (hg : Good signed h)
include hg

lemma Good.steps (key : CString) :
    (0 < 1 + hashValue signed key % (h.size - 2) ∧ 1 + hashValue signed key % (h.size - 2) < h.size) ∧
      1 ≤ hashValue signed key % h.size + 1 ∧ hashValue signed key % h.size + 1 ≤ h.size := by
  have h5 := hg.size_ge
  have h1 := Nat.mod_lt (hashValue signed key) (show h.size - 2 > 0 by omega)
  have h2 := Nat.mod_lt (hashValue signed key) (show h.size > 0 by omega)
  omega

lemma Good.place_mem (key : CString) (t : ℕ) :
    1 ≤ place signed h.size key t ∧ place signed h.size key t ≤ h.size := by
  obtain ⟨⟨h1, h2⟩, h3⟩ := hg.steps key
  exact probe_mem h1 h2 h3 t

lemma Good.place_ne (key : CString) (ht : 0 < t) (htn : t < h.size) :
    place signed h.size key t ≠ place signed h.size key 0 := by
  have : Fact h.size.Prime := ⟨hg.prime⟩
  obtain ⟨⟨h1, h2⟩, _⟩ := hg.steps key
  exact probe_ne_start h1 h2 ht htn

lemma Good.place_size (key : CString) :
    place signed h.size key h.size = place signed h.size key 0 := by
  have : Fact h.size.Prime := ⟨hg.prime⟩
  obtain ⟨⟨h1, h2⟩, h3⟩ := hg.steps key
  exact probe_eq_start h1 h2 h3

lemma Good.exists_place (key : CString) (hi : 1 ≤ i ∧ i ≤ h.size) :
    ∃ t < h.size, place signed h.size key t = i := by
  have : Fact h.size.Prime := ⟨hg.prime⟩
  obtain ⟨⟨h1, h2⟩, h3⟩ := hg.steps key
  exact exists_probe h1 h2 h3 hi

lemma Good.load_slot (hi : i ≤ h.size) : load h.table i = .ok (h.slot i) :=
  load_eq _ (by rw [hg.length_eq]; omega)

def Skips (h : Table δ) (key : CString) (i : ℕ) : Prop := ∀ e, h.Holds i e → e.key ≠ key

lemma Good.matchesKey_returns (key : CString) (i : ℕ) :
    Returns (matchesKey key (hashValue signed key) (h.slot i)) fun b =>
      if b then ∃ e, h.Holds i e ∧ e.key = key else Skips h key i := by
  have hnz := (hash_eq signed key).2
  unfold matchesKey
  split_ifs with hu
  · have hused : (h.slot i).used ≠ 0 := hu ▸ hnz
    obtain ⟨e, he, _⟩ := hg.valid i hused
    rw [he]
    refine returns_ok ?_
    by_cases hkey : key.bytes = e.key.bytes
    · simpa [hkey, decide_true] using ⟨e, ⟨hused, he⟩, CString.ext hkey.symm⟩
    simp [hkey, decide_false]
    rintro f ⟨_, hf⟩ rfl
    rw [he] at hf
    cases hf
    exact hkey rfl
  refine returns_ok ?_
  rintro e ⟨hused, he⟩ rfl
  obtain ⟨f, hf, hhash, _⟩ := hg.valid i hused
  rw [he] at hf
  cases hf
  exact hu hhash

lemma Good.absent_of_unused (hfree : (h.slot (place signed h.size key t)).used = 0)
    (hbefore : ∀ u < t, Skips h key (place signed h.size key u)) (i : ℕ) : Skips h key i := by
  rintro e ⟨hused, he⟩ rfl
  obtain ⟨f, hf, _, u, hu, rfl, hall⟩ := hg.valid i hused
  rw [he] at hf
  cases hf
  obtain hlt | rfl | hgt := Nat.lt_trichotomy u t
  · exact hbefore u hlt e ⟨hused, he⟩ rfl
  · exact hused hfree
  · exact hall t hgt hfree

lemma Good.full_of_used (hall : ∀ u < h.size, (h.slot (place signed h.size key u)).used ≠ 0) :
    h.filled = h.size := by
  have hused : ∀ i, 1 ≤ i → i ≤ h.size → (h.slot i).used ≠ 0 := by
    intro i h1 h2
    obtain ⟨t, ht, rfl⟩ := hg.exists_place key ⟨h1, h2⟩
    exact hall t ht
  have hlen := hg.length_eq
  have hzero := hg.zero
  rw [hg.filled_eq]
  unfold Table.slot at hused hzero
  cases htab : h.table with
  | nil => simp [htab] at hlen
  | cons s rest =>
    rw [htab] at hlen hused hzero
    have hs : s.used = 0 := hzero
    have hrest : rest.length = h.size := by simpa using hlen
    rw [List.countP_cons_of_neg (by simp [hs]), List.countP_eq_length.mpr ?_, hrest]
    intro a ha
    obtain ⟨i, hi, rfl⟩ := List.getElem_of_mem ha
    have := hused (i + 1) (by omega) (by omega)
    rw [List.getD_cons_succ, List.getD_eq_getElem _ _ hi] at this
    simpa using this

/-- The outcome of a search: the slot of the key, or a slot to put it in unless the table
is full. -/
def Searched (signed : Bool) (h : Table δ) (key : CString) : Probed → Prop
  | .found i => ∃ e, h.Holds i e ∧ e.key = key
  | .empty i => (∀ j, Skips h key j) ∧ (h.filled = h.size ∨ (h.slot i).used = 0 ∧
      ∃ t < h.size, place signed h.size key t = i ∧
        ∀ u < t, (h.slot (place signed h.size key u)).used ≠ 0)

lemma Good.probeBody_returns (key : CString) (m idx : ℕ)
    (hidx : ∃ t < h.size, idx = place signed h.size key t ∧ m = h.size - t ∧
      ∀ u ≤ t, (h.slot (place signed h.size key u)).used ≠ 0 ∧
        Skips h key (place signed h.size key u)) :
    Returns (probeBody h key (hashValue signed key) (1 + hashValue signed key % (h.size - 2))
      (place signed h.size key 0) idx) (Closer
        (fun m idx => ∃ t < h.size, idx = place signed h.size key t ∧ m = h.size - t ∧
          ∀ u ≤ t, (h.slot (place signed h.size key u)).used ≠ 0 ∧
            Skips h key (place signed h.size key u))
        (Searched signed h key) m) := by
  obtain ⟨t, ht, rfl, rfl, hall⟩ := hidx
  have hmem' := hg.place_mem key (t + 1)
  have hback : (if place signed h.size key t ≤ 1 + hashValue signed key % (h.size - 2) then
      (h.size + place signed h.size key t - (1 + hashValue signed key % (h.size - 2))) % 2 ^ 32
      else place signed h.size key t - (1 + hashValue signed key % (h.size - 2))) =
      place signed h.size key (t + 1) := by
    change _ = back h.size _ (place signed h.size key t)
    unfold back
    have hsize := hg.size_lt
    split_ifs
    · exact Nat.mod_eq_of_lt (by omega)
    · rfl
  rw [probeBody, hback]
  by_cases hround : place signed h.size key (t + 1) = place signed h.size key 0
  · have hlast : t + 1 = h.size := by
      by_contra hne
      exact hg.place_ne key (Nat.succ_pos t) (by omega) hround
    rw [if_pos hround]
    refine returns_ok ⟨fun j e hj hkey => ?_, .inl (hg.full_of_used fun u hu => (hall u (by omega)).1)⟩
    obtain ⟨f, hf, _, u, hu, rfl, _⟩ := hg.valid j hj.1
    rw [hj.2] at hf
    cases hf
    subst hkey
    exact (hall u (by omega)).2 e hj rfl
  have ht' : t + 1 < h.size := by
    by_contra hge
    have hlast : t + 1 = h.size := by omega
    exact hround (by rw [hlast]; exact hg.place_size key)
  rw [if_neg hround, hg.load_slot hmem'.2, ok_bind]
  refine (hg.matchesKey_returns key _).bind fun b hb => ?_
  cases b with
  | true => exact returns_ok hb
  | false =>
    have hskip : Skips h key (place signed h.size key (t + 1)) := hb
    by_cases hused : (h.slot (place signed h.size key (t + 1))).used ≠ 0
    · rw [if_pos hused]
      refine returns_ok ⟨_, ?_, t + 1, ht', rfl, rfl, fun u hu => ?_⟩
      · omega
      · obtain hlt | rfl := Nat.le_succ_iff_eq_or_le.mp hu |>.symm
        · exact hall u hlt
        · exact ⟨hused, hskip⟩
    rw [if_neg hused]
    have hfree := not_not.mp hused
    refine returns_ok ⟨hg.absent_of_unused hfree fun u hu => (hall u (by omega)).2,
      .inr ⟨hfree, t + 1, ht', rfl, fun u hu => (hall u (by omega)).1⟩⟩

lemma Good.search_returns (key : CString) :
    Returns (search h key (hashValue signed key)) (Searched signed h key) := by
  have hmem := hg.place_mem key 0
  change Returns (load h.table (place signed h.size key 0) >>= _) _
  rw [hg.load_slot hmem.2, ok_bind]
  split_ifs with hused
  · refine (hg.matchesKey_returns key _).bind fun b hb => ?_
    cases b with
    | true => exact returns_ok hb
    | false =>
      refine iterate_closer (hg.probeBody_returns key) ⟨0, by omega, rfl, rfl, fun u hu => ?_⟩ ?_
      · obtain rfl := Nat.le_zero.mp hu
        exact ⟨hused, hb⟩
      · omega
  · have hfree := not_not.mp hused
    exact returns_ok ⟨hg.absent_of_unused hfree (by simp), .inr ⟨hfree, 0, by omega, rfl, by simp⟩⟩

end

section
variable {item : Entry δ} {idx : ℕ}

def Table.insert (signed : Bool) (h : Table δ) (idx : ℕ) (item : Entry δ) : Table δ :=
  ⟨h.table.set idx ⟨hashValue signed item.key, some item⟩, h.size, h.filled + 1⟩

lemma slot_insert (hidx : idx < h.table.length) (i : ℕ) : (h.insert signed idx item).slot i =
    if idx = i then ⟨hashValue signed item.key, some item⟩ else h.slot i :=
  getD_set _ _ _ hidx

lemma holds_insert (hidx : idx < h.table.length) :
    (h.insert signed idx item).Holds i e ↔ (i = idx ∧ e = item) ∨ (i ≠ idx ∧ h.Holds i e) := by
  unfold Table.Holds
  rw [slot_insert hidx]
  by_cases hi : idx = i
  · simp [hi, (hash_eq signed item.key).2, eq_comm]
  · simp [hi, Ne.symm hi]

theorem Good.insert (hg : Good signed h) (hfree : (h.slot idx).used = 0)
    (habsent : ∀ j, Skips h item.key j) (ht : t < h.size)
    (hplace : place signed h.size item.key t = idx)
    (hbefore : ∀ u < t, (h.slot (place signed h.size item.key u)).used ≠ 0) :
    Good signed (h.insert signed idx item) := by
  have hmem := hg.place_mem item.key t
  have hidx : idx < h.table.length := by
    rw [hg.length_eq]
    omega
  have hnz := (hash_eq signed item.key).2
  have hused : ∀ i, (h.slot i).used ≠ 0 → ((h.insert signed idx item).slot i).used ≠ 0 := by
    intro i hi
    rw [slot_insert hidx]
    split_ifs
    · exact hnz
    · exact hi
  refine ⟨hg.prime, hg.size_ge, hg.size_lt, ?_, ?_, ?_, ?_, ?_⟩
  · simp [Table.insert, hg.length_eq]
  · rw [slot_insert hidx, if_neg (by omega)]
    exact hg.zero
  · have hcount := List.countP_set (p := fun slot : Slot δ => decide (slot.used ≠ 0))
      (l := h.table) (a := ⟨hashValue signed item.key, some item⟩) hidx
    have hold : (h.table[idx]).used = 0 := by
      rwa [← List.getD_eq_getElem _ ⟨0, none⟩ hidx]
    simp only [hold, ne_eq, not_true_eq_false, decide_false, Bool.false_eq_true, if_false, hnz,
      not_false_eq_true, decide_true, if_true, Nat.sub_zero] at hcount
    change h.filled + 1 = _
    rw [hg.filled_eq]
    exact hcount.symm
  · intro i hi
    by_cases hii : idx = i
    · subst hii
      rw [slot_insert hidx, if_pos rfl]
      exact ⟨item, rfl, rfl, t, ht, hplace, fun u hu => hused _ (hbefore u hu)⟩
    · rw [slot_insert hidx, if_neg hii] at hi ⊢
      obtain ⟨e, he, hh, u, hu, hpu, hall⟩ := hg.valid i hi
      exact ⟨e, he, hh, u, hu, hpu, fun v hv => hused _ (hall v hv)⟩
  · intro i j e f hi hj hkey
    rw [holds_insert hidx] at hi hj
    obtain ⟨rfl, rfl⟩ | ⟨_, hi⟩ := hi <;> obtain ⟨rfl, rfl⟩ | ⟨_, hj⟩ := hj
    · rfl
    · exact absurd hkey.symm (habsent j f hj)
    · exact absurd hkey (habsent i e hi)
    · exact hg.distinct i j e f hi hj hkey

end

section
variable {log : List (Entry δ)}

def firstEntered (log : List (Entry δ)) (key : CString) : Option (Entry δ) :=
  log.find? fun e => e.key.bytes = key.bytes

def Represents (h : Table δ) (log : List (Entry δ)) : Prop :=
  ∀ key e, firstEntered log key = some e ↔ e.key = key ∧ ∃ i, h.Holds i e

def Answers (signed : Bool) (h : Table δ) (log : List (Entry δ)) (action : Action)
    (item : Entry δ) (out : Table δ × Status) : Prop :=
  match firstEntered log item.key with
  | some e => out.1 = h ∧ ∃ idx, out.2 = .entry idx ∧ h.Holds idx e
  | none =>
    match action with
    | .find => out = (h, .esrch)
    | .enter =>
      if h.filled = h.size then out = (h, .enomem)
      else ∃ idx, (h.slot idx).used = 0 ∧ out = (h.insert signed idx item, .entry idx) ∧
        (h.insert signed idx item).Holds idx item

lemma Good.filled_le (hg : Good signed h) : h.filled ≤ h.size := by
  have hlen := hg.length_eq
  have hzero := hg.zero
  rw [hg.filled_eq]
  unfold Table.slot at hzero
  cases htab : h.table with
  | nil => simp
  | cons s rest =>
    rw [htab] at hlen hzero
    have hs : s.used = 0 := hzero
    have hrest : rest.length = h.size := by simpa using hlen
    rw [List.countP_cons_of_neg (by simp [hs]), ← hrest]
    exact List.countP_le_length

lemma Represents.none_iff (hr : Represents h log) (key : CString) :
    firstEntered log key = none ↔ ∀ i, Skips h key i := by
  constructor
  · intro hnone i e hi hkey
    have := (hr key e).mpr ⟨hkey, i, hi⟩
    rw [hnone] at this
    cases this
  · intro hskip
    cases hf : firstEntered log key with
    | none => rfl
    | some e =>
      obtain ⟨hkey, i, hi⟩ := (hr key e).mp hf
      exact absurd hkey (hskip i e hi)

lemma Represents.again (hr : Represents h log) {item : Entry δ}
    (he : firstEntered log item.key = some e) : Represents h (log ++ [item]) := by
  intro key f
  rw [← hr key f]
  unfold firstEntered at he ⊢
  rw [List.find?_append]
  cases hk : log.find? (fun e => decide (e.key.bytes = key.bytes)) with
  | some g => simp
  | none =>
    have hne : item.key.bytes ≠ key.bytes := by
      intro heq
      rw [heq, hk] at he
      cases he
    simp [hne]

lemma Represents.insert (hr : Represents h log) {item : Entry δ} {idx : ℕ}
    (hidx : idx < h.table.length) (hfree : (h.slot idx).used = 0)
    (habsent : ∀ j, Skips h item.key j) :
    Represents (h.insert signed idx item) (log ++ [item]) := by
  intro key f
  have hnone := (hr.none_iff item.key).mpr habsent
  have hold := hr key f
  have hmem : (∃ i, (h.insert signed idx item).Holds i f) ↔ f = item ∨ ∃ i, h.Holds i f := by
    simp only [holds_insert hidx]
    constructor
    · rintro ⟨i, ⟨_, rfl⟩ | ⟨_, hi⟩⟩
      · exact .inl rfl
      · exact .inr ⟨i, hi⟩
    · rintro (rfl | ⟨i, hi⟩)
      · exact ⟨idx, .inl ⟨rfl, rfl⟩⟩
      · refine ⟨i, .inr ⟨?_, hi⟩⟩
        rintro rfl
        exact hi.1 hfree
  rw [hmem]
  unfold firstEntered at hnone hold ⊢
  rw [List.find?_append]
  cases hk : log.find? (fun e => decide (e.key.bytes = key.bytes)) with
  | some g =>
    rw [hk] at hold
    simp only [Option.some_or]
    rw [hold]
    have hne : item.key ≠ key := by
      rintro rfl
      rw [hk] at hnone
      cases hnone
    constructor
    · rintro ⟨h1, h2⟩
      exact ⟨h1, .inr h2⟩
    · rintro ⟨h1, rfl | h2⟩
      · exact absurd h1 hne
      · exact ⟨h1, h2⟩
  | none =>
    rw [hk] at hold
    have hold' : ¬(f.key = key ∧ ∃ i, h.Holds i f) := fun hc => by
      have := hold.mpr hc
      cases this
    by_cases hkey : item.key.bytes = key.bytes
    · simp [hkey, decide_true]
      constructor
      · rintro rfl
        exact ⟨CString.ext hkey, .inl rfl⟩
      · rintro ⟨h1, rfl | h2⟩
        · rfl
        · exact absurd ⟨h1, h2⟩ hold'
    simp only [Option.none_or, List.find?_cons, hkey, decide_false, List.find?_nil, reduceCtorEq,
      false_iff]
    rintro ⟨rfl, rfl | h2⟩
    · exact hkey rfl
    · exact hold' ⟨rfl, h2⟩

def logged (log : List (Entry δ)) (action : Action) (item : Entry δ) (status : Status) :
    List (Entry δ) :=
  if action = .enter ∧ status ≠ .enomem then log ++ [item] else log

lemma hsearchR_returns (hg : Good signed h) (hr : Represents h log) (action : Action)
    (item : Entry δ) : Returns (hsearchR signed item action h) fun out =>
      Answers signed h log action item out ∧ Good signed out.1 ∧
        Represents out.1 (logged log action item out.2) := by
  rw [hsearchR, (hash_eq signed item.key).1, ok_bind]
  refine (hg.search_returns item.key).bind ?_
  rintro (i | i) hs
  · obtain ⟨e, hi, hkey⟩ := hs
    have hfirst : firstEntered log item.key = some e := (hr _ _).mpr ⟨hkey, i, hi⟩
    refine returns_ok ⟨?_, hg, ?_⟩
    · simp only [Answers, hfirst]
      exact ⟨trivial, i, rfl, hi⟩
    · unfold logged
      split_ifs
      · exact hr.again hfirst
      · exact hr
  · obtain ⟨habsent, hroom⟩ := hs
    have hfirst : firstEntered log item.key = none := (hr.none_iff _).mpr habsent
    cases action with
    | find =>
      refine returns_ok ⟨?_, hg, ?_⟩
      · simp only [Answers, hfirst]
      · simpa [logged] using hr
    | enter =>
      dsimp only
      by_cases hfull : h.filled = h.size
      · rw [if_pos hfull]
        refine returns_ok ⟨?_, hg, ?_⟩
        · simp [Answers, hfirst, hfull]
        · simpa [logged] using hr
      obtain ⟨hfree, t, ht, hplace, hbefore⟩ := hroom.resolve_left hfull
      have hidx : i < h.table.length := by
        have := (hg.place_mem item.key t).2
        rw [hg.length_eq]
        omega
      have hmod : (h.filled + 1) % 2 ^ 32 = h.filled + 1 := by
        have h1 := hg.filled_le
        have h2 := hg.size_lt
        exact Nat.mod_eq_of_lt (by omega)
      rw [if_neg hfull, store_eq hidx, ok_bind, hmod]
      refine returns_ok ⟨?_, hg.insert hfree habsent ht hplace hbefore, ?_⟩
      · simp only [Answers, hfirst, if_neg hfull]
        exact ⟨i, hfree, rfl, (holds_insert hidx).mpr (.inl ⟨rfl, rfl⟩)⟩
      · exact hr.insert hidx hfree habsent

end

structure Request where
  nel : ℕ
  fits : Returns (primeSearch fitting nel) fun _ => True

def perform (signed : Bool) (s : Table δ × List (Entry δ)) (c : Action × Entry δ) :
    Run (Table δ × List (Entry δ)) := do
  let out ← hsearchR signed c.2 c.1 s.1
  .ok (out.1, logged s.2 c.1 c.2 out.2)

lemma good_create {p : ℕ} (hp : p.Prime) (h5 : 5 ≤ p) (hlt : p < 2 ^ 32) :
    Good signed (⟨List.replicate (p + 1) ⟨0, none⟩, p, 0⟩ : Table δ) ∧
      Represents (⟨List.replicate (p + 1) ⟨0, none⟩, p, 0⟩ : Table δ) [] := by
  have hslot : ∀ i, (Table.mk (List.replicate (p + 1) ⟨0, none⟩) p 0 : Table δ).slot i =
      ⟨0, none⟩ := by
    intro i
    simp only [Table.slot, List.getD, List.getElem?_replicate]
    split_ifs <;> rfl
  constructor
  · refine ⟨hp, h5, hlt, by simp, by rw [hslot], by simp [List.countP_replicate], fun i hi => ?_,
      fun i j e f hi => ?_⟩
    · rw [hslot] at hi
      exact absurd rfl hi
    · rw [Table.Holds, hslot] at hi
      exact absurd rfl hi.1
  · intro key e
    simp [firstEntered, Table.Holds, hslot]

/-- After any calls the number of used slots is right and every further call is answered
as by the finite map of the entries that were entered first. -/
theorem hsearchR_finite_map (δ : Type) (signed : Bool) (request : Request)
    (calls : List (Action × Entry δ)) :
    Returns (hcreateR wrapping δ request.nel false true) fun created => ∃ h₀, created = some h₀ ∧
      Returns (calls.foldlM (perform signed) (h₀, [])) fun s =>
        (s.1.filled = s.1.table.countP fun slot => slot.used ≠ 0) ∧
        ∀ action item, Returns (hsearchR signed item action s.1)
          (Answers signed s.1 s.2 action item) := by
  obtain ⟨p, hp, _⟩ := request.fits
  obtain ⟨hwrap, hprime, h5, hlt⟩ := primeSearch_prime hp
  have hmax : p ≠ 2 ^ 32 - 1 := by
    rintro rfl
    norm_num at hprime
  have hrun : ∀ (calls : List (Action × Entry δ)) (s : Table δ × List (Entry δ)),
      Good signed s.1 ∧ Represents s.1 s.2 →
      Returns (calls.foldlM (perform signed) s) fun s => Good signed s.1 ∧ Represents s.1 s.2 := by
    intro calls
    induction calls with
    | nil => exact fun s h => returns_pure h
    | cons c calls ih =>
      intro s h
      refine Returns.bind ((hsearchR_returns h.1 h.2 c.1 c.2).bind fun out hout => ?_) ih
      exact returns_ok hout.2
  rw [hcreateR, hwrap]
  simp only [Bool.false_eq_true, if_false, ok_bind, if_true, Nat.mod_eq_of_lt hlt,
    Nat.mod_eq_of_lt (show p + 1 < 2 ^ 32 by omega)]
  refine returns_ok ⟨_, rfl, (hrun calls _ (good_create hprime h5 hlt)).mono ?_⟩
  rintro s ⟨hg, hr⟩
  exact ⟨hg.filled_eq, fun action item => (hsearchR_returns hg hr action item).mono
    fun _ h => h.1⟩

end Eglibc.Hsearch
