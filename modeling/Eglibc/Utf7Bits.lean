import Eglibc.Endian
import Eglibc.Utf7

/-!
# The accumulators of UTF-7

The decoder holds the first bits of a character from the highest bit of `__wch` down; the
encoder holds the last bits of one in `__count`. No reachable state fails an assertion.
-/
namespace Eglibc.Utf7
open Checked Gconv Endian

def holding (n acc : ℕ) : State := ⟨(32 - n) <<< 3, acc <<< (32 - n)⟩

section
variable {n acc i : ℕ}

lemma shift_holding (n acc : ℕ) : (holding n acc).count >>> 3 = 32 - n :=
  Nat.shiftLeft_shiftRight _ _

lemma gathered (hn : n < 26) (hi : i < 64) :
    acc <<< (32 - n) ||| i <<< (32 - n - 6) % 2 ^ 32 = (acc * 64 + i) * 2 ^ (26 - n) := by
  have hsmall : i <<< (26 - n) < 2 ^ 32 :=
    (Nat.shiftLeft_lt (n := 6) hi).trans_le (Nat.pow_le_pow_right (by decide) (by omega))
  rw [show 32 - n - 6 = 26 - n by omega, Nat.mod_eq_of_lt hsmall,
    show 32 - n = 6 + (26 - n) by omega, Nat.shiftLeft_add, ← Nat.shiftLeft_or_distrib,
    ← Nat.shiftLeft_add_eq_or_of_lt (show i < 2 ^ 6 from hi), Nat.shiftLeft_eq, Nat.shiftLeft_eq]

lemma active_gather (hn : n < 26) (hi : i < 64) : active (holding n acc) i =
      .ok (gather (holding n acc) (26 - n) ((acc * 64 + i) * 2 ^ (26 - n))) := by
  rw [active, shift_holding]
  rw [if_pos (by omega), show (holding n acc).wch = acc <<< (32 - n) from rfl, gathered hn hi,
    show 32 - n - 6 = 26 - n by omega]

lemma active_pairUp (hn : 26 ≤ n) : active (holding n acc) i = pairUp (holding n acc) (32 - n) i := by
  rw [active, shift_holding]
  rw [if_neg (by omega)]

lemma active_more (hn : n < 10 ∨ 22 ≤ n ∧ n < 26) (hi : i < 64) :
    active (holding n acc) i = .ok (.emit 1 [] (holding (n + 6) (acc * 64 + i))) := by
  rw [active_gather (by omega) hi, gather, if_neg (by omega), if_neg (by omega), holding,
    show 32 - (n + 6) = 26 - n by omega, Nat.shiftLeft_eq (acc * 64 + i)]

lemma active_unit (hlow : 10 ≤ n) (hn : n < 16) (hacc : acc < 2 ^ n) (hi : i < 64)
    (hunit : ¬(0xd800 ≤ (acc * 64 + i) / 2 ^ (n - 10) ∧ (acc * 64 + i) / 2 ^ (n - 10) < 0xdc00)) :
    active (holding n acc) i = .ok (.emit 1 [UInt32.ofNat ((acc * 64 + i) / 2 ^ (n - 10))]
      (holding (n - 10) ((acc * 64 + i) % 2 ^ (n - 10)))) := by
  have hwc1 : ((acc * 64 + i) * 2 ^ (26 - n)) >>> 16 = (acc * 64 + i) / 2 ^ (n - 10) := by
    interval_cases n <;> omega
  have hwch : ((acc * 64 + i) * 2 ^ (26 - n)) <<< 16 % 2 ^ 32 =
      (acc * 64 + i) % 2 ^ (n - 10) * 2 ^ (42 - n) := by
    interval_cases n <;> omega
  rw [active_gather (by omega) hi, gather, if_pos (by omega)]
  rw [hwc1, hwch, if_pos hunit, holding, show 32 - (n - 10) = 42 - n by omega,
    show 26 - n + 16 = 42 - n by omega, Nat.shiftLeft_eq (_ % _)]

lemma active_high (hlow : 10 ≤ n) (hn : n < 16) (hi : i < 64)
    (hunit : 0xd800 ≤ (acc * 64 + i) / 2 ^ (n - 10) ∧ (acc * 64 + i) / 2 ^ (n - 10) < 0xdc00) :
    active (holding n acc) i = .ok (.emit 1 [] (holding (n + 6) (acc * 64 + i))) := by
  have hwc1 : ((acc * 64 + i) * 2 ^ (26 - n)) >>> 16 = (acc * 64 + i) / 2 ^ (n - 10) := by
    interval_cases n <;> omega
  rw [active_gather (by omega) hi, gather, if_pos (by omega)]
  rw [hwc1, if_neg (not_not.mpr hunit), holding, show 32 - (n + 6) = 26 - n by omega,
    Nat.shiftLeft_eq (acc * 64 + i)]

def second (n acc : ℕ) : ℕ := acc % 2 ^ (n - 16) * 2 ^ (32 - n)

theorem active_second (hlow : 16 ≤ n) (hn : n < 22) (hi : i < 64) : active (holding n acc) i =
      if 0xdc00 ≤ second (n + 6) (acc * 64 + i) ∧ second (n + 6) (acc * 64 + i) < 0xe000 then
        .ok (.emit 1 [] (holding (n + 6) (acc * 64 + i)))
      else .ok (.illegal 1 { holding n acc with count := 0 }) := by
  have hwc2 : (acc * 64 + i) * 2 ^ (26 - n) &&& 0xffff = second (n + 6) (acc * 64 + i) := by
    rw [show (0xffff : ℕ) = 2 ^ 16 - 1 from rfl, Nat.and_two_pow_sub_one_eq_mod, second]
    interval_cases n <;> omega
  rw [active_gather (by omega) hi, gather, if_neg (by omega), if_pos (by omega)]
  rw [hwc2]
  split_ifs with htest
  · rw [if_neg (not_not.mpr htest), holding, show 32 - (n + 6) = 26 - n by omega,
      Nat.shiftLeft_eq (acc * 64 + i)]
  · rw [if_pos htest]

lemma active_pair (hlow : 26 ≤ n) (hn : n < 32) (hi : i < 64)
    (hfirst : 0xd800 ≤ acc / 2 ^ (n - 16) ∧ acc / 2 ^ (n - 16) < 0xdc00)
    (hsecond : 0xdc00 ≤ second n acc ∧ second n acc < 0xe000) :
    active (holding n acc) i = .ok (.emit 1
      [UInt32.ofNat (0x10000 + (acc / 2 ^ (n - 16) - 0xd800) * 1024 +
        (second n acc + i / 2 ^ (n - 26) - 0xdc00))]
      (holding (n - 26) (i % 2 ^ (n - 26)))) := by
  have hwc1 : acc <<< (32 - n) >>> 16 = acc / 2 ^ (n - 16) := by
    interval_cases n <;> omega
  have hhigh : i / 2 ^ (n - 26) < 2 ^ (32 - n) := by
    interval_cases n <;> omega
  have hwc2 : acc <<< (32 - n) &&& 0xffff ||| i >>> (6 - (32 - n)) =
      second n acc + i / 2 ^ (n - 26) := by
    have hlow16 : acc <<< (32 - n) &&& 0xffff = second n acc := by
      rw [show (0xffff : ℕ) = 2 ^ 16 - 1 from rfl, Nat.and_two_pow_sub_one_eq_mod,
        Nat.shiftLeft_eq, second]
      interval_cases n <;> omega
    rw [hlow16, Nat.shiftRight_eq_div_pow, show 6 - (32 - n) = n - 26 by omega, second,
      or_low hhigh]
  have hwch : i <<< (32 - n) <<< 26 % 2 ^ 32 = i % 2 ^ (n - 26) * 2 ^ (58 - n) := by
    interval_cases n <;> omega
  have hwide : second n acc + i / 2 ^ (n - 26) < 0xe000 := by
    unfold second at hsecond ⊢
    interval_cases n <;> omega
  rw [active_pairUp hlow, pairUp, show (holding n acc).wch = acc <<< (32 - n) from rfl, hwc1,
    hwc2, hwch, ensure, if_pos hfirst, ok_bind, ensure,
    if_pos ⟨le_trans hsecond.1 (Nat.le_add_right _ _), hwide⟩, ok_bind, Nat.shiftLeft_eq _ 10,
    holding, show 32 - (n - 26) = 58 - n by omega, show 32 - n + 26 = 58 - n by omega, Nat.shiftLeft_eq (_ % _)]

/-- The states a decoder can be in: outside base64, or inside with some bits of a
character, which are the beginning of a surrogate pair if they are more than a unit. -/
def Sane (s : State) : Prop :=
  s.count = 0 ∨ ∃ n acc, n < 32 ∧ acc < 2 ^ n ∧ s = holding n acc ∧
    (16 ≤ n → 0xd800 ≤ acc / 2 ^ (n - 16) ∧ acc / 2 ^ (n - 16) < 0xdc00) ∧
    (22 ≤ n → 0xdc00 ≤ second n acc ∧ second n acc < 0xe000)

lemma base64Value_lt (h : base64Value ch = some i) : i < 64 := by
  unfold base64Value at h
  split_ifs at h
  all_goals
    cases h
    try omega

lemma active_sane (hs : Sane s) (hcount : s.count ≠ 0) (hi : i < 64) :
    Returns (active s i) (Kept fromUtf7 Sane 4) := by
  obtain h0 | ⟨n, acc, hn, hacc, rfl, hfirst, hsecond⟩ := hs
  · exact absurd h0 hcount
  have hgrow : acc * 64 + i < 2 ^ (n + 6) := by
    rw [Nat.pow_add]
    omega
  have hone : fromUtf7.unit * 1 ≤ 4 := le_rfl
  by_cases h10 : n < 10
  · rw [active_more (.inl h10) hi]
    exact returns_ok ⟨Nat.zero_le _, .inr ⟨n + 6, _, by omega, hgrow, rfl, by omega, by omega⟩⟩
  by_cases h16 : n < 16
  · by_cases hunit : 0xd800 ≤ (acc * 64 + i) / 2 ^ (n - 10) ∧
        (acc * 64 + i) / 2 ^ (n - 10) < 0xdc00
    · rw [active_high (by omega) h16 hi hunit]
      refine returns_ok ⟨Nat.zero_le _, .inr ⟨n + 6, _, by omega, hgrow, rfl, fun _ => ?_, ?_⟩⟩
      · rwa [show n + 6 - 16 = n - 10 by omega]
      · omega
    · rw [active_unit (by omega) h16 hacc hi hunit]
      exact returns_ok ⟨hone, .inr ⟨n - 10, _, by omega, Nat.mod_lt _ (Nat.two_pow_pos _), rfl,
        by omega, by omega⟩⟩
  have hfirst := hfirst (by omega)
  by_cases h26 : n < 26
  · have hfirst' : 0xd800 ≤ (acc * 64 + i) / 2 ^ (n + 6 - 16) ∧
        (acc * 64 + i) / 2 ^ (n + 6 - 16) < 0xdc00 := by
      interval_cases n <;> omega
    by_cases h22 : n < 22
    · rw [active_second (by omega) h22 hi]
      split_ifs with htest
      · exact returns_ok ⟨Nat.zero_le _, .inr ⟨n + 6, _, by omega, hgrow, rfl,
          fun _ => hfirst', fun _ => htest⟩⟩
      · exact returns_ok (.inl rfl)
    rw [active_more (by omega) hi]
    have htest := hsecond (by omega)
    refine returns_ok ⟨Nat.zero_le _, .inr ⟨n + 6, _, by omega, hgrow, rfl,
      fun _ => hfirst', fun _ => ?_⟩⟩
    unfold second at htest ⊢
    interval_cases n <;> omega
  · rw [active_pair (by omega) hn hi hfirst (hsecond (by omega))]
    exact returns_ok ⟨hone, .inr ⟨n - 26, _, by omega, Nat.mod_lt _ (Nat.two_pow_pos _), rfl,
      by omega, by omega⟩⟩

theorem fromUtf7_keeps (hs : Sane s) (hroom : fromUtf7.minOutput ≤ room) :
    Returns (fromUtf7.body s input room) (Kept fromUtf7 Sane room) := by
  have hone : fromUtf7.unit * 1 ≤ room := hroom
  cases input with
  | nil => exact returns_ok trivial
  | cons b rest =>
    show Returns (fromUtf7Body s (b :: rest)) _
    unfold fromUtf7Body
    dsimp only
    split_ifs with hcount
    · refine returns_ok ?_
      unfold inactive
      split_ifs
      · exact ⟨hone, hs⟩
      · cases rest with
        | nil => trivial
        | cons next rest =>
          dsimp only
          split_ifs
          · exact ⟨hone, hs⟩
          · exact ⟨Nat.zero_le _, .inr ⟨0, 0, by decide, by decide, rfl, by decide, by decide⟩⟩
      · exact hs
    cases hvalue : base64Value b.toNat with
    | none =>
      refine returns_ok ?_
      unfold terminate
      split_ifs
      · exact .inl rfl
      · exact ⟨Nat.zero_le _, .inl rfl⟩
      · exact ⟨Nat.zero_le _, .inl rfl⟩
    | some i =>
      have hne : s.count ≠ 0 := by
        intro h0
        rw [h0] at hcount
        exact hcount rfl
      apply (active_sane hs hne (base64Value_lt hvalue)).mono
      intro turn hturn
      cases turn with
      | emit taken out s' => exact ⟨le_trans hturn.1 hroom, hturn.2⟩
      | illegal taken s' => exact hturn
      | stop result => trivial

end

/-- Bits from the highest of `r` bits of `v` down, six at a time. -/
def digits (v r : ℕ) : List ℕ := if r < 6 then [] else v / 2 ^ (r - 6) % 64 :: digits v (r - 6)

lemma digits_succ (v r : ℕ) : digits v (r + 6) = v / 2 ^ r % 64 :: digits v r := by
  rw [digits, if_neg (by omega), Nat.add_sub_cancel]

lemma digits_short (h : r < 6) : digits v r = [] := by
  rw [digits, if_pos h]

def Spells : List UInt8 → List ℕ → Prop := List.Forall₂ fun b i => base64Value b.toNat = some i

def pendingState (k x : ℕ) : ℕ :=
  if k = 0 then 1 <<< 3 else if k = 2 then x <<< 7 ||| 2 <<< 3 else x <<< 5 ||| 3 <<< 3

def Pending (k x : ℕ) : Prop := (k = 0 ∨ k = 2 ∨ k = 4) ∧ x < 2 ^ k

def Word (ch m v : ℕ) : Prop :=
  ch < 0x10000 ∧ m = 16 ∧ v = ch ∨ 0x10000 ≤ ch ∧ ch < 0x110000 ∧ m = 32 ∧ v = surrogates ch

section
variable {k x ch m v : ℕ}

lemma base64_returns (h : i < 64) : Returns (base64 i) fun b => base64Value b.toNat = some i := by
  interval_cases i <;> exact ⟨_, rfl, rfl⟩

lemma base64s_returns (h : ∀ i ∈ is, i < 64) : Returns (base64s is) fun bs => Spells bs is := by
  induction is with
  | nil => exact returns_ok .nil
  | cons i is ih =>
    apply (base64_returns (h i (by simp))).bind
    intro b hb
    apply (ih fun j hj => h j (by simp [hj])).bind
    intro bs hbs
    exact returns_ok (.cons hb hbs)

lemma digits_lt (v r : ℕ) : ∀ i ∈ digits v r, i < 64 := by
  induction r using Nat.strong_induction_on with
  | _ r ih =>
    by_cases hr : r < 6
    · simp [digits_short hr]
    obtain ⟨r, rfl⟩ := Nat.exists_eq_add_of_le' (Nat.le_of_not_lt hr)
    rw [digits_succ]
    intro i hi
    rcases List.mem_cons.mp hi with rfl | hi
    · exact Nat.mod_lt _ (by decide)
    · exact ih r (by omega) i hi

lemma length_digits (v r : ℕ) : (digits v r).length = r / 6 := by
  induction r using Nat.strong_induction_on with
  | _ r ih =>
    by_cases hr : r < 6
    · simp [digits_short hr]
      omega
    · obtain ⟨r, rfl⟩ := Nat.exists_eq_add_of_le' (Nat.le_of_not_lt hr)
      simp [digits_succ, ih r (by omega)]

lemma pendingState_reads (h : Pending k x) :
    pendingState k x &&& 0x18 ≠ 0 ∧ (0x10 ≤ pendingState k x &&& 0x18 ↔ k ≠ 0) ∧
      (0x18 ≤ pendingState k x &&& 0x18 ↔ k = 4) ∧ pendingState k x >>> 3 &&& 3 = k / 2 + 1 ∧
      (k ≠ 0 → pending (pendingState k x) = x * 2 ^ (6 - k)) := by
  obtain ⟨rfl | rfl | rfl, hx⟩ := h
  · interval_cases x
    decide
  · interval_cases x <;> decide
  · interval_cases x <;> decide

lemma surrogates_eq (ch : ℕ) :
    surrogates ch = (0xd800 + (ch - 0x10000) / 1024) * 65536 + (0xdc00 + (ch - 0x10000) % 1024) := by
  have hand : ch - 0x10000 &&& 0x3ff = (ch - 0x10000) % 1024 :=
    Nat.and_two_pow_sub_one_eq_mod _ 10
  have hlt : 0xdc00 + (ch - 0x10000) % 1024 < 2 ^ 16 := by omega
  rw [surrogates, hand, Nat.shiftRight_eq_div_pow, ← Nat.shiftLeft_add_eq_or_of_lt hlt,
    Nat.shiftLeft_eq]

lemma Word.lt (h : Word ch m v) : v < 2 ^ m := by
  rcases h with ⟨hch, rfl, rfl⟩ | ⟨hlow, hch, rfl, rfl⟩
  · exact hch
  · rw [surrogates_eq]
    omega

lemma and_63 (v : ℕ) : v &&& 0x3f = v % 64 := Nat.and_two_pow_sub_one_eq_mod v 6

lemma pendingState_four (v : ℕ) : (v &&& 15) <<< 5 ||| 3 <<< 3 = pendingState 4 (v % 2 ^ 4) := by
  rw [show v &&& 15 = v % 2 ^ 4 from Nat.and_two_pow_sub_one_eq_mod v 4]
  rfl

lemma pendingState_two (v : ℕ) : (v &&& 3) <<< 7 ||| 2 <<< 3 = pendingState 2 (v % 2 ^ 2) := by
  rw [show v &&& 3 = v % 2 ^ 2 from Nat.and_two_pow_sub_one_eq_mod v 2]
  rfl

def Writes (k x m v : ℕ) (out : Run (List UInt8 × ℕ)) : Prop :=
  Returns out fun r => Spells r.1 (digits (x * 2 ^ m + v) (k + m)) ∧
    r.2 = pendingState ((k + m) % 6) (v % 2 ^ ((k + m) % 6))

lemma Writes.intro (hds : ds = digits (x * 2 ^ m + v) (k + m))
    (hcount : count = pendingState ((k + m) % 6) (v % 2 ^ ((k + m) % 6))) :
    Writes k x m v (base64s ds >>= fun bs => .ok (bs, count)) := by
  subst hds
  apply (base64s_returns (digits_lt _ _)).bind
  intro bs hbs
  exact returns_ok ⟨hbs, hcount⟩

lemma digits_unit (hv : v < 2 ^ 16) : [v >>> 10, v >>> 4 &&& 0x3f] = digits v 16 := by
  simp [digits, Nat.shiftRight_eq_div_pow, and_63]
  omega

lemma digits_pair (hv : v < 2 ^ 32) : [v >>> 26, v >>> 20 &&& 0x3f, v >>> 14 &&& 0x3f,
    v >>> 8 &&& 0x3f, v >>> 2 &&& 0x3f] = digits v 32 := by
  simp [digits, Nat.shiftRight_eq_div_pow, and_63]
  omega

section
variable (h : Pending k x)
include h

lemma addUnit_writes (hv : v < 2 ^ 16) : Writes k x 16 v (addUnit (pendingState k x) v) := by
  obtain ⟨-, -, -, hcase, hpending⟩ := pendingState_reads h
  obtain ⟨rfl | rfl | rfl, hx⟩ := h
  · obtain rfl : x = 0 := by omega
    refine Writes.intro ?_ (pendingState_four v)
    simp [digits_unit hv]
  · rw [addUnit, hcase, hpending (by decide), Nat.shiftRight_eq_div_pow v 12,
      or_low (show v / 2 ^ 12 < 2 ^ (6 - 2) by omega)]
    refine Writes.intro ?_ rfl
    simp [digits, Nat.shiftRight_eq_div_pow, and_63]
    omega
  · rw [addUnit, hcase, hpending (by decide), Nat.shiftRight_eq_div_pow v 14,
      or_low (show v / 2 ^ 14 < 2 ^ (6 - 4) by omega)]
    refine Writes.intro ?_ (pendingState_two v)
    simp [digits, Nat.shiftRight_eq_div_pow, and_63]
    omega

lemma addPair_writes (hv : v < 2 ^ 32) : Writes k x 32 v (addPair (pendingState k x) v) := by
  obtain ⟨-, -, -, hcase, hpending⟩ := pendingState_reads h
  obtain ⟨rfl | rfl | rfl, hx⟩ := h
  · obtain rfl : x = 0 := by omega
    refine Writes.intro ?_ (pendingState_two v)
    simp [digits_pair hv]
  · rw [addPair, hcase, hpending (by decide), Nat.shiftRight_eq_div_pow v 28,
      or_low (show v / 2 ^ 28 < 2 ^ (6 - 2) by omega)]
    refine Writes.intro ?_ (pendingState_four v)
    simp [digits, Nat.shiftRight_eq_div_pow, and_63]
    omega
  · rw [addPair, hcase, hpending (by decide), Nat.shiftRight_eq_div_pow v 30,
      or_low (show v / 2 ^ 30 < 2 ^ (6 - 4) by omega)]
    refine Writes.intro ?_ rfl
    simp [digits, Nat.shiftRight_eq_div_pow, and_63]
    omega

omit h in
lemma Word.m_even (h : Word ch m v) : m = 16 ∨ m = 32 := by
  rcases h with ⟨-, hm, -⟩ | ⟨-, -, hm, -⟩
  · exact .inl hm
  · exact .inr hm

lemma Pending.next (hm : m = 16 ∨ m = 32) (v : ℕ) :
    Pending ((k + m) % 6) (v % 2 ^ ((k + m) % 6)) := by
  refine ⟨?_, Nat.mod_lt _ (Nat.two_pow_pos _)⟩
  obtain ⟨hk, -⟩ := h
  omega

theorem addChar_writes (hw : Word ch m v) : activeCount (pendingState k x) ch = some ((k + m) / 6) ∧
      Writes k x m v (addChar (pendingState k x) ch) := by
  obtain ⟨-, htwo, hfour, -, -⟩ := pendingState_reads h
  have hlt := hw.lt
  unfold activeCount addChar
  simp only [htwo, hfour]
  rcases hw with ⟨hch, rfl, rfl⟩ | ⟨hlow, hch, rfl, rfl⟩
  · rw [if_pos hch, if_pos hch]
    refine ⟨?_, addUnit_writes h hlt⟩
    obtain ⟨rfl | rfl | rfl, -⟩ := h <;> rfl
  have hwide : ¬ch < 0x10000 := by omega
  rw [if_neg hwide, if_neg hwide, if_pos hch, if_pos hch]
  refine ⟨?_, addPair_writes h hlt⟩
  obtain ⟨rfl | rfl | rfl, -⟩ := h <;> rfl

omit h in
lemma activate_writes (hplus : ch ≠ 0x2b) (hw : Word ch m v) :
    inactiveCount ch = some (m / 6 + 1) ∧ Returns (activate 0 ch) fun r => ∃ bs,
      r.1 = 0x2b :: bs ∧ Spells bs (digits v m) ∧ r.2 = pendingState (m % 6) (v % 2 ^ (m % 6)) := by
  have hdigits {ds : List ℕ} {count : ℕ} (hds : ds = digits v m)
      (hcount : count = pendingState (m % 6) (v % 2 ^ (m % 6))) :
      Returns (base64s ds >>= fun bs => .ok (0x2b :: bs, count)) fun r => ∃ bs,
        r.1 = 0x2b :: bs ∧ Spells bs (digits v m) ∧
          r.2 = pendingState (m % 6) (v % 2 ^ (m % 6)) := by
    subst hds
    apply (base64s_returns (digits_lt v m)).bind
    intro bs hbs
    exact returns_ok ⟨bs, rfl, hbs, hcount⟩
  have hlt := hw.lt
  unfold inactiveCount activate
  rw [if_neg hplus, if_neg hplus]
  rcases hw with ⟨hch, rfl, rfl⟩ | ⟨hlow, hch, rfl, rfl⟩
  · rw [if_pos hch, if_pos hch]
    exact ⟨rfl, hdigits (digits_unit hlt) (pendingState_four v)⟩
  · have hwide : ¬ch < 0x10000 := by omega
    rw [if_neg hwide, if_neg hwide, if_pos hch, if_pos hch]
    exact ⟨rfl, hdigits (digits_pair hlt) (pendingState_two _)⟩

lemma flushBits_returns : Returns (flushBits (pendingState k x)) fun bs =>
      Spells bs (if k = 0 then [] else [x * 2 ^ (6 - k)]) := by
  obtain ⟨-, htwo, -, -, hpending⟩ := pendingState_reads h
  unfold flushBits
  by_cases hk : k = 0
  · rw [if_neg (by rw [htwo]; exact not_not.mpr hk), if_pos hk]
    exact returns_ok .nil
  rw [if_pos (htwo.mpr hk), if_neg hk, hpending hk]
  apply base64s_returns
  intro i hi
  rw [List.mem_singleton.mp hi]
  obtain ⟨rfl | rfl | rfl, hx⟩ := h <;> omega

def Counted (count : ℕ) : Prop := count = 0 ∨ ∃ k x, Pending k x ∧ count = pendingState k x

omit h in
lemma exists_word (h : ch < 0x110000) : ∃ m v, Word ch m v := by
  by_cases hch : ch < 0x10000
  · exact ⟨16, ch, .inl ⟨hch, rfl, rfl⟩⟩
  · exact ⟨32, surrogates ch, .inr ⟨by omega, h, rfl, rfl⟩⟩

def asked (count ch : ℕ) : Option ℕ :=
  if count &&& 0x18 = 0 then if isdirect ch then some 1 else inactiveCount ch
  else if isdirect ch then some (deactivateCount count ch)
  else activeCount count ch

def Exact (n : Option ℕ) (room : ℕ) : Turn ℕ UInt8 → Prop
  | .emit _ out count => n = some out.length ∧ out.length ≤ room ∧ Counted count
  | .illegal _ count => Counted count
  | .stop _ => True

omit h in
lemma storeOut_exact (hout : Returns out fun r => r.1.length = n ∧ Counted r.2) :
    Returns (storeOut (some n) room count out) (Exact (some n) room) := by
  unfold storeOut
  dsimp only
  split_ifs with hroom
  · exact returns_ok trivial
  · apply hout.bind
    rintro r ⟨rfl, hcount⟩
    exact returns_ok ⟨rfl, Nat.le_of_not_lt hroom, hcount⟩

lemma Writes.counted (hm : m = 16 ∨ m = 32) (hout : Writes k x m v out) :
    Returns out fun r => r.1.length = (k + m) / 6 ∧ Counted r.2 := by
  apply hout.mono
  rintro r ⟨hspells, hcount⟩
  refine ⟨?_, .inr ⟨_, _, h.next hm v, hcount⟩⟩
  rw [hspells.length_eq, length_digits]

lemma deactivate_returns (ch : ℕ) : Returns (deactivate (pendingState k x) ch) fun r => ∃ bs,
      Spells bs (if k = 0 then [] else [x * 2 ^ (6 - k)]) ∧
      r = (bs ++ (if isxbase64 ch then [0x2d] else []) ++ [UInt8.ofNat ch], 0) := by
  apply (flushBits_returns h).bind
  intro bs hbs
  exact returns_ok ⟨bs, hbs, rfl⟩

lemma deactivate_counted (ch : ℕ) : Returns (deactivate (pendingState k x) ch) fun r =>
      r.1.length = deactivateCount (pendingState k x) ch ∧ Counted r.2 := by
  obtain ⟨-, htwo, -, -, -⟩ := pendingState_reads h
  apply (deactivate_returns h ch).mono
  rintro r ⟨bs, hbs, rfl⟩
  refine ⟨?_, .inl rfl⟩
  unfold deactivateCount
  simp only [htwo]
  rw [List.length_append, List.length_append, hbs.length_eq]
  split_ifs <;> simp_all

end

lemma activate_counted (hplus : ch ≠ 0x2b) (hw : Word ch m v) :
    Returns (activate 0 ch) fun r => r.1.length = m / 6 + 1 ∧ Counted r.2 := by
  apply (activate_writes hplus hw).2.mono
  rintro r ⟨bs, hbytes, hspells, hcount⟩
  have hnext : Pending ((0 + m) % 6) (v % 2 ^ ((0 + m) % 6)) :=
    Pending.next (x := 0) ⟨.inl rfl, by decide⟩ hw.m_even v
  rw [Nat.zero_add] at hnext
  refine ⟨?_, .inr ⟨_, _, hnext, hcount⟩⟩
  simp [hbytes, hspells.length_eq, length_digits]

theorem toUtf7Body_exact (hcount : Counted count) (hroom : 1 ≤ room) (w : UInt32)
    (rest : List UInt32) :
    Returns (toUtf7Body count (w :: rest) room) (Exact (asked count w.toNat) room) := by
  unfold toUtf7Body asked
  dsimp only
  obtain rfl | ⟨k, x, h, rfl⟩ := hcount
  · have hoff : 0 &&& 0x18 = 0 := rfl
    rw [if_pos hoff, if_pos hoff]
    by_cases hdirect : isdirect w.toNat = true
    · simpa [hdirect] using returns_ok ⟨rfl, hroom, .inl rfl⟩
    rw [if_neg hdirect, if_neg hdirect]
    by_cases hplus : w.toNat = 0x2b
    · rw [hplus]
      exact storeOut_exact (returns_ok ⟨rfl, .inl rfl⟩)
    by_cases hlt : w.toNat < 0x110000
    · obtain ⟨m, v, hw⟩ := exists_word hlt
      rw [(activate_writes hplus hw).1]
      exact storeOut_exact (activate_counted hplus hw)
    · rw [show inactiveCount w.toNat = none by
        rw [inactiveCount, if_neg hplus, if_neg (by omega), if_neg hlt]]
      exact returns_ok (.inl rfl)
  have hactive := (pendingState_reads h).1
  rw [if_neg hactive, if_neg hactive]
  by_cases hdirect : isdirect w.toNat = true
  · simpa [hdirect] using storeOut_exact (deactivate_counted h _)
  rw [if_neg hdirect, if_neg hdirect]
  by_cases hlt : w.toNat < 0x110000
  · obtain ⟨m, v, hw⟩ := exists_word hlt
    obtain ⟨hasked, hwrites⟩ := addChar_writes h hw
    rw [hasked]
    exact storeOut_exact (hwrites.counted h hw.m_even)
  · rw [show activeCount (pendingState k x) w.toNat = none by
      rw [activeCount, if_neg (by omega), if_neg hlt]]
    exact returns_ok (.inr ⟨k, x, h, rfl⟩)

lemma toUtf7_keeps (hcount : Counted count) (hroom : toUtf7.minOutput ≤ room) :
    Returns (toUtf7.body count input room) (Kept toUtf7 Counted room) := by
  cases input with
  | nil => exact returns_ok trivial
  | cons w rest =>
    apply (toUtf7Body_exact hcount hroom w rest).mono
    intro turn hturn
    cases turn with
    | emit taken out count' =>
      refine ⟨?_, hturn.2.2⟩
      simpa [show toUtf7.unit = 1 from rfl] using hturn.2.1
    | illegal taken count' => exact hturn
    | stop result => trivial

end

end Eglibc.Utf7
