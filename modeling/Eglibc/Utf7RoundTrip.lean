import Eglibc.Utf7Bits
import Eglibc.Utf16

/-!
# UTF-7 there and back

Between two characters the decoder has given out all characters but at most one, of which
it holds all bits but those that are pending in the encoder.
-/
namespace Eglibc.Utf7
open Checked Gconv Utf16

/-- The decoder reads `bytes` from `s` and gives out `out`, whatever follows. -/
def Decodes (s : State) (bytes : List UInt8) (out : List UInt32) (s' : State) : Prop :=
  ∀ (ignoreErrors : Bool) (rest : List UInt8) (output : List UInt32) (room irreversible : ℕ)
    (result : Status), 4 * out.length + 4 ≤ room →
    loop fromUtf7 ignoreErrors ⟨bytes ++ rest, output, room, s, irreversible, result⟩ =
      loop fromUtf7 ignoreErrors
        ⟨rest, output ++ out, room - 4 * out.length, s', irreversible, result⟩

section
variable {s s' s'' : State} {bytes bytes' : List UInt8} {out out' : List UInt32}

lemma Decodes.nil (s : State) : Decodes s [] [] s := by
  intro ignoreErrors rest output room irreversible result _
  simp

lemma Decodes.cons (hne : bytes ≠ []) (htaken : taken ≤ bytes.length)
    (hbody : ∀ rest, fromUtf7Body s (bytes ++ rest) = .ok (.emit taken out s'))
    (h : Decodes s' (bytes.drop taken) out' s'') : Decodes s bytes (out ++ out') s'' := by
  intro ignoreErrors rest output room irreversible result hroom
  have hunit : fromUtf7.unit = 4 := rfl
  rw [List.length_append, Nat.mul_add] at hroom
  rw [loop_emit (by simp [hne]) _ _ _ (hbody rest)]
  · dsimp only
    rw [List.drop_append_of_le_length htaken, hunit, h _ _ _ _ _ _ (by omega), List.append_assoc,
      List.length_append, Nat.mul_add, Nat.sub_add_eq]
  · have := List.length_pos_of_ne_nil hne
    show 1 ≤ (bytes ++ rest).length
    simp
    omega
  · show 4 ≤ room
    omega
  · dsimp only
    rw [hunit]
    omega

lemma Decodes.append (h : Decodes s bytes out s') (h' : Decodes s' bytes' out' s'') :
    Decodes s (bytes ++ bytes') (out ++ out') s'' := by
  intro ignoreErrors rest output room irreversible result hroom
  rw [List.length_append, Nat.mul_add] at hroom
  rw [List.append_assoc, h _ _ _ _ _ _ (by omega), h' _ _ _ _ _ _ (by omega), List.append_assoc,
    List.length_append, Nat.mul_add, Nat.sub_add_eq]

lemma holding_active (hn : n < 32) : (holding n acc).count >>> 3 ≠ 0 := by
  rw [shift_holding]
  omega

lemma Decodes.digit (hn : n < 32) (hb : base64Value b.toNat = some i)
    (hactive : active (holding n acc) i = .ok (.emit 1 out s'))
    (h : Decodes s' bytes out' s'') : Decodes (holding n acc) (b :: bytes) (out ++ out') s'' := by
  refine Decodes.cons (List.cons_ne_nil b bytes) (Nat.le_add_left 1 bytes.length) ?_ h
  intro rest
  rwa [List.cons_append, fromUtf7Body, if_neg (holding_active hn), hb]

variable {w : UInt32} {m v : ℕ}

lemma active_collect (hv : Word w.toNat m v) (hr : 6 < r) (hrm : r ≤ m) :
    active (holding (m - r) (v / 2 ^ r)) (v / 2 ^ (r - 6) % 64) =
      .ok (.emit 1 [] (holding (m - (r - 6)) (v / 2 ^ (r - 6)))) := by
  have hi : v / 2 ^ (r - 6) % 64 < 64 := Nat.mod_lt _ (by decide)
  have hjoin : v / 2 ^ r * 64 + v / 2 ^ (r - 6) % 64 = v / 2 ^ (r - 6) := by
    have hdiv : v / 2 ^ r = v / 2 ^ (r - 6) / 64 := by
      rw [Nat.div_div_eq_div_mul, show (64 : ℕ) = 2 ^ 6 from rfl, ← Nat.pow_add,
        show r - 6 + 6 = r by omega]
    omega
  have hnext : m - (r - 6) = m - r + 6 := by omega
  rw [hnext]
  rcases hv with ⟨-, rfl, -⟩ | ⟨hlow, hch, rfl, rfl⟩
  · rw [active_more (by omega) hi, hjoin]
  have hsur := surrogates_eq w.toNat
  by_cases h10 : 32 - r < 10
  · rw [active_more (.inl h10) hi, hjoin]
  by_cases h16 : 32 - r < 16
  · rw [active_high (by omega) h16 hi, hjoin]
    rw [hjoin, Nat.div_div_eq_div_mul, ← Nat.pow_add, show r - 6 + (32 - r - 10) = 16 by omega]
    omega
  by_cases h22 : 32 - r < 22
  · rw [active_second (by omega) h22 hi, hjoin, if_pos]
    unfold second
    interval_cases r <;> omega
  · rw [active_more (by omega) hi, hjoin]

theorem active_complete (hw : Scalar w) (hv : Word w.toNat m v) (hk : 0 < k) (hk6 : k ≤ 6)
    (ht : t < 2 ^ (6 - k)) : active (holding (m - k) (v / 2 ^ k)) (v % 2 ^ k * 2 ^ (6 - k) + t) =
      .ok (.emit 1 [w] (holding (6 - k) t)) := by
  have hi : v % 2 ^ k * 2 ^ (6 - k) + t < 64 := by
    interval_cases k <;> omega
  rcases hv with ⟨hch, rfl, rfl⟩ | ⟨hlow, hch, rfl, rfl⟩
  · have hunit : (w.toNat / 2 ^ k * 64 + (w.toNat % 2 ^ k * 2 ^ (6 - k) + t)) / 2 ^ (16 - k - 10) =
        w.toNat := by
      interval_cases k <;> omega
    have hrest : (w.toNat / 2 ^ k * 64 + (w.toNat % 2 ^ k * 2 ^ (6 - k) + t)) % 2 ^ (16 - k - 10) =
        t := by
      interval_cases k <;> omega
    have hacc : w.toNat / 2 ^ k < 2 ^ (16 - k) := by
      interval_cases k <;> omega
    rw [active_unit (by omega) (by omega) hacc hi (by rw [hunit]; exact fun h => hw.2 ⟨h.1, by omega⟩),
      hunit, hrest, UInt32.ofNat_toNat, show 16 - k - 10 = 6 - k by omega]
  have hsur := surrogates_eq w.toNat
  have hfirst : surrogates w.toNat / 2 ^ k / 2 ^ (32 - k - 16) =
      0xd800 + (w.toNat - 0x10000) / 1024 := by
    interval_cases k <;> omega
  have hsecond : second (32 - k) (surrogates w.toNat / 2 ^ k) =
      (0xdc00 + (w.toNat - 0x10000) % 1024) / 2 ^ k * 2 ^ k := by
    unfold second
    interval_cases k <;> omega
  have hlast : (surrogates w.toNat % 2 ^ k * 2 ^ (6 - k) + t) / 2 ^ (32 - k - 26) =
      (0xdc00 + (w.toNat - 0x10000) % 1024) % 2 ^ k := by
    interval_cases k <;> omega
  have hrest : (surrogates w.toNat % 2 ^ k * 2 ^ (6 - k) + t) % 2 ^ (32 - k - 26) = t := by
    interval_cases k <;> omega
  rw [active_pair (by omega) (by omega) hi, hfirst, hsecond, hlast, hrest, Nat.div_add_mod',
    show 32 - k - 26 = 6 - k by omega, Nat.add_sub_cancel_left, Nat.add_sub_cancel_left]
  · have hvalue : 0x10000 + (w.toNat - 0x10000) / 1024 * 1024 + (w.toNat - 0x10000) % 1024 =
        w.toNat := by
      omega
    simp [hvalue]
  · omega
  · interval_cases k <;> omega

/-- What is left when the bits of a character have come six at a time: either it is
complete and given out, or some bits are missing. -/
def Left (w : UInt32) (m v k : ℕ) (out held : List UInt32) (s : State) : Prop :=
  k = 0 ∧ out = [w] ∧ held = [] ∧ s = holding 0 0 ∨
    k ≠ 0 ∧ out = [] ∧ held = [w] ∧ s = holding (m - k) (v / 2 ^ k)

theorem decodes_digits (hw : Scalar w) (hv : Word w.toNat m v) (hr : 0 < r) (hrm : r ≤ m)
    (hbs : Spells bs (digits v r)) : ∃ out held s', Left w m v (r % 6) out held s' ∧
      Decodes (holding (m - r) (v / 2 ^ r)) bs out s' := by
  induction r using Nat.strong_induction_on generalizing bs with
  | _ r ih =>
    by_cases hshort : r < 6
    · rw [digits_short hshort] at hbs
      cases hbs
      rw [Nat.mod_eq_of_lt hshort]
      exact ⟨[], [w], _, .inr ⟨by omega, rfl, rfl, rfl⟩, Decodes.nil _⟩
    obtain ⟨r, rfl⟩ := Nat.exists_eq_add_of_le' (Nat.le_of_not_lt hshort)
    rw [digits_succ] at hbs
    obtain ⟨b, bs, hb, htail, rfl⟩ := List.forall₂_cons_right_iff.mp hbs
    have hn : m - (r + 6) < 32 := by
      have := hv.m_even
      omega
    by_cases hlast : r = 0
    · subst hlast
      rw [digits_short (by decide)] at htail
      cases htail
      refine ⟨[w], [], _, .inl ⟨rfl, rfl, rfl, rfl⟩, ?_⟩
      have hactive : active (holding (m - (0 + 6)) (v / 2 ^ (0 + 6))) (v / 2 ^ 0 % 64) =
          .ok (.emit 1 [w] (holding 0 0)) := by
        simp [← active_complete hw hv (by decide) le_rfl Nat.one_pos]
      exact Decodes.digit hn hb hactive (Decodes.nil _)
    obtain ⟨out, held, s', hleft, hdec⟩ := ih r (by omega) (by omega) (by omega) htail
    refine ⟨out, held, s', by rwa [Nat.add_mod_right], ?_⟩
    have hactive := active_collect hv (by omega : 6 < r + 6) hrm
    exact Decodes.digit hn hb hactive hdec

/-- The decoder inside base64 when the encoder has `k` bits `x` pending: `held` is the
character they belong to. -/
def Held (k x : ℕ) (held : List UInt32) (s : State) : Prop :=
  k = 0 ∧ x = 0 ∧ held = [] ∧ s = holding 0 0 ∨
    ∃ w m v, Scalar w ∧ Word w.toNat m v ∧ (k = 2 ∨ k = 4) ∧ x = v % 2 ^ k ∧ held = [w] ∧
      s = holding (m - k) (v / 2 ^ k)

lemma Held.pending (h : Held k x held s) : Pending k x := by
  rcases h with ⟨rfl, rfl, -⟩ | ⟨w, m, v, -, -, hk, rfl, -⟩
  · exact ⟨.inl rfl, by decide⟩
  · exact ⟨.inr hk, Nat.mod_lt _ (Nat.two_pow_pos _)⟩

theorem Held.flush (h : Held k x held s)
    (hbs : Spells bs (if k = 0 then [] else [x * 2 ^ (6 - k)])) :
    ∃ n, n < 6 ∧ Decodes s bs held (holding n 0) := by
  rcases h with ⟨rfl, rfl, rfl, rfl⟩ | ⟨w, m, v, hw, hv, hk, rfl, rfl, rfl⟩
  · cases hbs
    exact ⟨0, by decide, Decodes.nil _⟩
  rw [if_neg (by omega)] at hbs
  obtain ⟨b, bs, hb, hnil, rfl⟩ := List.forall₂_cons_right_iff.mp hbs
  cases hnil
  have hn : m - k < 32 := by
    have := hv.m_even
    omega
  have hactive := active_complete hw hv (k := k) (t := 0) (by omega) (by omega) (Nat.two_pow_pos _)
  exact ⟨6 - k, by omega, Decodes.digit hn hb hactive (Decodes.nil _)⟩

lemma Left.held {k : ℕ} {held : List UInt32} (hw : Scalar w) (hv : Word w.toNat m v)
    (hk : k = 0 ∨ k = 2 ∨ k = 4) (h : Left w m v k out held s) :
    [w] = out ++ held ∧ ∃ x, Held k x held s ∧ pendingState k x = pendingState k (v % 2 ^ k) := by
  rcases h with ⟨rfl, rfl, rfl, rfl⟩ | ⟨hne, rfl, rfl, rfl⟩
  · exact ⟨rfl, 0, .inl ⟨rfl, rfl, rfl, rfl⟩, rfl⟩
  · exact ⟨rfl, _, .inr ⟨w, m, v, hw, hv, by omega, rfl, rfl, rfl⟩, rfl⟩

lemma digits_low (x v : ℕ) (hr : r ≤ m) : digits (x * 2 ^ m + v) r = digits v r := by
  induction r using Nat.strong_induction_on with
  | _ r ih =>
    by_cases hshort : r < 6
    · simp [digits_short hshort]
    obtain ⟨r, rfl⟩ := Nat.exists_eq_add_of_le' (Nat.le_of_not_lt hshort)
    have hsplit : x * 2 ^ m = x * 2 ^ (m - (r + 6)) * 64 * 2 ^ r := by
      rw [show (64 : ℕ) = 2 ^ 6 from rfl, Nat.mul_assoc, Nat.mul_assoc, ← Nat.pow_add,
        ← Nat.pow_add, show m - (r + 6) + (6 + r) = m by omega]
    rw [digits_succ, digits_succ, ih r (by omega) (by omega), hsplit, Nat.add_comm,
      Nat.add_mul_div_right _ _ (Nat.two_pow_pos r), Nat.add_mul_mod_self_right]

lemma Held.join (h : Held k x held s) (hw : Scalar w)
    (hv : Word w.toNat m v) (hbs : Spells bs (digits (x * 2 ^ m + v) (k + m))) :
    ∃ out held' s', Left w m v ((k + m) % 6) out held' s' ∧ Decodes s bs (held ++ out) s' := by
  have hm := hv.m_even
  rcases h with ⟨rfl, rfl, rfl, rfl⟩ | ⟨w0, m0, v0, hw0, hv0, hk, rfl, rfl, rfl⟩
  · rw [Nat.zero_mul, Nat.zero_add, Nat.zero_add] at hbs
    obtain ⟨out, held, s', hleft, hdec⟩ := decodes_digits hw hv (by omega) le_rfl hbs
    rw [Nat.sub_self, Nat.div_eq_of_lt hv.lt] at hdec
    simpa using ⟨out, held, s', hleft, hdec⟩
  -- the first base64 character completes the one that is held
  have hlt := hv.lt
  obtain ⟨r, hr⟩ : ∃ r, k + m = r + 6 := ⟨k + m - 6, by omega⟩
  have hfirst : (v0 % 2 ^ k * 2 ^ m + v) / 2 ^ r % 64 = v0 % 2 ^ k * 2 ^ (6 - k) + v / 2 ^ r := by
    obtain rfl : r = k + m - 6 := by omega
    rcases hk with rfl | rfl <;> rcases hm with rfl | rfl <;> omega
  have hsmall : v / 2 ^ r < 2 ^ (6 - k) := by
    obtain rfl : r = k + m - 6 := by omega
    rcases hk with rfl | rfl <;> rcases hm with rfl | rfl <;> omega
  rw [hr, digits_succ, digits_low _ _ (by omega : r ≤ m), hfirst] at hbs
  obtain ⟨b, bs, hb, htail, rfl⟩ := List.forall₂_cons_right_iff.mp hbs
  obtain ⟨out, held, s', hleft, hdec⟩ := decodes_digits hw hv (by omega) (by omega) htail
  have hn : m0 - k < 32 := by
    have := hv0.m_even
    omega
  rw [show m - r = 6 - k by omega] at hdec
  rw [hr, Nat.add_mod_right]
  exact ⟨out, held, s', hleft,
    Decodes.digit hn hb (active_complete hw0 hv0 (by omega) (by omega) hsmall) hdec⟩

theorem decodes_dash (hn : n < 6) : Decodes (holding n 0) [0x2d] [] ⟨0, 0⟩ := by
  have hbody (rest : List UInt8) :
      fromUtf7Body (holding n 0) ([0x2d] ++ rest) = .ok (.emit 1 [] ⟨0, 0⟩) := by
    have hwch : (holding n 0).wch = 0 := Nat.zero_shiftLeft _
    rw [List.cons_append, fromUtf7Body, if_neg (holding_active (by omega)),
      show base64Value (0x2d : UInt8).toNat = none from rfl]
    rw [terminate, if_neg, hwch]
    · rfl
    · rw [hwch, shift_holding]
      omega
  exact Decodes.cons (List.cons_ne_nil _ _) le_rfl hbody (Decodes.nil _)

lemma isdirect_facts : ∀ ch < 128, isdirect ch = true →
    isxdirect ch = true ∧ (isxbase64 ch = false → base64Value ch = none ∧ ch ≠ 0x2d) := by
  decide +kernel

lemma isdirect_lt (h : isdirect ch = true) : ch < 128 := by
  exact of_decide_eq_true (Bool.and_eq_true_iff.mp h).1

lemma decodes_direct (h : isdirect ch = true) :
    Decodes ⟨0, 0⟩ [UInt8.ofNat ch] [UInt32.ofNat ch] ⟨0, 0⟩ := by
  have hlt := isdirect_lt h
  have hbyte : (UInt8.ofNat ch).toNat = ch := by
    simp
    omega
  have hbody (rest : List UInt8) : fromUtf7Body ⟨0, 0⟩ ([UInt8.ofNat ch] ++ rest) =
      .ok (.emit 1 [UInt32.ofNat ch] ⟨0, 0⟩) := by
    rw [List.cons_append, fromUtf7Body, if_pos (by rfl), hbyte]
    unfold inactive
    rw [if_pos (isdirect_facts ch hlt h).1]
  exact Decodes.cons (List.cons_ne_nil _ _) le_rfl hbody (Decodes.nil _)

theorem decodes_deactivate (hn : n < 6) (h : isdirect ch = true) :
    Decodes (holding n 0) ((if isxbase64 ch then [0x2d] else []) ++ [UInt8.ofNat ch])
      [UInt32.ofNat ch] ⟨0, 0⟩ := by
  have hlt := isdirect_lt h
  split_ifs with hx
  · exact (decodes_dash hn).append (decodes_direct h)
  obtain ⟨hvalue, hdash⟩ := (isdirect_facts ch hlt h).2 (by simpa using hx)
  have hbyte : (UInt8.ofNat ch).toNat = ch := by
    simp
    omega
  have hwch : (holding n 0).wch = 0 := Nat.zero_shiftLeft _
  have hbody (rest : List UInt8) : fromUtf7Body (holding n 0) ([UInt8.ofNat ch] ++ rest) =
      .ok (.emit 0 [] ⟨0, 0⟩) := by
    rw [List.cons_append, fromUtf7Body, if_neg (holding_active (by omega)), hbyte, hvalue]
    rw [terminate, if_neg, hwch, if_neg hdash]
    rw [hwch, shift_holding]
    omega
  exact Decodes.cons (List.cons_ne_nil _ _) (Nat.zero_le _) hbody (decodes_direct h)

end

def Match (count : ℕ) (s : State) (held : List UInt32) : Prop :=
  count = 0 ∧ s = ⟨0, 0⟩ ∧ held = [] ∨ ∃ k x, count = pendingState k x ∧ Held k x held s

def Step (s : State) (held : List UInt32) (w : UInt32) (bytes : List UInt8) (count' : ℕ) : Prop :=
  ∃ out s' held', Decodes s bytes out s' ∧ Match count' s' held' ∧ held ++ [w] = out ++ held'

section
variable {w : UInt32} {count room : ℕ} {s : State} {held : List UInt32}

lemma storeOut_emit {n : ℕ} {out : Run (List UInt8 × ℕ)} {P : List UInt8 → ℕ → Prop}
    (hn : n ≤ room) (h : Returns out fun r => P r.1 r.2) :
    Returns (storeOut (some n) room count out) fun turn =>
      ∃ bytes count', turn = .emit 1 bytes count' ∧ P bytes count' := by
  unfold storeOut
  dsimp only
  rw [if_neg (by omega)]
  apply h.bind
  intro r hr
  exact returns_ok ⟨r.1, r.2, rfl, hr⟩

lemma step_direct (h : isdirect w.toNat = true) : Step ⟨0, 0⟩ [] w [UInt8.ofNat w.toNat] 0 := by
  have hdec := decodes_direct h
  rw [UInt32.ofNat_toNat] at hdec
  exact ⟨[w], ⟨0, 0⟩, [], hdec, .inl ⟨rfl, rfl, rfl⟩, rfl⟩

lemma step_plus (h : w.toNat = 0x2b) : Step ⟨0, 0⟩ [] w [0x2b, 0x2d] 0 := by
  have hbody (rest : List UInt8) : fromUtf7Body ⟨0, 0⟩ ([0x2b, 0x2d] ++ rest) =
      .ok (.emit 2 [w] ⟨0, 0⟩) := by
    rw [← UInt32.ofNat_toNat (x := w), h]
    rfl
  exact ⟨[w], ⟨0, 0⟩, [], Decodes.cons (List.cons_ne_nil _ _) le_rfl hbody (Decodes.nil _),
    .inl ⟨rfl, rfl, rfl⟩, rfl⟩

variable {m v : ℕ}

lemma step_activate (hw : Scalar w) (hv : Word w.toNat m v) {bs : List UInt8}
    (hbs : Spells bs (digits v m)) :
    Step ⟨0, 0⟩ [] w (0x2b :: bs) (pendingState (m % 6) (v % 2 ^ (m % 6))) := by
  have hm := hv.m_even
  have hstart : Held 0 0 [] (holding 0 0) := .inl ⟨rfl, rfl, rfl, rfl⟩
  obtain ⟨out, held, s', hleft, hdec⟩ := hstart.join hw hv (by simpa using hbs)
  rw [Nat.zero_add] at hleft
  obtain ⟨hsplit, x, hheld, hcount⟩ := hleft.held hw hv (by omega)
  have hbody (rest : List UInt8) : fromUtf7Body ⟨0, 0⟩ ((0x2b :: bs) ++ rest) =
      .ok (.emit 1 [] (holding 0 0)) := by
    obtain ⟨r, hr⟩ : ∃ r, m = r + 6 := ⟨m - 6, by omega⟩
    rw [hr, digits_succ] at hbs
    obtain ⟨b, bs, hb, -, rfl⟩ := List.forall₂_cons_right_iff.mp hbs
    have hdash : ¬b.toNat = 0x2d := by
      intro h
      rw [h] at hb
      cases hb
    show Except.ok (if b.toNat = 0x2d then _ else _) = _
    rw [if_neg hdash]
    rfl
  exact ⟨out, s', held, Decodes.cons (List.cons_ne_nil _ _) (Nat.le_add_left 1 _) hbody hdec,
    .inr ⟨_, x, hcount.symm, hheld⟩, hsplit⟩

lemma step_add (h : Held k x held s) (hw : Scalar w) (hv : Word w.toNat m v)
    (hbs : Spells bs (digits (x * 2 ^ m + v) (k + m))) :
    Step s held w bs (pendingState ((k + m) % 6) (v % 2 ^ ((k + m) % 6))) := by
  obtain ⟨out, held', s', hleft, hdec⟩ := h.join hw hv hbs
  obtain ⟨hsplit, x', hheld, hcount⟩ := hleft.held hw hv (h.pending.next hv.m_even v).1
  refine ⟨held ++ out, s', held', hdec, .inr ⟨_, x', hcount.symm, hheld⟩, ?_⟩
  simp [← hsplit]

lemma step_deactivate (h : Held k x held s) (hw : isdirect w.toNat = true)
    (hbs : Spells bs (if k = 0 then [] else [x * 2 ^ (6 - k)])) :
    Step s held w (bs ++ (if isxbase64 w.toNat then [0x2d] else []) ++ [UInt8.ofNat w.toNat]) 0 := by
  obtain ⟨n, hn, hflush⟩ := h.flush hbs
  have hdec := hflush.append (decodes_deactivate hn hw)
  rw [UInt32.ofNat_toNat, ← List.append_assoc] at hdec
  exact ⟨held ++ [w], ⟨0, 0⟩, [], hdec, .inl ⟨rfl, rfl, rfl⟩, by simp⟩

lemma toUtf7Body_step (h : Match count s held) (hw : Scalar w) (rest : List UInt32)
    (hroom : 6 ≤ room) : Returns (toUtf7Body count (w :: rest) room) fun turn =>
      ∃ bytes count', turn = .emit 1 bytes count' ∧ Step s held w bytes count' := by
  obtain ⟨m, v, hv⟩ := exists_word hw.1
  have hm := hv.m_even
  unfold toUtf7Body
  dsimp only
  rcases h with ⟨rfl, rfl, rfl⟩ | ⟨k, x, rfl, hheld⟩
  · have hoff : 0 &&& 0x18 = 0 := rfl
    split_ifs with hdirect
    · exact returns_ok ⟨_, _, rfl, step_direct hdirect⟩
    by_cases hplus : w.toNat = 0x2b
    · have hstep := step_plus hplus
      rw [hplus]
      exact storeOut_emit (by omega) (returns_ok hstep)
    obtain ⟨hasked, hwrites⟩ := activate_writes hplus hv
    rw [hasked]
    apply storeOut_emit (by omega)
    apply hwrites.mono
    rintro r ⟨bs, hbytes, hspells, hcount⟩
    rw [hbytes, hcount]
    exact step_activate hw hv hspells
  have hpending := hheld.pending
  rw [if_neg (pendingState_reads hpending).1]
  split_ifs with hdirect
  · apply storeOut_emit
    · unfold deactivateCount
      split_ifs <;> omega
    · apply (deactivate_returns hpending w.toNat).mono
      rintro r ⟨bs, hbs, rfl⟩
      exact step_deactivate hheld hdirect hbs
  obtain ⟨hasked, hwrites⟩ := addChar_writes hpending hv
  have hk := hpending.1
  rw [hasked]
  apply storeOut_emit (by omega)
  apply hwrites.mono
  rintro r ⟨hspells, hcount⟩
  rw [hcount]
  exact step_add hheld hw hv hspells

lemma Match.counted (h : Match count s held) : Counted count := by
  rcases h with ⟨rfl, -⟩ | ⟨k, x, rfl, hheld⟩
  · exact .inl rfl
  · exact .inr ⟨k, x, hheld.pending, rfl⟩

lemma asked_le (h : asked count ch = some n) : n ≤ 6 := by
  unfold asked inactiveCount activeCount deactivateCount at h
  split_ifs at h
  all_goals
    cases h
    try decide

lemma loop_toUtf7 (ignoreErrors : Bool) (hcs : ∀ w ∈ cs, Scalar w)
    (h : Match count s held) (hroom : 6 * cs.length ≤ room) (output : List UInt8)
    (irreversible : ℕ) (result : Status) : ∃ bytes room' count' out s' held',
      loop toUtf7 ignoreErrors ⟨cs, output, room, count, irreversible, result⟩ =
        .ok ⟨[], output ++ bytes, room', count', irreversible, result⟩ ∧
      Decodes s bytes out s' ∧ Match count' s' held' ∧ held ++ cs = out ++ held' := by
  induction cs generalizing count s held room output with
  | nil =>
    refine ⟨[], room, count, [], s, held, ?_, Decodes.nil s, h, by simp⟩
    rw [loop_end rfl, List.append_nil]
  | cons w cs ih =>
    rw [List.length_cons] at hroom
    obtain ⟨turn, hbody, bytes, count1, rfl, out1, s1, held1, hdec1, hmatch1, hsplit1⟩ :=
      toUtf7Body_step h (hcs w (by simp)) cs (by omega : 6 ≤ room)
    have hlen : bytes.length ≤ 6 := by
      obtain ⟨turn, hturn, hexact⟩ := toUtf7Body_exact h.counted (by omega : 1 ≤ room) w cs
      obtain rfl := Except.ok.inj (hbody.symm.trans hturn)
      exact asked_le hexact.1
    have hunit : toUtf7.unit = 1 := rfl
    obtain ⟨bytes2, room2, count2, out2, s2, held2, hloop, hdec2, hmatch2, hsplit2⟩ :=
      ih (fun c hc => hcs c (by simp [hc])) hmatch1 (by omega : 6 * cs.length ≤ room - bytes.length)
        (output ++ bytes)
    refine ⟨bytes ++ bytes2, room2, count2, out1 ++ out2, s2, held2, ?_, hdec1.append hdec2,
      hmatch2, ?_⟩
    · rw [loop_emit (List.cons_ne_nil _ _) (Nat.le_add_left 1 _) _ _ hbody, hunit, Nat.one_mul,
        ← List.append_assoc]
      · exact hloop
      · show 1 ≤ room
        omega
      · dsimp only
        rw [hunit]
        omega
    · rw [List.append_assoc, ← hsplit2, ← List.append_assoc, ← hsplit1, ← List.append_cons]

theorem emitShiftToInit_returns (h : Match count s held) (hroom : 2 ≤ room) :
    ∃ bytes, emitShiftToInit count room = .ok (.ok, bytes, 0) ∧ Decodes s bytes held ⟨0, 0⟩ := by
  rcases h with ⟨rfl, rfl, rfl⟩ | ⟨k, x, rfl, hheld⟩
  · exact ⟨[], rfl, Decodes.nil _⟩
  obtain ⟨bs, hbs, hspells⟩ := flushBits_returns hheld.pending
  obtain ⟨n, hn, hflush⟩ := hheld.flush hspells
  have hdec := hflush.append (decodes_dash hn)
  rw [List.append_nil] at hdec
  refine ⟨bs ++ [0x2d], ?_, hdec⟩
  rw [emitShiftToInit, if_pos (pendingState_reads hheld.pending).1, if_neg, hbs]
  · rfl
  · split_ifs <;> omega

lemma emitShiftToInit_total (h : Counted count) (room : ℕ) :
    Returns (emitShiftToInit count room) fun r => Counted r.2.2 := by
  rcases h with rfl | ⟨k, x, hpending, rfl⟩
  · exact returns_ok (.inl rfl)
  rw [emitShiftToInit, if_pos (pendingState_reads hpending).1]
  by_cases hfull : room < (if 0x10 ≤ pendingState k x &&& 0x18 then 1 else 0) + 1
  · rw [if_pos hfull]
    exact returns_ok (.inr ⟨k, x, hpending, rfl⟩)
  rw [if_neg hfull]
  apply (flushBits_returns hpending).bind
  intro bs _
  exact returns_ok (.inl rfl)

end

/-- Scalar values come back from their encoding and the shift sequence behind it, with the
decoder in its initial state. In the states that calls can lead to, no assertion fails
and no branch aborts, and every character of the encoder takes as many bytes as were
computed for it. -/
theorem utf7_roundTrip (ignoreErrors ignoreErrors' : Bool) {cs : List UInt32}
    (hcs : ∀ w ∈ cs, Scalar w) {room room' room'' : ℕ} (hroom : 6 * cs.length ≤ room)
    (hroom' : 2 ≤ room') (hroom'' : 4 * cs.length + 4 ≤ room'') :
    (∃ r bytes, convert toUtf7 ignoreErrors 0 cs room = .ok r ∧ r.result = .emptyInput ∧
      emitShiftToInit r.state room' = .ok (.ok, bytes, 0) ∧
      convert fromUtf7 ignoreErrors' ⟨0, 0⟩ (r.output ++ bytes) room'' =
        .ok ⟨[], cs, room'' - 4 * cs.length, ⟨0, 0⟩, 0, .emptyInput⟩) ∧
    (∀ ignore calls, Returns (converts fromUtf7 ignore calls ⟨0, 0⟩) fun _ => True) ∧
    ∀ ignore calls, Returns (converts toUtf7 ignore calls 0) fun count =>
      (∀ room, Returns (emitShiftToInit count room) fun _ => True) ∧
      ∀ w room, 1 ≤ room → Returns (toUtf7Body count [w] room) fun turn =>
        ∀ taken out count', turn = .emit taken out count' →
          asked count w.toNat = some out.length := by
  refine ⟨?_, ?_, ?_⟩
  · obtain ⟨bytes, room₁, count, out, s, held, hloop, hdec, hmatch, hsplit⟩ :=
      loop_toUtf7 ignoreErrors hcs (.inl ⟨rfl, rfl, rfl⟩) hroom [] 0 .emptyInput
    obtain ⟨tail, hflush, hdec'⟩ := emitShiftToInit_returns hmatch hroom'
    refine ⟨_, tail, hloop, rfl, hflush, ?_⟩
    have hall := hdec.append hdec'
    rw [← hsplit, List.nil_append] at hall
    have hrun := hall ignoreErrors' [] [] room'' 0 .emptyInput hroom''
    rw [List.append_nil, List.nil_append] at hrun
    exact hrun.trans (loop_end rfl)
  · intro ignore calls
    apply (converts_returns (fun hs _ hroom => fromUtf7_keeps hs hroom) calls (.inl rfl)).mono
    intro s _
    trivial
  · intro ignore calls
    apply (converts_returns (fun hs _ hroom => toUtf7_keeps hs hroom) calls (.inl rfl)).mono
    intro count hcount
    refine ⟨fun room => (emitShiftToInit_total hcount room).mono fun _ _ => trivial, ?_⟩
    intro w room hroom
    apply (toUtf7Body_exact hcount hroom w []).mono
    rintro turn hturn taken out count' rfl
    exact hturn.1

/-- A direct character, a unit and a pair. -/
theorem utf7_roundTrip_mixed : (∀ w ∈ ([0x48, 0x20ac, 0x1f600] : List UInt32), Scalar w) ∧
    ∃ r bytes, convert toUtf7 false 0 [0x48, 0x20ac, 0x1f600] 18 = .ok r ∧
      emitShiftToInit r.state 2 = .ok (.ok, bytes, 0) ∧
      convert fromUtf7 false ⟨0, 0⟩ (r.output ++ bytes) 16 =
        .ok ⟨[], [0x48, 0x20ac, 0x1f600], 4, ⟨0, 0⟩, 0, .emptyInput⟩ := by
  have hcs : ∀ w ∈ ([0x48, 0x20ac, 0x1f600] : List UInt32), Scalar w := by
    simp [Scalar]
  obtain ⟨⟨r, bytes, hr, -, hflush, hback⟩, -⟩ :=
    utf7_roundTrip false false hcs (le_refl 18) (le_refl 2) (le_refl 16)
  exact ⟨hcs, r, bytes, hr, hflush, hback⟩

end Eglibc.Utf7
