import Eglibc.Signed
import Eglibc.Strverscmp

/-!
# _dl_cache_libcmp of elf/dl-cache.c

A pointer is what is left of its string. A `char` may be signed. Numbers are computed in an
`int`, whose arithmetic wraps.
-/
namespace Eglibc.DlCache
open Checked Bytes Signed Strverscmp

def char (signed : Bool) (c : UInt8) : ℤ :=
  if signed ∧ 128 ≤ c.toNat then c.toNat - 256 else c.toNat

/-- `while (*p >= '0' && *p <= '9') val = val * 10 + *p++ - '0'` -/
def number (val : ℤ) : List UInt8 → Run (ℤ × List UInt8)
  | c :: p => if isdigit c then number (wrap 32 (val * 10 + c.toNat - 0x30)) p else .ok (val, c :: p)
  | [] => .error (.read 0)

def libcmpBody (signed : Bool) : List UInt8 × List UInt8 → Run ((List UInt8 × List UInt8) ⊕ ℤ)
  | (c₁ :: p₁, c₂ :: p₂) =>
    if c₁ = 0 then .ok (.inr (char signed c₁ - char signed c₂))
    else if isdigit c₁ then
      if isdigit c₂ then do
        let (val₁, p₁) ← number (c₁.toNat - 0x30) p₁
        let (val₂, p₂) ← number (c₂.toNat - 0x30) p₂
        if val₁ ≠ val₂ then .ok (.inr (wrap 32 (val₁ - val₂))) else .ok (.inl (p₁, p₂))
      else .ok (.inr 1)
    else if isdigit c₂ then .ok (.inr (-1))
    else if c₁ ≠ c₂ then .ok (.inr (char signed c₁ - char signed c₂))
    else .ok (.inl (p₁, p₂))
  | _ => .error (.read 0)

def libcmp (signed : Bool) (p₁ p₂ : List UInt8) : Run ℤ :=
  iterate (libcmpBody signed) (p₁.length + 1) (p₁, p₂)

/-! ### Names up to leading zeros -/

/-- The digit runs of a string, and its other characters one by one. -/
def tokens (s : List UInt8) : List (List UInt8) := s.splitBy fun a b => isdigit a && isdigit b

def digit (v : ℕ) (c : UInt8) : ℕ := v * 10 + (c.toNat - 0x30)

def value (t : List UInt8) : ℕ := t.foldl digit 0

/-- A token without its leading zeros. -/
def strip (t : List UInt8) : List UInt8 := t.dropWhile (· = 0x30)

def stripped (s : List UInt8) : List (List UInt8) := (tokens s).map strip

def Below (bound : ℕ) (s : List UInt8) : Prop :=
  ∀ t ∈ tokens s, isdigit (t.headD 0) = true → value t < bound

/-- The comparison is a weak order of the names whose numbers are below `bound`. -/
def WeakOrder (signed : Bool) (bound : ℕ) : Prop :=
  ∀ a b c : CString, Below bound a.bytes → Below bound b.bytes → Below bound c.bytes →
    ∃ ab ba bc ac, libcmp signed a.object b.object = .ok ab ∧
      libcmp signed b.object a.object = .ok ba ∧ libcmp signed b.object c.object = .ok bc ∧
      libcmp signed a.object c.object = .ok ac ∧
      (ab = 0 ↔ stripped a.bytes = stripped b.bytes) ∧ ba.sign = -ab.sign ∧
      (ab ≤ 0 → bc ≤ 0 → ac ≤ 0)

section
variable {c : UInt8} {s t : List UInt8}

lemma tokens_cons (hc : isdigit c = false) : tokens (c :: s) = [c] :: tokens s := by
  have happend := List.splitBy_append (r := fun a b => isdigit a && isdigit b) (l := [c]) (m := s)
    (by simp [hc])
  exact happend

lemma tokens_run (hc : isdigit c = true) :
    tokens (c :: s) = (c :: s.takeWhile isdigit) :: tokens (s.dropWhile isdigit) := by
  have hrest : ∀ x ∈ (s.dropWhile isdigit).head?, isdigit x = false := by
    intro x hx
    have := List.head?_dropWhile_not isdigit s
    rw [Option.mem_def.mp hx] at this
    simpa using this
  have hrun : (c :: s.takeWhile isdigit).IsChain fun a b => isdigit a && isdigit b := by
    refine List.Pairwise.isChain (List.pairwise_of_forall_mem_list fun a ha b hb => ?_)
    have hall : ∀ x ∈ c :: s.takeWhile isdigit, isdigit x = true := by
      simpa [hc] using fun x hx => List.mem_takeWhile_imp hx
    simp [hall a ha, hall b hb]
  have happend := List.splitBy_append (r := fun a b => isdigit a && isdigit b)
    (l := c :: s.takeWhile isdigit) (m := s.dropWhile isdigit)
    (by simp +contextual [hrest])
  rw [List.cons_append, List.takeWhile_append_dropWhile, List.splitBy_of_isChain (by simp) hrun]
    at happend
  exact happend

lemma tokens_object (w : CString) : tokens w.object = tokens w.bytes ++ [[0]] :=
  List.splitBy_append (by simp [isdigit])

lemma token_cases (ht : t ∈ tokens s) :
    (∀ x ∈ t, isdigit x = true) ∨ ∃ c, isdigit c = false ∧ t = [c] := by
  have hchain := List.isChain_of_mem_splitBy ht
  have hne := List.ne_nil_of_mem_splitBy ht
  clear ht
  induction t with
  | nil => exact absurd rfl hne
  | cons c t ih =>
    cases t with
    | nil => cases hc : isdigit c <;> simp [hc]
    | cons d t =>
      rw [List.isChain_cons_cons, Bool.and_eq_true] at hchain
      obtain hall | ⟨e, he, hd⟩ := ih hchain.2 (by simp)
      · simpa [hchain.1] using hall
      · simp_all

lemma value_strip (t : List UInt8) : value (strip t) = value t := by
  induction t with
  | nil => rfl
  | cons c t ih =>
    by_cases hc : c = 0x30
    · rwa [strip, List.dropWhile_cons_of_pos (by simpa using hc), hc]
    · rw [strip, List.dropWhile_cons_of_neg (by simpa using hc)]

end

/-! ### Keys -/

/-- The place of a token in the order: every number comes after every character. -/
def tokenKey (signed : Bool) : List UInt8 → ℕ
  | [] => 512
  | c :: t => if isdigit c then 512 + value (c :: t) else (char signed c + 128).toNat

def keys (signed : Bool) (s : List UInt8) : List ℕ := (stripped s).map (tokenKey signed)

/-- The token with a given key. -/
def token (k : ℕ) : List UInt8 :=
  if k < 512 then [.ofNat (k + 128)]
  else ((Nat.digits 10 (k - 512)).map fun d => .ofNat (d + 0x30)).reverse

section
variable {signed : Bool} {c c₁ c₂ : UInt8} {s t : List UInt8}

lemma isdigit_iff : isdigit c = true ↔ 0x30 ≤ c.toNat ∧ c.toNat ≤ 0x39 := by simp [isdigit]

lemma strip_single (hc : isdigit c = false) : strip [c] = [c] := by
  have hne : c ≠ 0x30 := by
    rintro rfl
    cases hc
  simp [strip, hne]

lemma tokenKey_strip (ht : ∀ x ∈ t, isdigit x = true) :
    tokenKey signed (strip t) = 512 + value t := by
  rw [← value_strip]
  cases hs : strip t with
  | nil => rfl
  | cons c u =>
    have hc : c ∈ t := (List.dropWhile_suffix _).subset (hs ▸ List.mem_cons_self : c ∈ strip t)
    rw [tokenKey, if_pos (ht c hc)]

lemma keys_cons (hc : isdigit c = false) :
    keys signed (c :: s) = (char signed c + 128).toNat :: keys signed s := by
  rw [keys, stripped, tokens_cons hc, List.map_cons, strip_single hc, List.map_cons, tokenKey,
    if_neg (by simp [hc])]
  rfl

lemma keys_run (hc : isdigit c = true) : keys signed (c :: s) =
    (512 + value (c :: s.takeWhile isdigit)) :: keys signed (s.dropWhile isdigit) := by
  rw [keys, stripped, tokens_run hc, List.map_cons, List.map_cons, tokenKey_strip]
  · rfl
  · simpa [hc] using fun x hx => List.mem_takeWhile_imp hx

lemma char_range (signed : Bool) (c : UInt8) : -128 ≤ char signed c ∧ char signed c < 256 := by
  have := c.toNat_lt
  unfold char
  split_ifs <;> omega

lemma orders_char (hne : c₁ ≠ c₂) : Orders (char signed c₁ - char signed c₂)
    ((char signed c₁ + 128).toNat :: k₁) ((char signed c₂ + 128).toNat :: k₂) := by
  have hne' : c₁.toNat ≠ c₂.toNat := fun h => hne (UInt8.toNat_inj.mp h)
  have h₁ := c₁.toNat_lt
  have h₂ := c₂.toNat_lt
  unfold char
  refine orders_head ?_ ?_ ?_ <;> split_ifs <;> omega

lemma value_eq_ofDigits (t : List UInt8) :
    value t = Nat.ofDigits 10 (t.reverse.map fun c => c.toNat - 0x30) := by
  rw [Nat.ofDigits_eq_foldr, List.foldr_map, List.foldr_reverse, value]
  congr 1
  funext v c
  rw [digit, Nat.cast_id]
  omega

lemma token_value (ht : ∀ x ∈ t, isdigit x = true) (hzero : t.head? ≠ some 0x30) :
    token (512 + value t) = t := by
  have hdigits : Nat.digits 10 (value t) = t.reverse.map fun c => c.toNat - 0x30 := by
    rw [value_eq_ofDigits]
    refine Nat.digits_ofDigits 10 (by decide) _ ?_ ?_
    · simp only [List.mem_map, List.mem_reverse]
      rintro _ ⟨c, hc, rfl⟩
      have := isdigit_iff.mp (ht c hc)
      omega
    cases t with
    | nil => exact fun h => absurd rfl h
    | cons c t =>
      have hc := isdigit_iff.mp (ht c List.mem_cons_self)
      have hne : c.toNat ≠ 0x30 := fun h => hzero (congrArg some (UInt8.toNat_inj.mp h))
      simp
      omega
  rw [token, if_neg (by omega), Nat.add_sub_cancel_left, hdigits, List.map_map, ← List.map_reverse,
    List.reverse_reverse]
  refine (List.map_congr_left fun c hc => ?_).trans t.map_id
  have := isdigit_iff.mp (ht c hc)
  rw [Function.comp_apply, Nat.sub_add_cancel this.1, UInt8.ofNat_toNat]
  rfl

lemma token_tokenKey (ht : t ∈ tokens s) : token (tokenKey signed (strip t)) = strip t := by
  obtain hdigits | ⟨c, hc, rfl⟩ := token_cases ht
  · rw [tokenKey_strip hdigits, ← value_strip]
    refine token_value (fun x hx => hdigits x ((List.dropWhile_suffix _).subset hx)) fun h => ?_
    have := List.head?_dropWhile_not (fun c : UInt8 => decide (c = 0x30)) t
    rw [← strip, h] at this
    simp at this
  have hlt := c.toNat_lt
  have hrange := char_range signed c
  rw [strip_single hc, tokenKey, if_neg (by simp [hc]), token, if_pos (by omega)]
  congr 1
  rw [← UInt8.toNat_inj, UInt8.toNat_ofNat']
  unfold char
  split_ifs <;> omega

lemma keys_inj (h : keys signed s = keys signed t) : stripped s = stripped t := by
  have hback : ∀ s, (keys signed s).map token = stripped s := by
    intro s
    simpa [keys, stripped] using List.map_congr_left fun t ht => token_tokenKey ht
  rw [← hback s, h, hback t]

end

/-! ### The comparison -/

section
variable {signed : Bool} {c : UInt8} {s : List UInt8} {k₁ k₂ : List ℕ}

lemma le_foldl_digit (t : List UInt8) (v : ℕ) : v ≤ t.foldl digit v := by
  induction t generalizing v with
  | nil => exact le_rfl
  | cons c t ih => exact (by unfold digit; omega : v ≤ digit v c).trans (ih _)

lemma number_eq (hs : Terminated s) {v : ℕ} (hv : (s.takeWhile isdigit).foldl digit v < 2 ^ 31) :
    number v s = .ok (((s.takeWhile isdigit).foldl digit v : ℕ), s.dropWhile isdigit) := by
  induction s generalizing v with
  | nil => exact absurd hs not_terminated_nil
  | cons c s ih =>
    cases hc : isdigit c with
    | false => simp [number, hc]
    | true =>
      rw [List.takeWhile_cons_of_pos hc, List.foldl_cons] at hv ⊢
      have hle := le_foldl_digit (s.takeWhile isdigit) (digit v c)
      have hdigit := isdigit_iff.mp hc
      have hval : (v : ℤ) * 10 + c.toNat - 0x30 = (digit v c : ℕ) := by
        unfold digit
        omega
      rw [number, if_pos hc, hval, wrap_eq (by decide) ⟨by omega, by omega⟩,
        ih (hs.tail (ne_zero_of_isdigit hc)) hv, List.dropWhile_cons_of_pos hc]

/-- A pointer into a name whose numbers fit an `int`. -/
def Ready (s : List UInt8) : Prop := Terminated s ∧ Below (2 ^ 31) s

lemma Ready.number (h : Ready (c :: s)) (hc : isdigit c = true) :
    value (c :: s.takeWhile isdigit) < 2 ^ 31 ∧ number (c.toNat - 0x30) s =
      .ok ((value (c :: s.takeWhile isdigit) : ℕ), s.dropWhile isdigit) := by
  have hv : value (c :: s.takeWhile isdigit) < 2 ^ 31 :=
    h.2 _ (by rw [tokens_run hc]; exact List.mem_cons_self) hc
  have hdigit := isdigit_iff.mp hc
  have hstart : (c.toNat - 0x30 : ℤ) = (digit 0 c : ℕ) := by
    unfold digit
    omega
  rw [hstart]
  exact ⟨hv, number_eq (h.1.tail (ne_zero_of_isdigit hc)) hv⟩

lemma Ready.tail (h : Ready (c :: s)) (hc : isdigit c = false) (h0 : c ≠ 0) : Ready s :=
  ⟨h.1.tail h0, fun t ht => h.2 t (by rw [tokens_cons hc]; exact List.mem_cons_of_mem _ ht)⟩

lemma Ready.rest (h : Ready (c :: s)) (hc : isdigit c = true) : Ready (s.dropWhile isdigit) := by
  refine ⟨?_, fun t ht => h.2 t (by rw [tokens_run hc]; exact List.mem_cons_of_mem _ ht)⟩
  have hs := h.1.tail (ne_zero_of_isdigit hc)
  clear h
  induction s with
  | nil => exact hs
  | cons d s ih =>
    cases hd : isdigit d with
    | false => rwa [List.dropWhile_cons_of_neg (by simp [hd])]
    | true =>
      rw [List.dropWhile_cons_of_pos hd]
      exact ih (hs.tail (ne_zero_of_isdigit hd))

def Standing (signed : Bool) (k₁ k₂ : List ℕ) (s : List UInt8 × List UInt8) : Prop :=
  Ready s.1 ∧ Ready s.2 ∧
    ∀ r, Orders r (keys signed s.1) (keys signed s.2) → Orders r k₁ k₂

lemma libcmpBody_returns (s : List UInt8 × List UInt8) (h : Standing signed k₁ k₂ s) :
    Returns (libcmpBody signed s)
      (Pass (Standing signed k₁ k₂) (·.1.length) (Orders · k₁ k₂) s) := by
  obtain ⟨h₁, h₂, hk⟩ := h
  obtain ⟨_ | ⟨c₁, p₁⟩, _ | ⟨c₂, p₂⟩⟩ := s
  · exact absurd h₁.1 not_terminated_nil
  · exact absurd h₁.1 not_terminated_nil
  · exact absurd h₂.1 not_terminated_nil
  have hchar := char_range signed c₁
  have hchar₂ := char_range signed c₂
  rw [libcmpBody]
  cases hd₁ : isdigit c₁ <;> cases hd₂ : isdigit c₂
  · rw [keys_cons hd₁, keys_cons hd₂] at hk
    by_cases hc : c₁ = c₂
    · subst hc
      by_cases h0 : c₁ = 0
      · subst h0
        rw [h₁.1.nul, h₂.1.nul] at hk
        rw [if_pos rfl, sub_self]
        exact returns_ok (hk 0 (orders_refl _))
      · rw [if_neg h0, if_neg Bool.false_ne_true, if_neg Bool.false_ne_true, if_neg (not_not.mpr rfl)]
        exact returns_ok ⟨⟨h₁.tail hd₁ h0, h₂.tail hd₂ h0, fun r hr => hk r (orders_cons hr)⟩,
          Nat.lt_succ_self _⟩
    have hr := hk _ (orders_char hc)
    by_cases h0 : c₁ = 0
    · rw [if_pos h0]
      exact returns_ok hr
    · rw [if_neg h0, if_neg Bool.false_ne_true, if_neg Bool.false_ne_true, if_pos hc]
      exact returns_ok hr
  · rw [keys_cons hd₁, keys_run hd₂] at hk
    have hdigit := isdigit_iff.mp hd₂
    by_cases h0 : c₁ = 0
    · subst h0
      refine returns_ok (hk _ (orders_head ?_ ?_ (by omega))) <;> unfold char <;>
        split_ifs <;> simp <;> omega
    · rw [if_neg h0]
      exact returns_ok (hk _ (orders_head (by omega) (by omega) (by omega)))
  · rw [keys_run hd₁, keys_cons hd₂] at hk
    rw [if_neg (ne_zero_of_isdigit hd₁)]
    exact returns_ok (hk _ (orders_head (by omega) (by omega) (by omega)))
  · rw [keys_run hd₁, keys_run hd₂] at hk
    obtain ⟨hv₁, hn₁⟩ := h₁.number hd₁
    obtain ⟨hv₂, hn₂⟩ := h₂.number hd₂
    rw [if_neg (ne_zero_of_isdigit hd₁), if_pos rfl, if_pos rfl, hn₁, hn₂]
    simp only [ok_bind]
    generalize value (c₁ :: p₁.takeWhile isdigit) = v₁ at *
    generalize value (c₂ :: p₂.takeWhile isdigit) = v₂ at *
    by_cases hv : (v₁ : ℤ) = v₂
    · rw [if_neg (not_not.mpr hv)]
      rw [Nat.cast_inj.mp hv] at hk
      refine returns_ok ⟨⟨h₁.rest hd₁, h₂.rest hd₂, fun r hr => hk r (orders_cons hr)⟩, ?_⟩
      exact Nat.lt_succ_of_le (List.dropWhile_suffix _).length_le
    · rw [if_pos hv, wrap_eq (by decide) ⟨by omega, by omega⟩]
      exact returns_ok (hk _ (orders_head (by omega) (by omega) (by omega)))

lemma ready_object {a : CString} (h : Below (2 ^ 31) a.bytes) : Ready a.object := by
  refine ⟨terminated_object a, fun t ht => ?_⟩
  rw [tokens_object, List.mem_append, List.mem_singleton] at ht
  obtain ht | rfl := ht
  · exact h t ht
  · exact fun h => absurd h (by decide)

lemma libcmp_returns {a b : CString} (ha : Below (2 ^ 31) a.bytes) (hb : Below (2 ^ 31) b.bytes) :
    Returns (libcmp signed a.object b.object)
      (Orders · (keys signed a.object) (keys signed b.object)) :=
  iterate_returns (·.1.length) libcmpBody_returns
    ⟨ready_object ha, ready_object hb, fun _ h => h⟩ (Nat.lt_succ_self _)

lemma keys_eq_iff {a b : CString} :
    keys signed a.object = keys signed b.object ↔ stripped a.bytes = stripped b.bytes := by
  have hobject : ∀ w : CString, stripped w.object = stripped w.bytes ++ [[0]] := fun w => by
    rw [stripped, tokens_object, List.map_append]
    rfl
  refine ⟨fun h => List.append_cancel_right (hobject a ▸ hobject b ▸ keys_inj h), fun h => ?_⟩
  simp [keys, hobject, h]

end

def zero : CString := ⟨[0x30], by decide, by decide⟩

/-- "2147483648" -/
def big : CString := ⟨[50, 49, 52, 55, 52, 56, 51, 54, 52, 56], by decide, by decide⟩

lemma not_weakOrder {signed : Bool} (h : 2 ^ 31 < bound) : ¬ WeakOrder signed bound := by
  intro horder
  have hrun : libcmp signed zero.object big.object = .ok (-2147483648) ∧
      libcmp signed big.object zero.object = .ok (-2147483648) := by cases signed <;> decide +kernel
  have hzero : ∀ t ∈ tokens zero.bytes, value t ≤ 2 ^ 31 := by decide +kernel
  have hbig : ∀ t ∈ tokens big.bytes, value t ≤ 2 ^ 31 := by decide +kernel
  have hbelow : Below bound zero.bytes := fun t ht _ => (hzero t ht).trans_lt h
  obtain ⟨ab, ba, _, _, hab, hba, -, -, -, hsign, -⟩ :=
    horder zero big zero hbelow (fun t ht _ => (hbig t ht).trans_lt h) hbelow
  rw [← Except.ok.inj (hrun.1.symm.trans hab), ← Except.ok.inj (hrun.2.symm.trans hba)] at hsign
  exact absurd hsign (by decide)

/-- The comparison is a weak order of the names whose numbers are below `bound`, and ties are
names equal up to leading zeros, exactly if all these numbers fit an `int`. -/
theorem libcmp_weakOrder_iff (signed : Bool) (bound : ℕ) :
    WeakOrder signed bound ↔ bound ≤ 2 ^ 31 := by
  refine ⟨fun h => Nat.le_of_not_lt fun hlt => not_weakOrder hlt h, fun hle a b c ha hb hc => ?_⟩
  have hfits : ∀ {s}, Below bound s → Below (2 ^ 31) s :=
    fun h t ht hd => (h t ht hd).trans_le hle
  have hiff : ∀ {r k₁ k₂}, Orders r k₁ k₂ → ((r = 0 ↔ k₁ = k₂) ∧ (r ≤ 0 ↔ k₁ ≤ k₂)) := by
    intro r k₁ k₂ ho
    rw [← not_lt, ho.2, not_lt]
    refine ⟨⟨fun h => ?_, ?_⟩, Iff.rfl⟩
    · exact le_antisymm (not_lt.mp (mt ho.2.mpr (by omega))) (not_lt.mp (mt ho.1.mpr (by omega)))
    · rintro rfl
      simp only [Orders, lt_self_iff_false, iff_false] at ho
      omega
  obtain ⟨ab, hab, oab⟩ := libcmp_returns (hfits ha) (hfits hb)
  obtain ⟨ba, hba, oba⟩ := libcmp_returns (hfits hb) (hfits ha)
  obtain ⟨bc, hbc, obc⟩ := libcmp_returns (hfits hb) (hfits hc)
  obtain ⟨ac, hac, oac⟩ := libcmp_returns (hfits ha) (hfits hc)
  refine ⟨ab, ba, bc, ac, hab, hba, hbc, hac, (hiff oab).1.trans keys_eq_iff, oab.sign_swap oba,
    fun h h' => (hiff oac).2.mpr (((hiff oab).2.mp h).trans ((hiff obc).2.mp h'))⟩

/-- "4294967296" and "0" tie. -/
theorem libcmp_tie : libcmp true [52, 50, 57, 52, 57, 54, 55, 50, 57, 54, 0] [0x30, 0] = .ok 0 ∧
    stripped [52, 50, 57, 52, 57, 54, 55, 50, 57, 54] ≠ stripped [0x30] := by
  decide +kernel

end Eglibc.DlCache
