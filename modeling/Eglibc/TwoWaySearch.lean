import Eglibc.TwoWayFactor

/-!
# The Two-Way search finds the first occurrence

`Window` says what a client provides: the part `[0, L)` of the haystack that may
hold an occurrence and an `AVAILABLE` that decides whether a window ends inside it.
-/
namespace Eglibc.TwoWay
open Checked Words

def Clean (h w : ℕ → UInt8) (n L j : ℕ) : Prop := ∀ i < j, i + n ≤ L → ¬ Occurs h w n i

def Found (h w : ℕ → UInt8) (n L : ℕ) : Option ℕ → Prop
  | some j => j + n ≤ L ∧ Occurs h w n j ∧ Clean h w n L j
  | none => ∀ i, i + n ≤ L → ¬ Occurs h w n i

/-- `known hl b` is what the client maintains about its lvalue `haystack_len` when
the next window to be tested ends at `b` or later. -/
structure Window (M : Macros) (hay needle : List UInt8) (n L : ℕ) (known : ℕ → ℕ → Prop) :
    Prop where
  n_pos : 0 < n
  n_le : n ≤ needle.length
  n_lt : n < 2 ^ 64
  inside : L ≤ hay.length
  mono : ∀ {hl b b'}, known hl b → b ≤ b' → known hl b'
  available : ∀ {hl j e}, known hl (j + e) → j ≤ L → 0 < e → e ≤ n →
    Returns (M.available hay hl j e)
      (fun a => (a.1 = true ↔ j + e ≤ L) ∧ (j + e ≤ L → known a.2 (j + e)))
  cmp : ∀ {p l}, p + l ≤ n → Returns (M.cmpFunc needle 0 p l)
    (fun z => z = 0 ↔ ∀ i < l, text M needle i = text M needle (i + p))
  ret0 : M.ret0If0 = M.checkEol
  eolEnd : M.checkEol = true → L < hay.length ∧ text M hay L = 0
  eolText : M.checkEol = true → ∀ i < L, text M hay i ≠ 0
  eolNeedle : M.checkEol = true → ∀ i < n, text M needle i ≠ 0
  eolKnown : M.checkEol = true → ∀ {hl b}, known hl b → hl ≤ L
  eolShrink : M.checkEol = true → ∀ {hl b b'}, known hl b → hl ≤ b' → known hl b'

section
variable {h w : ℕ → UInt8} {n L j : ℕ}

lemma Clean.none (hc : Clean h w n L j) (hj : L < j + n) : Found h w n L none :=
  fun i hi => hc i (by omega) hi

theorem Clean.shift (hc : Clean h w n L j) {d : ℕ} (h0 : ¬ Occurs h w n j)
    (hd : ∀ q, 0 < q → q < d → ¬ Occurs h w n (j + q)) : Clean h w n L (j + d) := by
  intro i hi hiL
  rcases lt_trichotomy i j with hij | rfl | hji
  · exact hc i hij hiL
  · exact h0
  · have := hd (i - j) (by omega) (by omega)
    rwa [show j + (i - j) = i by omega] at this

lemma not_occurs_of_ne {i : ℕ} (hi : i < n) (hne : h (j + i) ≠ w i) : ¬ Occurs h w n j :=
  fun ho => hne (ho i hi)

/-- The letters from `a` to `b` of the needle match in the window at `j`. -/
def Agree (h w : ℕ → UInt8) (j a b : ℕ) : Prop := ∀ x, a ≤ x → x < b → h (j + x) = w x

variable {a b c : ℕ}

lemma Agree.empty (hab : b ≤ a) : Agree h w j a b := fun x h1 h2 => absurd h2 (by omega)

lemma Agree.trans (hab : Agree h w j a b) (hbc : Agree h w j b c) : Agree h w j a c := by
  intro x h1 h2
  by_cases hx : x < b
  · exact hab x h1 hx
  · exact hbc x (Nat.le_of_not_lt hx) h2

lemma agree_one (hb : h (j + b) = w b) : Agree h w j b (b + 1) := by
  intro x h1 h2
  obtain rfl : x = b := by omega
  exact hb

lemma Agree.cons (hb : 0 < b) (heq : h (j + (b - 1)) = w (b - 1)) (hbc : Agree h w j b c) :
    Agree h w j (b - 1) c := by
  have hone := agree_one heq
  rw [Nat.sub_add_cancel hb] at hone
  exact hone.trans hbc

lemma Agree.occurs (hab : Agree h w j 0 n) : Occurs h w n j := fun x hx => hab x (Nat.zero_le x) hx

end

variable {M : Macros} {hay needle : List UInt8} {n L : ℕ} {known : ℕ → ℕ → Prop}

section
variable {j bound i₀ suffix m : ℕ} {more : ℕ → Bool}

lemma scanRight_returns (hneedle : bound ≤ needle.length) (hhay : j + bound ≤ hay.length) :
    Returns (scanRight M hay needle j bound i₀) (fun i => i₀ ≤ i ∧ i ≤ max i₀ bound ∧
      Agree (text M hay) (text M needle) j i₀ i ∧
      (i < bound → text M hay (j + i) ≠ text M needle i)) := by
  refine iterate_returns (I := fun i => i₀ ≤ i ∧ i ≤ max i₀ bound ∧
    Agree (text M hay) (text M needle) j i₀ i) (fun i => bound - i) ?_
    ⟨le_rfl, le_max_left _ _, Agree.empty le_rfl⟩ (by omega)
  rintro i ⟨hi0, hile, hm⟩
  unfold scanRightBody
  split_ifs with hi
  · rw [load_eq 0 (by omega), ok_bind, load_eq 0 (by omega), ok_bind, Nat.add_comm i j]
    split_ifs with heq
    · exact returns_ok ⟨⟨by omega, by omega, hm.trans (agree_one heq.symm)⟩, by dsimp only; omega⟩
    · exact returns_ok ⟨hi0, hile, hm, fun _ he => heq he.symm⟩
  · exact returns_ok ⟨hi0, hile, hm, fun h => absurd h hi⟩

theorem scanLeft_returns (hs : suffix < 2 ^ 64)
    (hmore : ∀ c ≤ suffix, more (sizeSub c 1) = true ↔ m < c)
    (hneedle : suffix ≤ needle.length) (hhay : j + suffix ≤ hay.length) :
    Returns (scanLeft M hay needle j more suffix) (fun i => ∃ c, i = sizeSub c 1 ∧ c ≤ suffix ∧
      Agree (text M hay) (text M needle) j c suffix ∧
      (m < c → text M hay (j + (c - 1)) ≠ text M needle (c - 1))) := by
  refine iterate_returns (I := fun i => ∃ c, i = sizeSub c 1 ∧ c ≤ suffix ∧
    Agree (text M hay) (text M needle) j c suffix) (fun i => sizeAdd i 1) ?_
    ⟨suffix, rfl, le_rfl, Agree.empty le_rfl⟩ (by rw [sizeAdd_pred_one hs]; omega)
  rintro i ⟨c, rfl, hc, hm⟩
  unfold scanLeftBody
  by_cases hi : m < c
  · have hpred : sizeSub c 1 = c - 1 := sizeSub_eq (by omega) (by omega)
    rw [if_pos ((hmore c hc).mpr hi), hpred, load_eq 0 (by omega), ok_bind,
      load_eq 0 (by omega), ok_bind, Nat.add_comm (c - 1) j]
    split_ifs with heq
    · refine returns_ok ⟨⟨c - 1, rfl, by omega, hm.cons (by omega) heq.symm⟩, ?_⟩
      dsimp only
      rw [sizeAdd_pred_one (by omega), sizeAdd_eq (by omega)]
      omega
    · exact returns_ok ⟨c, hpred.symm, hc, hm, fun _ he => heq he.symm⟩
  · rw [if_neg (mt (hmore c hc).mp hi)]
    exact returns_ok ⟨c, rfl, hc, hm, fun h => absurd h hi⟩

end

section
variable {l p : ℕ}

structure PeriodicInv (M : Macros) (hay needle : List UInt8) (n L : ℕ) (known : ℕ → ℕ → Prop)
    (p : ℕ) (s : Periodic) : Prop where
  j_le : s.j ≤ L
  known : known s.haystackLen (s.j + n)
  clean : Clean (text M hay) (text M needle) n L s.j
  memory : s.memory = 0 ∨ s.memory = n - p
  matched : ∀ x < s.memory, text M hay (s.j + x) = text M needle x

abbrev PeriodicPass (M : Macros) (hay needle : List UInt8) (n L : ℕ) (known : ℕ → ℕ → Prop)
    (p : ℕ) (s : Periodic) : Periodic ⊕ Option ℕ → Prop :=
  Pass (PeriodicInv M hay needle n L known p) (fun s => L + 1 - s.j)
    (Found (text M hay) (text M needle) n L) s

lemma periodicWindow_returns (W : Window M hay needle n L known)
    (hc : Critical (text M needle) n l p) (hp : Period (text M needle) 0 n p)
    {bound : ℕ} {s : Periodic} (hs : PeriodicInv M hay needle n L known p s)
    (hj : s.j + n ≤ L) (hb : bound ≤ n) (hlast : Agree (text M hay) (text M needle) s.j bound n) :
    Returns (periodicWindow M hay needle n l p bound s)
      (PeriodicPass M hay needle n L known p s) := by
  have hin := W.inside
  have hnl := W.n_le
  have hn := W.n_lt
  have hfit := hc.right.fits
  have hpos := hc.right.pos
  refine (scanRight_returns (by omega) (by omega)).bind ?_
  rintro i ⟨hi0, hile, hm, hne⟩
  -- What is known of the right half: the remembered letters, the scanned ones, the last ones.
  have hright : Agree (text M hay) (text M needle) s.j l i := by
    intro x hlx hxi
    by_cases hx : x < s.memory
    · exact hs.matched x hx
    · exact hm x (by omega) hxi
  by_cases hbi : bound ≤ i
  · have hfull : Agree (text M hay) (text M needle) s.j l n :=
      hright.trans fun x h1 h2 => hlast x (by omega) h2
    rw [if_pos hbi]
    refine (scanLeft_returns (m := s.memory) (by omega) ?_ (by omega) (by omega)).bind ?_
    · intro c hcl
      simp only [decide_eq_true_iff]
      rw [sizeAdd_pred_one (by omega)]
    rintro i ⟨c, rfl, hcl, hleft, hstop⟩
    rw [sizeAdd_pred_one (by omega)]
    split_ifs with hcm
    · have hmemory : Agree (text M hay) (text M needle) s.j 0 c :=
        fun x _ hx => hs.matched x (by omega)
      exact returns_ok ⟨hj, ((hmemory.trans hleft).trans hfull).occurs, hs.clean⟩
    refine returns_ok ⟨⟨by dsimp only; omega, W.mono hs.known (by dsimp only; omega), ?_,
      .inr rfl, hc.memory hp hfull⟩, by dsimp only; omega⟩
    exact hs.clean.shift (not_occurs_of_ne (by omega) (hstop (by omega)))
      fun q h1 h2 => hc.period_shift hfull h1 h2
  rw [if_neg hbi]
  have hmis := hne (by omega)
  refine returns_ok ⟨⟨by dsimp only; omega, W.mono hs.known (by dsimp only; omega), ?_,
    .inl rfl, fun x hx => absurd hx (Nat.not_lt_zero x)⟩, by dsimp only; omega⟩
  exact hs.clean.shift (not_occurs_of_ne (by omega) hmis)
    fun q h1 h2 => hc.right_shift (by omega) (by omega) hright hmis h1 (by omega)

lemma shortPeriodicBody_returns (W : Window M hay needle n L known)
    (hc : Critical (text M needle) n l p) (hp : Period (text M needle) 0 n p)
    (s : Periodic) (hs : PeriodicInv M hay needle n L known p s) :
    Returns (shortPeriodicBody M hay needle n l p s)
      (PeriodicPass M hay needle n L known p s) := by
  refine (W.available hs.known hs.j_le W.n_pos le_rfl).bind ?_
  rintro ⟨ok, hl⟩ ⟨hok, hknown⟩
  dsimp only at hok hknown ⊢
  by_cases hj : s.j + n ≤ L
  · rw [if_pos (hok.mpr hj)]
    exact periodicWindow_returns W hc hp
      ⟨hs.j_le, hknown hj, hs.clean, hs.memory, hs.matched⟩ hj le_rfl
      (Agree.empty le_rfl)
  · rw [if_neg (mt hok.mp hj)]
    exact returns_ok (hs.clean.none (by omega))

end

/-- The entry of a letter is the distance of its last occurrence from the end. -/
def ShiftEntry (w : ℕ → UInt8) (n i : ℕ) (c : UInt8) (t : ℕ) : Prop :=
  (t = n ∧ ∀ x < i, w x ≠ c) ∨
    ∃ x < i, t = n - x - 1 ∧ w x = c ∧ ∀ y, x < y → y < i → w y ≠ c

def ShiftTable (w : ℕ → UInt8) (n i : ℕ) (table : List ℕ) : Prop :=
  table.length = 256 ∧ ∀ c : UInt8, ShiftEntry w n i c (table.getD c.toNat 0)

lemma shiftTable_returns (hn : n ≤ needle.length) :
    Returns (shiftTable M needle n) (ShiftTable (text M needle) n n) := by
  refine iterate_returns (I := fun s => s.2 ≤ n ∧ ShiftTable (text M needle) n s.2 s.1)
    (fun s => n - s.2) ?_ ⟨Nat.zero_le n, List.length_replicate,
      fun c => .inl ⟨?_, fun x hx => absurd hx (Nat.not_lt_zero x)⟩⟩ (by omega)
  · rintro ⟨table, i⟩ ⟨hi, hlen, ht⟩
    dsimp only at hi hlen ht
    unfold shiftTableBody
    dsimp only
    by_cases hin : i < n
    · have hbyte := (M.canonElement (needle.getD i 0)).toNat_lt
      rw [if_pos hin, load_eq 0 (by omega), ok_bind, store_eq (by omega), ok_bind]
      refine returns_ok ⟨⟨hin, by simpa using hlen, fun c => ?_⟩, by dsimp only; omega⟩
      rw [getD_set _ _ _ (by omega)]
      by_cases hc : M.canonElement (needle.getD i 0) = c
      · subst hc
        rw [if_pos rfl]
        exact .inr ⟨i, Nat.lt_succ_self i, rfl, rfl, fun y h1 h2 => absurd h1 (by omega)⟩
      have hne : (M.canonElement (needle.getD i 0)).toNat ≠ c.toNat :=
        fun he => hc (UInt8.toNat_inj.mp he)
      rw [if_neg hne]
      rcases ht c with ⟨he, hx⟩ | ⟨x, hxi, he, hw, hy⟩
      · refine .inl ⟨he, fun x hxi => ?_⟩
        rcases Nat.lt_succ_iff_lt_or_eq.mp hxi with hlt | rfl
        · exact hx x hlt
        · exact hc
      refine .inr ⟨x, by omega, he, hw, fun y h1 h2 => ?_⟩
      rcases Nat.lt_succ_iff_lt_or_eq.mp h2 with hlt | rfl
      · exact hy y h1 hlt
      · exact hc
    · rw [if_neg hin]
      obtain rfl : i = n := by omega
      exact returns_ok ⟨hlen, ht⟩
  · exact List.getD_replicate _ c.toNat_lt

section
variable {h w : ℕ → UInt8} {j t : ℕ}

lemma ShiftEntry.le (he : ShiftEntry w n n (h j) t) : t ≤ n := by
  rcases he with ⟨rfl, _⟩ | ⟨x, _, rfl, _⟩ <;> omega

lemma ShiftEntry.last (he : ShiftEntry w n n (h (j + n - 1)) 0) (hn : 0 < n) :
    Agree h w j (n - 1) n := by
  refine Agree.cons hn ?_ (Agree.empty le_rfl)
  rcases he with ⟨h0, _⟩ | ⟨x, hx, h0, hw, _⟩
  · omega
  · rw [show j + (n - 1) = j + n - 1 by omega, show n - 1 = x by omega, hw]

/-- The bad-character rule. -/
theorem ShiftEntry.not_occurs (he : ShiftEntry w n n (h (j + n - 1)) t) {q : ℕ} (hq : q < t) :
    ¬ Occurs h w n (j + q) := by
  intro ho
  have hle : t ≤ n := he.le
  have hw := ho (n - 1 - q) (by omega)
  rw [show j + q + (n - 1 - q) = j + n - 1 by omega] at hw
  rcases he with ⟨_, hx⟩ | ⟨x, hx, ht, _, hy⟩
  · exact hx (n - 1 - q) (by omega) hw.symm
  · exact hy (n - 1 - q) (by omega) (by omega) hw.symm

end

section
variable {l p : ℕ} {table : List ℕ}

lemma longPeriodicBody_returns (W : Window M hay needle n L known)
    (hc : Critical (text M needle) n l p) (hp : Period (text M needle) 0 n p)
    (ht : ShiftTable (text M needle) n n table)
    (s : Periodic) (hs : PeriodicInv M hay needle n L known p s) :
    Returns (longPeriodicBody M hay needle n l p table s)
      (PeriodicPass M hay needle n L known p s) := by
  have hin := W.inside
  have hpos := W.n_pos
  have hp0 := hc.right.pos
  refine (W.available hs.known hs.j_le W.n_pos le_rfl).bind ?_
  rintro ⟨ok, hl⟩ ⟨hok, hknown⟩
  dsimp only at hok hknown ⊢
  by_cases hj : s.j + n ≤ L
  · have hentry := ht.2 (text M hay (s.j + n - 1))
    have hbyte := (text M hay (s.j + n - 1)).toNat_lt
    rw [if_pos (hok.mpr hj), load_eq 0 (by omega), ok_bind]
    change Returns (load table (text M hay (s.j + n - 1)).toNat >>= _) _
    rw [load_eq 0 (by rw [ht.1]; exact hbyte), ok_bind]
    generalize table.getD (text M hay (s.j + n - 1)).toNat 0 = t at hentry ⊢
    have hle := hentry.le
    by_cases ht0 : 0 < t
    · split_ifs with hrule
      · have hmem : s.memory = n - p := hs.memory.resolve_left hrule.1
        have hne : text M hay (s.j + (n - 1)) ≠ text M needle (n - 1) := by
          intro he
          rcases hentry with ⟨_, hx⟩ | ⟨x, hx, hxt, _, hy⟩
          · exact hx (n - 1) (by omega) (he.symm.trans (by congr 1; omega))
          · exact hy (n - 1) (by omega) (by omega) (he.symm.trans (by congr 1; omega))
        refine returns_ok ⟨⟨by dsimp only; omega, W.mono (hknown hj) (by dsimp only; omega), ?_,
          .inl rfl, fun x hx => absurd hx (Nat.not_lt_zero x)⟩, by dsimp only; omega⟩
        have hskip : ∀ q < n - p, ¬ Occurs (text M hay) (text M needle) n (s.j + q) :=
          fun q hq => not_occurs_of_memory hp (hmem ▸ hs.matched) hne hp0 (by omega) hq
        exact hs.clean.shift (hskip 0 (by omega)) fun q _ hq => hskip q hq
      refine returns_ok ⟨⟨by dsimp only; omega, W.mono (hknown hj) (by dsimp only; omega), ?_,
        .inl rfl, fun x hx => absurd hx (Nat.not_lt_zero x)⟩, by dsimp only; omega⟩
      exact hs.clean.shift (hentry.not_occurs (q := 0) ht0) fun q _ hq => hentry.not_occurs hq
    obtain rfl : t = 0 := by omega
    exact periodicWindow_returns W hc hp
      ⟨hs.j_le, hknown hj, hs.clean, hs.memory, hs.matched⟩ hj (by omega) (hentry.last hpos)
  · rw [if_neg (mt hok.mp hj)]
    exact returns_ok (hs.clean.none (by omega))

end

end Eglibc.TwoWay
