import Eglibc.Checked

/-!
# Addresses in text form

Model of `inet_pton4` and `inet_pton6` of `resolv/inet_pton.c`. The terminator is the end of
the list of characters. The array `tmp` is given by the bytes in front of `tp`.
-/
namespace Eglibc.InetPton

def tolower (c : Char) : Char := if 'A' ≤ c ∧ c ≤ 'Z' then Char.ofNat (c.toNat + 32) else c

def decimal (c : Char) : Option ℕ := if '0' ≤ c ∧ c ≤ '9' then some (c.toNat - 48) else none

/-- The loop of `inet_pton4`; `tp` is the byte that it points to. -/
def pton4Loop : List Char → List UInt8 → ℕ → Bool → ℕ → Option (List UInt8)
  | [], tmp, tp, _, octets => if octets < 4 then none else some (tmp ++ [UInt8.ofNat tp])
  | ch :: src, tmp, tp, sawDigit, octets =>
    match decimal ch with
    | some d =>
      let new := tp * 10 + d
      if sawDigit ∧ tp = 0 then none
      else if new > 255 then none
      else if sawDigit then pton4Loop src tmp new true octets
      else if octets + 1 > 4 then none
      else pton4Loop src tmp new true (octets + 1)
    | none =>
      if ch = '.' ∧ sawDigit then
        if octets = 4 then none else pton4Loop src (tmp ++ [UInt8.ofNat tp]) 0 false octets
      else none

def quad (src : List Char) : Option (List UInt8) := pton4Loop src [] 0 false 0

def returned (dst : List UInt8) : Option (List UInt8) → ℕ × List UInt8
  | none => (0, dst)
  | some bytes => (1, bytes)

def inetPton4 (src : List Char) (dst : List UInt8) : ℕ × List UInt8 := returned dst (quad src)

def xdigits : List Char :=
  ['0', '1', '2', '3', '4', '5', '6', '7', '8', '9', 'a', 'b', 'c', 'd', 'e', 'f']

/-- `pch - xdigits` -/
def xdigit (c : Char) : Option ℕ := xdigits.idxOf? (tolower c)

/-- The shift by hand: `m` bytes from `colonp` on are left to be moved to the front of `e`. -/
def shift (colonp : ℕ) : ℕ → ℕ → List UInt8 → List UInt8
  | 0, _, tmp => tmp
  | m + 1, e, tmp =>
    shift colonp m (e - 1) ((tmp.set (e - 1) (tmp.getD (colonp + m) 0)).set (colonp + m) 0)

def finish (tmp : List UInt8) : Option ℕ → Option (List UInt8)
  | none => if tmp.length = 16 then some tmp else none
  | some colonp =>
    if tmp.length = 16 then none
    else some (shift colonp (tmp.length - colonp) 16 (tmp ++ List.replicate (16 - tmp.length) 0))

def word (val : ℕ) : List UInt8 := [UInt8.ofNat (val >>> 8), UInt8.ofNat val]

def pton6End (tmp : List UInt8) (colonp : Option ℕ) (sawXdigit : Bool) (val : ℕ) : Option (List UInt8) :=
  if sawXdigit then if tmp.length + 2 > 16 then none else finish (tmp ++ word val) colonp
  else finish tmp colonp

/-- The loop of `inet_pton6` and what follows it. -/
def pton6Loop : List Char → List UInt8 → Option ℕ → List Char → Bool → ℕ → Option (List UInt8)
  | [], tmp, colonp, _, sawXdigit, val => pton6End tmp colonp sawXdigit val
  | c :: src, tmp, colonp, curtok, sawXdigit, val =>
    match xdigit c with
    | some d =>
      if val <<< 4 ||| d > 0xffff then none
      else pton6Loop src tmp colonp curtok true (val <<< 4 ||| d)
    | none =>
      if tolower c = ':' then
        if sawXdigit then
          if src = [] then none
          else if tmp.length + 2 > 16 then none
          else pton6Loop src (tmp ++ word val) colonp src false 0
        else if colonp.isSome then none
        else pton6Loop src tmp (some tmp.length) src false val
      else if tolower c = '.' ∧ tmp.length + 4 ≤ 16 then
        (quad curtok).bind fun bytes => pton6End (tmp ++ bytes) colonp false val
      else none

def address : List Char → Option (List UInt8)
  | ':' :: ':' :: src => pton6Loop (':' :: src) [] none (':' :: src) false 0
  | ':' :: _ => none
  | src => pton6Loop src [] none src false 0

def inetPton6 (src : List Char) (dst : List UInt8) : ℕ × List UInt8 := returned dst (address src)

/-! ## Syntax -/

def dec (a : UInt8) : List Char := Nat.toDigits 10 a.toNat

def dotted : List UInt8 → List Char
  | [] => []
  | [a] => dec a
  | a :: as => dec a ++ '.' :: dotted as

def Quad (s : List Char) (v : List UInt8) : Prop := v.length = 4 ∧ s = dotted v

inductive Hex : List Char → ℕ → Prop
  | nil : Hex [] 0
  | snoc {g : List Char} {v d : ℕ} {c : Char} (h : Hex g v) (hc : xdigit c = some d) :
    Hex (g ++ [c]) (v * 16 + d)

section

variable (short : List Char → Prop)

/-- A group of digits that is `short` and whose value has 16 bits. -/
def Group (g : List Char) (v : ℕ) : Prop := Hex g v ∧ g ≠ [] ∧ short g ∧ v ≤ 0xffff

/-- Groups, the last of which may be a dotted quad. -/
inductive Seq : List Char → List UInt8 → Prop
  | group {g : List Char} {v : ℕ} (h : Group short g v) : Seq g (word v)
  | quad {s : List Char} {v : List UInt8} (h : Quad s v) : Seq s v
  | cons {g s : List Char} {v : ℕ} {w : List UInt8} (h : Group short g v) (hs : Seq s w) :
    Seq (g ++ ':' :: s) (word v ++ w)

/-- Groups with a colon behind each of them. -/
inductive Before : List Char → List UInt8 → Prop
  | nil : Before [] []
  | cons {g s : List Char} {v : ℕ} {w : List UInt8} (h : Group short g v) (hs : Before s w) :
    Before (g ++ ':' :: s) (word v ++ w)

def After (s : List Char) (w : List UInt8) : Prop := Seq short s w ∨ s = [] ∧ w = []

/-- The two forms of an address, the second one with `::`. -/
def Address (s : List Char) (v : List UInt8) : Prop :=
  Seq short s v ∧ v.length = 16 ∨
    ∃ u v₁ r v₂, Before short u v₁ ∧ After short r v₂ ∧ v₁.length + v₂.length < 16 ∧
      s = (if u = [] then [':', ':'] else u ++ [':']) ++ r ∧
      v = v₁ ++ List.replicate (16 - (v₁.length + v₂.length)) 0 ++ v₂

end

/-- The standard form: groups have one to four digits. -/
def Standard (s : List Char) (v : List UInt8) : Prop := Address (fun g => g.length ≤ 4) s v

/-- The form that bounds groups by their values only. -/
def Value (s : List Char) (v : List UInt8) : Prop := Address (fun _ => True) s v

/-! ## Dotted quads -/

section

variable {s : List Char} {tmp v : List UInt8} {tp octets : ℕ}

lemma toDigits_snoc (hn : n ≠ 0) (hd : d < 10) :
    Nat.toDigits 10 (n * 10 + d) = Nat.toDigits 10 n ++ [Nat.digitChar d] := by
  rw [Nat.toDigits_of_base_le (by decide) (by omega)]
  simp [Nat.mul_add_mod_self_right, Nat.mod_eq_of_lt hd, show (n * 10 + d) / 10 = n by omega]

lemma decimal_digitChar (hd : d < 10) : decimal (Nat.digitChar d) = some d := by
  have hall : ∀ d < 10, decimal (Nat.digitChar d) = some d := by decide
  exact hall d hd

lemma scan_dec (hn : n < 256) (ho : octets < 4) :
    pton4Loop (Nat.toDigits 10 n ++ s) tmp 0 false octets = pton4Loop s tmp n true (octets + 1) := by
  induction n using Nat.strong_induction_on generalizing s with
  | _ n ih =>
    by_cases hsmall : n < 10
    · rw [Nat.toDigits_of_lt_base hsmall]
      simp [pton4Loop, decimal_digitChar hsmall, show ¬ 255 < n by omega, show ¬ 4 ≤ octets by omega]
    rw [Nat.toDigits_of_base_le (by decide) (by omega), List.append_assoc,
      ih (n / 10) (by omega) (by omega)]
    simp [pton4Loop, decimal_digitChar (Nat.mod_lt n (by decide : 10 > 0)), show ¬ n < 10 by omega,
      show n / 10 * 10 + n % 10 = n by omega, show ¬ 255 < n by omega]

lemma eq_digitChar_of_decimal (h : decimal c = some d) : d < 10 ∧ c = Nat.digitChar d := by
  simp [decimal] at h
  obtain ⟨⟨hlow, hhigh⟩, rfl⟩ := h
  have hlow' : 48 ≤ c.toNat := hlow
  have hhigh' : c.toNat ≤ 57 := hhigh
  have hc := Char.ofNat_toNat c
  generalize c.toNat = n at *
  interval_cases n <;> subst hc <;> decide

lemma dec_ofNat (h : tp < 256) : dec (UInt8.ofNat tp) = Nat.toDigits 10 tp := by
  rw [dec, UInt8.toNat_ofNat_of_lt' h]

lemma pton4Loop_sound (htp : tp < 256) (ho : octets ≤ 4)
    (hg : if sawDigit then g = Nat.toDigits 10 tp else g = [] ∧ tp = 0 ∧ octets < 4)
    (h : pton4Loop s tmp tp sawDigit octets = some v) :
    ∃ as, as ≠ [] ∧ as.length + octets = 4 + sawDigit.toNat ∧ g ++ s = dotted as ∧ v = tmp ++ as := by
  induction s generalizing tmp tp sawDigit octets g with
  | nil =>
    simp only [pton4Loop, Option.ite_none_left_eq_some, Option.some.injEq] at h
    obtain ⟨hfour, rfl⟩ := h
    cases sawDigit with
    | false => exact absurd hg.2.2 hfour
    | true =>
      refine ⟨[UInt8.ofNat tp], by simp, by simp; omega, ?_, rfl⟩
      rwa [dotted, dec_ofNat htp, List.append_nil]
  | cons c s ih =>
    rw [pton4Loop] at h
    cases hc : decimal c with
    | some d =>
      obtain ⟨hd, rfl⟩ := eq_digitChar_of_decimal hc
      cases sawDigit with
      | false =>
        obtain ⟨rfl, rfl, hlt⟩ := hg
        simp [hc] at h
        obtain ⟨hnew, -, h⟩ := h
        obtain ⟨as, hne, hlen, hs, rfl⟩ := ih (g := [Nat.digitChar d]) (by omega) (by omega)
          (by simp [Nat.toDigits_of_lt_base hd]) h
        exact ⟨as, hne, by simp at hlen ⊢; omega, hs, rfl⟩
      | true =>
        simp [hc] at h
        obtain ⟨hzero, hnew, h⟩ := h
        obtain ⟨as, hne, hlen, hs, rfl⟩ := ih (g := g ++ [Nat.digitChar d]) (by omega) ho
          (by simp only [if_true] at hg ⊢; rw [hg, toDigits_snoc hzero hd]) h
        exact ⟨as, hne, hlen, by simpa using hs, rfl⟩
    | none =>
      simp [hc] at h
      obtain ⟨⟨rfl, rfl⟩, hfour, h⟩ := h
      obtain ⟨as, hne, hlen, hs, rfl⟩ := ih (g := []) (by decide) ho (by simp; omega) h
      refine ⟨UInt8.ofNat tp :: as, by simp, by simp at hlen ⊢; omega, ?_, by simp⟩
      rwa [dotted, dec_ofNat htp, hg, ← hs, List.nil_append]

lemma pton4Loop_dotted (hne : as ≠ []) (hlen : as.length + octets = 4) :
    pton4Loop (dotted as) tmp 0 false octets = some (tmp ++ as) := by
  induction as generalizing tmp octets with
  | nil => exact absurd rfl hne
  | cons a as ih =>
    have ho : octets < 4 := by simp at hlen; omega
    cases as with
    | nil =>
      rw [dotted, dec, ← List.append_nil (Nat.toDigits 10 _), scan_dec a.toNat_lt ho, pton4Loop,
        if_neg (by simp at hlen; omega), UInt8.ofNat_toNat]
    | cons b bs =>
      rw [dotted, dec, scan_dec a.toNat_lt ho, pton4Loop]
      · have hdot : decimal '.' = none := by decide
        simp only [hdot, and_self, if_true, UInt8.ofNat_toNat]
        rw [if_neg (by simp at hlen; omega), ih (by simp) (by simp at hlen ⊢; omega)]
        simp
      · simp

lemma quad_eq_some : quad s = some v ↔ Quad s v := by
  constructor
  · intro h
    obtain ⟨as, -, hlen, hs, rfl⟩ := pton4Loop_sound (g := []) (by decide) (by decide) (by simp) h
    exact ⟨hlen, hs⟩
  · rintro ⟨hlen, rfl⟩
    exact pton4Loop_dotted (List.ne_nil_of_length_eq_add_one hlen) hlen

end

/-! ## The words of an address -/

section

variable {s g : List Char} {tmp v w : List UInt8} {colonp : Option ℕ} {val : ℕ}

lemma xdigit_lt (h : xdigit c = some d) : d < 16 := by
  rw [xdigit, List.idxOf?, List.findIdx?_eq_some_iff_findIdx_eq] at h
  exact h.1

lemma Hex.xdigit (h : Hex g val) : ∀ c ∈ g, (InetPton.xdigit c).isSome := by
  induction h with
  | nil => simp
  | snoc h hc ih => simpa [or_imp, forall_and, hc] using ih

lemma shl_or (hd : d < 16) : val <<< 4 ||| d = val * 16 + d := by
  rw [← Nat.shiftLeft_add_eq_or_of_lt hd, Nat.shiftLeft_eq]

lemma scan_hex (hg : Hex g val) (hv : val ≤ 0xffff) :
    pton6Loop (g ++ s) tmp colonp tok false 0 = pton6Loop s tmp colonp tok (decide (g ≠ [])) val := by
  induction hg generalizing s with
  | nil => rfl
  | snoc h hc ih =>
    rw [List.append_assoc, ih (by omega), List.singleton_append, pton6Loop, hc]
    simp [shl_or (xdigit_lt hc), not_lt.mpr hv]

lemma shift_eq (hz : 0 < z) (he : e = u.length + x.length + z) :
    shift u.length x.length e (u ++ x ++ List.replicate z 0 ++ y) =
      u ++ List.replicate z 0 ++ (x ++ y) := by
  induction x using List.reverseRecOn generalizing e y with
  | nil => simp [shift]
  | append_singleton x c ih =>
    obtain ⟨z, rfl⟩ := Nat.exists_eq_add_of_lt hz
    simp only [zero_add] at *
    have hstep : ((u ++ (x ++ [c]) ++ List.replicate (z + 1) 0 ++ y).set (e - 1) c).set
        (u.length + x.length) 0 = u ++ x ++ List.replicate (z + 1) 0 ++ (c :: y) := by
      have hlast : e - 1 = (u ++ x ++ [c] ++ List.replicate z 0).length := by simp [he]; omega
      rw [hlast, ← List.length_append]
      nth_rewrite 1 [List.replicate_succ']
      simp [List.replicate_succ]
    have hget : (u ++ (x ++ [c]) ++ List.replicate (z + 1) 0 ++ y).getD (u.length + x.length) 0 = c := by
      simp
    rw [List.length_append, List.length_singleton, shift, hget, hstep, ih (by simp at he; omega)]
    simp

lemma finish_colon (hlen : u.length + x.length ≤ 16) :
    finish (u ++ x) (some u.length) = some v ↔ u.length + x.length < 16 ∧
      v = u ++ List.replicate (16 - (u.length + x.length)) 0 ++ x := by
  by_cases hfull : u.length + x.length = 16
  · simp [finish, hfull]
  have hshift := shift_eq (u := u) (x := x) (z := 16 - (u.length + x.length)) (e := 16) (y := [])
    (by omega) (by omega)
  rw [List.append_nil, List.append_nil] at hshift
  simp only [finish, List.length_append, hfull, if_false, Nat.add_sub_cancel_left, hshift,
    Option.some.injEq, eq_comm, show u.length + x.length < 16 by omega, true_and]

lemma finish_none : finish tmp none = some v ↔ v = tmp ∧ v.length = 16 := by
  simpa [finish] using ⟨fun h => h.2 ▸ ⟨rfl, h.1⟩, fun h => h.1 ▸ ⟨h.2, rfl⟩⟩

lemma colon_or_dot (h : tolower c = d) (hd : d = ':' ∨ d = '.') : c = d := by
  rw [tolower] at h
  split_ifs at h with hcap
  · have hlow : 65 ≤ c.toNat := hcap.1
    have hhigh : c.toNat ≤ 90 := hcap.2
    exfalso
    generalize c.toNat = n at *
    interval_cases n <;> rcases hd with rfl | rfl <;> exact absurd h (by decide)
  · exact h

lemma pton6Loop_sound (hg : Hex g val) (hv : val ≤ 0xffff) (htmp : tmp.length ≤ 16)
    (h : pton6Loop s tmp colonp (g ++ s) (decide (g ≠ [])) val = some v) :
    (∃ w, After (fun _ => True) (g ++ s) w ∧ tmp.length + w.length ≤ 16 ∧
      finish (tmp ++ w) colonp = some v) ∨
    (colonp = none ∧ ∃ u w1 r w2, g ++ s = u ++ ':' :: r ∧ Before (fun _ => True) u w1 ∧
      After (fun _ => True) r w2 ∧ (tmp ++ w1).length + w2.length ≤ 16 ∧
      finish (tmp ++ w1 ++ w2) (some (tmp ++ w1).length) = some v) := by
  induction s generalizing tmp colonp g val with
  | nil =>
    rw [pton6Loop, pton6End] at h
    by_cases hnil : g = []
    · subst hnil
      exact .inl ⟨[], .inr ⟨rfl, rfl⟩, by simpa using htmp, by simpa using h⟩
    · simp only [decide_eq_true hnil, if_true, Option.ite_none_left_eq_some] at h
      exact .inl ⟨word val, .inl (by simpa using Seq.group ⟨hg, hnil, trivial, hv⟩),
        not_lt.mp h.1, h.2⟩
  | cons c s ih =>
    rw [pton6Loop] at h
    cases hc : xdigit c with
    | some d =>
      simp only [hc, shl_or (xdigit_lt hc), Option.ite_none_left_eq_some] at h
      have hrest := ih (g := g ++ [c]) (hg.snoc hc) (not_lt.mp h.1) htmp (by simpa using h.2)
      simpa using hrest
    | none =>
      simp only [hc] at h
      split_ifs at h with hcolon hsaw hend hroom hfirst hdot
      · -- a group ends
        obtain rfl := colon_or_dot hcolon (.inl rfl)
        have hgroup : Group (fun _ => True) g val := ⟨hg, of_decide_eq_true hsaw, trivial, hv⟩
        have hlen : (tmp ++ word val).length = tmp.length + 2 := by simp [word]
        rcases ih Hex.nil (by decide) (by omega) h with ⟨w, hw, hsize, hfin⟩ | ⟨rfl, hrest⟩
        · refine .inl ⟨word val ++ w, .inl (Seq.cons hgroup (hw.resolve_right fun h => hend h.1)),
            ?_, by rwa [← List.append_assoc]⟩
          simpa [add_assoc] using hsize
        obtain ⟨u, w1, r, w2, hs, hu, hr, hsize, hfin⟩ := hrest
        rw [List.append_assoc tmp] at hsize hfin
        exact .inr ⟨rfl, g ++ ':' :: u, word val ++ w1, r, w2, by simp at hs; simp [hs],
          Before.cons hgroup hu, hr, hsize, hfin⟩
      · -- the two colons
        obtain rfl := colon_or_dot hcolon (.inl rfl)
        have hnil : g = [] := by simpa using hsaw
        have hnone : colonp = none := by simpa using hfirst
        subst hnil hnone
        rcases ih (g := []) hg hv htmp h with ⟨w, hw, hsize, hfin⟩ | ⟨hsome, -⟩
        · exact .inr ⟨rfl, [], [], s, w, rfl, Before.nil, hw, by simpa using hsize, by simpa using hfin⟩
        · exact absurd hsome (by simp)
      · -- a dotted quad
        obtain ⟨bytes, hquad, hfin⟩ := Option.bind_eq_some_iff.mp h
        have hq := quad_eq_some.mp hquad
        exact .inl ⟨bytes, .inl (Seq.quad hq), by rw [hq.1]; exact hdot.2, hfin⟩

lemma hex_toDigits (hb : 10 ≤ b) (hb' : b ≤ 16) (n : ℕ) :
    ∃ v, Hex (Nat.toDigits b n) v ∧ v ≤ n * n ∧ (b = 16 → v = n) := by
  have hdigit : ∀ d < 16, xdigit (Nat.digitChar d) = some d := by decide
  induction n using Nat.strong_induction_on with
  | _ n ih =>
    by_cases hsmall : n < b
    · refine ⟨0 * 16 + n, ?_, by nlinarith, fun _ => by omega⟩
      rw [Nat.toDigits_of_lt_base hsmall]
      exact Hex.nil.snoc (hdigit n (by omega))
    have hdiv : 0 < n / b := Nat.div_pos (by omega) (by omega)
    obtain ⟨v, hv, hle, hsame⟩ := ih (n / b) (Nat.div_lt_self (by omega) (by omega))
    have hmod : n % b < b := Nat.mod_lt n (by omega)
    rw [Nat.toDigits_of_base_le (by omega) (by omega)]
    refine ⟨_, hv.snoc (hdigit (n % b) (by omega)), ?_, ?_⟩
    · have hten : n / b * 10 ≤ n := (Nat.mul_le_mul_left _ hb).trans (Nat.div_mul_le_self n b)
      have hsq := Nat.mul_le_mul hten hten
      have hpos := Nat.mul_pos hdiv hdiv
      linarith
    · rintro rfl
      rw [hsame rfl, Nat.div_add_mod']

lemma hex_dec (a : UInt8) : ∃ v, Group (fun _ => True) (dec a) v := by
  obtain ⟨v, hv, hle, -⟩ := hex_toDigits le_rfl (by decide) a.toNat
  have := a.toNat_lt
  exact ⟨v, hv, Nat.toDigits_ne_nil, trivial, by nlinarith⟩

section

variable {short : List Char → Prop}

lemma Group.head (h : Group short g val) : ∀ t, (g ++ t).head? ≠ some ':' := by
  obtain ⟨c, s, rfl⟩ := List.exists_cons_of_ne_nil h.2.1
  have hc := h.1.xdigit c (by simp)
  rintro t hcolon
  obtain rfl : c = ':' := by simpa using hcolon
  exact absurd hc (by decide)

lemma Quad.eq (h : Quad s v) : ∃ a t, s = dec a ++ '.' :: t := by
  obtain ⟨hlen, rfl⟩ := h
  obtain ⟨a, b, c, d, rfl⟩ := List.length_eq_four.mp hlen
  exact ⟨a, dotted [b, c, d], rfl⟩

lemma Seq.head (h : Seq short s w) : s ≠ [] ∧ s.head? ≠ some ':' := by
  cases h with
  | group h => exact ⟨h.2.1, by simpa using h.head []⟩
  | quad h =>
    obtain ⟨a, t, rfl⟩ := h.eq
    obtain ⟨v, hv⟩ := hex_dec a
    exact ⟨by simp, hv.head _⟩
  | cons h hs => exact ⟨by simp, h.head _⟩

lemma Before.head (h : Before short s w) (hs : s ≠ []) : ∀ t, (s ++ t).head? ≠ some ':' := by
  cases h with
  | nil => exact absurd rfl hs
  | cons h hs =>
    intro t
    rw [List.append_assoc]
    exact h.head _

end

lemma pton6Loop_seq (h : Seq (fun _ => True) s w) (hlen : tmp.length + w.length ≤ 16) :
    pton6Loop s tmp colonp s false 0 = finish (tmp ++ w) colonp := by
  induction h generalizing tmp with
  | @group g v h =>
    nth_rewrite 1 [← List.append_nil g]
    rw [scan_hex h.1 h.2.2.2, pton6Loop, pton6End, decide_eq_true h.2.1, if_pos rfl]
    exact if_neg (not_lt.mpr hlen)
  | @quad s bytes h =>
    obtain ⟨a, t, hs⟩ := h.eq
    obtain ⟨x, hx⟩ := hex_dec a
    have hdot : xdigit '.' = none := by decide
    have hlow : tolower '.' = '.' := by decide
    nth_rewrite 1 [hs]
    rw [scan_hex hx.1 hx.2.2.2, pton6Loop, hdot]
    rw [h.1] at hlen
    simp [hlow, hlen, quad_eq_some.mpr h, pton6End]
  | @cons g s v w h hs ih =>
    have hcolon : xdigit ':' = none := by decide
    have hlow : tolower ':' = ':' := by decide
    have hword : (word v).length = 2 := rfl
    rw [List.length_append, hword] at hlen
    rw [scan_hex h.1 h.2.2.2, pton6Loop, hcolon]
    simp [hlow, decide_eq_true h.2.1, hs.head.1]
    rw [if_neg (by omega), ih (by simp [hword]; omega), List.append_assoc]

lemma pton6Loop_before (h : Before (fun _ => True) s w) (hlen : tmp.length + w.length ≤ 16) :
    pton6Loop (s ++ ':' :: r) tmp none tok false 0 =
      pton6Loop r (tmp ++ w) (some (tmp ++ w).length) r false 0 := by
  have hcolon : xdigit ':' = none := by decide
  have hlow : tolower ':' = ':' := by decide
  induction h generalizing tmp tok with
  | nil => simp [pton6Loop, hcolon, hlow]
  | @cons g s v w h hs ih =>
    have hword : (word v).length = 2 := rfl
    rw [List.length_append, hword] at hlen
    rw [List.append_assoc, scan_hex h.1 h.2.2.2, List.cons_append, pton6Loop, hcolon]
    simp only [hlow, if_true, decide_eq_true h.2.1, List.append_eq_nil_iff, reduceCtorEq, and_false,
      if_false]
    rw [if_neg (by omega), ih (by simp [hword]; omega), List.append_assoc]

lemma pton6Loop_after (h : After (fun _ => True) r w) (hlen : tmp.length + w.length ≤ 16) :
    pton6Loop r tmp colonp r false 0 = finish (tmp ++ w) colonp := by
  rcases h with h | ⟨rfl, rfl⟩
  · exact pton6Loop_seq h hlen
  · simp [pton6Loop, pton6End]

lemma address_eq (h : s.head? ≠ some ':') : address s = pton6Loop s [] none s false 0 := by
  unfold address
  split <;> simp_all

lemma address_sound (h : address s = some v) : Value s v := by
  by_cases hs : s.head? = some ':'
  · obtain ⟨t, rfl⟩ : ∃ t, s = ':' :: ':' :: t := by
      unfold address at h
      split at h
      · exact ⟨_, rfl⟩
      · simp at h
      · cases s <;> simp_all
    rcases pton6Loop_sound Hex.nil (by decide) (by decide) h with ⟨w, hw, -, hfin⟩ | ⟨-, hrest⟩
    · exact absurd rfl (hw.resolve_right (by simp)).head.2
    obtain ⟨u, w1, r, w2, ht, hu, hr, hlen, hfin⟩ := hrest
    obtain rfl : u = [] := by_contra fun hne => hu.head hne _ (by rw [← ht]; rfl)
    obtain rfl : t = r := by simpa using ht
    obtain ⟨hlt, hv⟩ := (finish_colon (by simpa using hlen)).mp hfin
    exact .inr ⟨[], w1, t, w2, hu, hr, hlt, rfl, hv⟩
  rw [address_eq hs] at h
  rcases pton6Loop_sound Hex.nil (by decide) (by decide) h with ⟨w, hw, -, hfin⟩ | ⟨-, hrest⟩
  · obtain ⟨rfl, hlen⟩ := finish_none.mp hfin
    exact .inl ⟨hw.resolve_right fun h => by simp [h.2] at hlen, hlen⟩
  obtain ⟨u, w1, r, w2, ht, hu, hr, hlen, hfin⟩ := hrest
  obtain ⟨hlt, hv⟩ := (finish_colon (by simpa using hlen)).mp hfin
  rw [List.nil_append] at ht
  have hne : u ≠ [] := by
    rintro rfl
    exact hs (by simp [ht])
  exact .inr ⟨u, w1, r, w2, hu, hr, hlt, by simp [ht, hne], hv⟩

lemma address_eq_some : address s = some v ↔ Value s v := by
  refine ⟨address_sound, ?_⟩
  rintro (⟨h, hlen⟩ | ⟨u, v1, r, v2, hu, hr, hlen, rfl, rfl⟩)
  · rw [address_eq h.head.2, pton6Loop_seq h (by simp [hlen])]
    exact finish_none.mpr ⟨rfl, hlen⟩
  · have hloop : address ((if u = [] then [':', ':'] else u ++ [':']) ++ r) =
        pton6Loop (u ++ ':' :: r) [] none (u ++ ':' :: r) false 0 := by
      by_cases hnil : u = []
      · simp [hnil, address]
      · simp [hnil, address_eq (hu.head hnil _)]
    rw [hloop, pton6Loop_before hu (by simp; omega), pton6Loop_after hr (by simp; omega)]
    exact (finish_colon (by simp; omega)).mpr ⟨by simpa using hlen, by simp⟩

end

lemma returned_eq : returned dst r = (1, bytes) ↔ r = some bytes := by
  cases r <;> simp [returned]

lemma returned_cases (dst : List UInt8) (r : Option (List UInt8)) :
    returned dst r = (0, dst) ∨ ∃ bytes, returned dst r = (1, bytes) := by
  cases r <;> simp [returned]

/-- The texts that are accepted, the values stored for them, and `dst` for all the others. -/
theorem inetPton_eq_one_iff (src : List Char) (dst : List UInt8) :
    (∀ bytes, inetPton6 src dst = (1, bytes) ↔ Value src bytes) ∧
    (∀ bytes, inetPton4 src dst = (1, bytes) ↔ Quad src bytes) ∧
    (inetPton6 src dst = (0, dst) ∨ ∃ bytes, inetPton6 src dst = (1, bytes)) ∧
    (inetPton4 src dst = (0, dst) ∨ ∃ bytes, inetPton4 src dst = (1, bytes)) :=
  ⟨fun _ => returned_eq.trans address_eq_some, fun _ => returned_eq.trans quad_eq_some,
    returned_cases dst _, returned_cases dst _⟩

lemma Standard.leading (h : Standard s v) (hdot : '.' ∉ s) :
    (s.takeWhile fun c => (xdigit c).isSome).length ≤ 4 := by
  have hcolon : (xdigit ':').isSome = false := by decide
  have hgroup : ∀ {g t : List Char} {x : ℕ}, Group (fun g => g.length ≤ 4) g x →
      ((g ++ ':' :: t).takeWhile fun c => (xdigit c).isSome).length ≤ 4 := by
    intro g t x hg
    rw [List.takeWhile_append_of_pos hg.1.xdigit]
    simpa [hcolon] using hg.2.2.1
  rcases h with ⟨h, -⟩ | ⟨u, v1, r, v2, hu, -, -, rfl, -⟩
  · cases h with
    | group h => exact (List.takeWhile_prefix _).length_le.trans h.2.2.1
    | quad h =>
      obtain ⟨a, t, rfl⟩ := h.eq
      simp at hdot
    | cons h hs => exact hgroup h
  · cases hu with
    | nil => simp [hcolon]
    | cons h hs => simpa using hgroup h

/-- Leading zeros do not count: five digits are accepted as a group. -/
theorem inetPton6_five_digits :
    inetPton6 "00001::".toList [] = (1, [0, 1, 0, 0, 0, 0, 0, 0, 0, 0, 0, 0, 0, 0, 0, 0]) ∧
      ∀ bytes, ¬ Standard "00001::".toList bytes := by
  refine ⟨by decide, fun bytes h => ?_⟩
  exact absurd (h.leading (by decide)) (by decide)

end Eglibc.InetPton
