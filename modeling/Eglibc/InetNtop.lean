import Eglibc.InetPton

/-!
# Printed addresses are read back

Model of `inet_ntop4` and `inet_ntop6` of `resolv/inet_ntop.c`. A run of zero words is given
by its `base` and `len`; no run stands for the base -1.
-/
namespace Eglibc.InetNtop
open InetPton

def words : List UInt8 → List ℕ
  | a :: b :: src => (a.toNat <<< 8 ||| b.toNat) :: words src
  | _ => []

/-- `if (best.base == -1 || cur.len > best.len) best = cur`, if there is a current run. -/
def better (best : Option (ℕ × ℕ)) : Option (ℕ × ℕ) → Option (ℕ × ℕ)
  | none => best
  | some cur => if best.all fun b => b.2 < cur.2 then some cur else best

/-- The search for the longest run. -/
def scan : List ℕ → ℕ → Option (ℕ × ℕ) → Option (ℕ × ℕ) → Option (ℕ × ℕ)
  | [], _, best, cur => better best cur
  | w :: ws, i, best, cur =>
    if w = 0 then scan ws (i + 1) best (some (cur.elim (i, 1) fun c => (c.1, c.2 + 1)))
    else scan ws (i + 1) (better best cur) none

def bestRun (ws : List ℕ) : Option (ℕ × ℕ) := (scan ws 0 none none).filter fun b => 2 ≤ b.2

/-- `"%u.%u.%u.%u"` -/
def inetNtop4 (src : List UInt8) (size : ℕ) : Option (List Char) :=
  if (dotted (src.take 4)).length ≥ size then none else some (dotted (src.take 4))

def inside (best : Option (ℕ × ℕ)) (i : ℕ) : Bool := best.any fun b => b.1 ≤ i ∧ i < b.1 + b.2

/-- Is this address an encapsulated IPv4? -/
def encapsulated (ws : List ℕ) (best : Option (ℕ × ℕ)) (i : ℕ) : Bool :=
  i = 6 ∧ best.any fun b => b.1 = 0 ∧ (b.2 = 6 ∨ b.2 = 5 ∧ ws.getD 5 0 = 0xffff)

/-- The loop that formats the words from word `i` on. -/
def format (src : List UInt8) (best : Option (ℕ × ℕ)) :
    List ℕ → ℕ → List Char → Option (List Char)
  | [], _, tmp => some tmp
  | w :: ws, i, tmp =>
    if inside best i then
      format src best ws (i + 1) (if best.any fun b => i = b.1 then tmp ++ [':'] else tmp)
    else
      let tmp := if i ≠ 0 then tmp ++ [':'] else tmp
      if encapsulated (words src) best i then
        (inetNtop4 (src.drop 12) (46 - tmp.length)).map (tmp ++ ·)
      else format src best ws (i + 1) (tmp ++ Nat.toDigits 16 w)

def inetNtop6 (src : List UInt8) (size : ℕ) : Option (List Char) := do
  let best := bestRun (words src)
  let tmp ← format src best (words src) 0 []
  let tmp := if best.any fun b => b.1 + b.2 = 8 then tmp ++ [':'] else tmp
  if tmp.length + 1 > size then none else some tmp

/-! ## Words and runs -/

section

variable {src : List UInt8} {p ws : List ℕ} {best cur : Option (ℕ × ℕ)} {b n : ℕ}

lemma word_pair (x y : UInt8) : word (x.toNat <<< 8 ||| y.toNat) = [x, y] := by
  have hy := y.toNat_lt
  rw [← Nat.shiftLeft_add_eq_or_of_lt hy, word, Nat.shiftLeft_eq, Nat.shiftRight_eq_div_pow]
  refine congrArg₂ _ ?_ (congrArg (fun z => [z]) ?_)
  · rw [show (x.toNat * 2 ^ 8 + y.toNat) / 2 ^ 8 = x.toNat by omega, UInt8.ofNat_toNat]
  · refine UInt8.toNat_inj.mp ?_
    simp

lemma words_spec (h : src.length % 2 = 0) : (words src).flatMap word = src ∧
    2 * (words src).length = src.length ∧ ∀ w ∈ words src, w ≤ 0xffff := by
  fun_induction words src with
  | case1 x y src ih =>
    obtain ⟨hbytes, hlen, hle⟩ := ih (by simp at h; omega)
    have hx := x.toNat_lt
    have hy := y.toNat_lt
    refine ⟨by simp [word_pair, hbytes], by simp; omega, ?_⟩
    simp
    refine ⟨?_, hle⟩
    rw [← Nat.shiftLeft_add_eq_or_of_lt hy, Nat.shiftLeft_eq]
    omega
  | case2 src hshort =>
    obtain rfl : src = [] := by
      rcases src with _ | ⟨x, _ | ⟨y, src⟩⟩
      · rfl
      · simp at h
      · exact (hshort x y src rfl).elim
    simp

/-- The run is in `p`, with the words `r` behind it. -/
def RunIn (p r : List ℕ) (run : ℕ × ℕ) : Prop := ∃ u, p = u ++ List.replicate run.2 0 ++ r ∧ u.length = run.1

lemma better_spec (hbest : ∀ run ∈ best, ∃ r, RunIn p r run) (hcur : ∀ run ∈ cur, RunIn p [] run) :
    ∀ run ∈ better best cur, ∃ r, RunIn p r run := by
  cases cur with
  | none => exact hbest
  | some c =>
    rw [better]
    split_ifs
    · intro run hrun
      exact ⟨[], hcur run hrun⟩
    · exact hbest

lemma RunIn.snoc (h : RunIn p r run) (w : ℕ) : RunIn (p ++ [w]) (r ++ [w]) run := by
  obtain ⟨u, rfl, hu⟩ := h
  exact ⟨u, by simp, hu⟩

lemma scan_spec (hbest : ∀ run ∈ best, ∃ r, RunIn p r run) (hcur : ∀ run ∈ cur, RunIn p [] run) :
    ∀ run ∈ scan ws p.length best cur, ∃ r, RunIn (p ++ ws) r run := by
  induction ws generalizing p best cur with
  | nil => simpa [scan] using better_spec hbest hcur
  | cons w ws ih =>
    have hnext : ∀ {best' : Option (ℕ × ℕ)}, (∀ run ∈ best', ∃ r, RunIn p r run) →
        ∀ run ∈ best', ∃ r, RunIn (p ++ [w]) r run := by
      intro best' h run hrun
      obtain ⟨r, hr⟩ := h run hrun
      exact ⟨r ++ [w], hr.snoc w⟩
    have hlen : p.length + 1 = (p ++ [w]).length := by simp
    rw [List.append_cons p w ws, scan, hlen]
    split_ifs with hw
    · refine ih (hnext hbest) ?_
      cases cur with
      | none =>
        simpa using ⟨p, by simp [hw], rfl⟩
      | some c =>
        obtain ⟨u, hu, hlen⟩ := hcur c rfl
        simpa using ⟨u, by simp [hu, hw, List.replicate_succ'], hlen⟩
    · exact ih (hnext (better_spec hbest hcur)) (by simp)

lemma bestRun_spec (h : bestRun ws = some (b, n)) :
    2 ≤ n ∧ ∃ u r, ws = u ++ List.replicate n 0 ++ r ∧ u.length = b := by
  obtain ⟨hrun, hn⟩ := Option.filter_eq_some_iff.mp h
  obtain ⟨r, u, hu⟩ := scan_spec (p := []) (by simp) (by simp) (b, n) hrun
  exact ⟨by simpa using hn, u, r, hu⟩

end

/-! ## What is printed -/

def joined : List ℕ → List Char
  | [] => []
  | w :: ws => Nat.toDigits 16 w ++ ws.flatMap fun w => ':' :: Nat.toDigits 16 w

section

variable {w : ℕ} {u : List ℕ} {R : List Char} {v : List UInt8}

lemma group_word (hw : w ≤ 0xffff) : Group (fun _ => True) (Nat.toDigits 16 w) w := by
  obtain ⟨x, hx, -, hsame⟩ := hex_toDigits (by decide) le_rfl w
  obtain rfl := hsame rfl
  exact ⟨hx, Nat.toDigits_ne_nil, trivial, hw⟩

lemma length_joined_le (hu : ∀ w ∈ u, w ≤ 0xffff) : (joined u).length ≤ 5 * u.length := by
  have hword : ∀ w ≤ 0xffff, (Nat.toDigits 16 w).length ≤ 4 :=
    fun w hw => Nat.toDigits_length 16 w 4 (by decide) (by omega)
  cases u with
  | nil => simp [joined]
  | cons w u =>
    have htail : ∀ u : List ℕ, (∀ w ∈ u, w ≤ 0xffff) →
        (u.flatMap fun w => ':' :: Nat.toDigits 16 w).length ≤ 5 * u.length := by
      intro u hu
      induction u with
      | nil => simp
      | cons w u ih =>
        have h4 := hword w (hu w (by simp))
        have := ih fun x hx => hu x (by simp [hx])
        simp only [List.flatMap_cons, List.length_append, List.length_cons]
        omega
    have h4 := hword w (hu w (by simp))
    have := htail u fun x hx => hu x (by simp [hx])
    simp only [joined, List.length_append, List.length_cons]
    omega

lemma seq_joined (hne : u ≠ []) (hu : ∀ w ∈ u, w ≤ 0xffff) :
    Seq (fun _ => True) (joined u) (u.flatMap word) := by
  induction u with
  | nil => exact absurd rfl hne
  | cons w u ih =>
    have hw := group_word (hu w (by simp))
    cases u with
    | nil => simpa [joined] using Seq.group hw
    | cons x u =>
      have hrest := ih (by simp) fun y hy => hu y (by simp [hy])
      simpa [joined] using Seq.cons hw hrest

lemma after_joined (hu : ∀ w ∈ u, w ≤ 0xffff) :
    After (fun _ => True) (joined u) (u.flatMap word) := by
  by_cases hne : u = []
  · exact .inr ⟨by rw [hne, joined], by rw [hne, List.flatMap_nil]⟩
  · exact .inl (seq_joined hne hu)

lemma before_joined (hne : u ≠ []) (hu : ∀ w ∈ u, w ≤ 0xffff) :
    Before (fun _ => True) (joined u ++ [':']) (u.flatMap word) := by
  induction u with
  | nil => exact absurd rfl hne
  | cons w u ih =>
    have hw := group_word (hu w (by simp))
    cases u with
    | nil => simpa [joined] using Before.cons hw Before.nil
    | cons x u =>
      have hrest := ih (by simp) fun y hy => hu y (by simp [hy])
      simpa [joined] using Before.cons hw hrest

lemma value_joined (hu : ∀ w ∈ u, w ≤ 0xffff) (hR : After (fun _ => True) R v)
    (hlen : (u.flatMap word).length + v.length < 16) :
    Value (joined u ++ [':', ':'] ++ R) (u.flatMap word ++
      List.replicate (16 - ((u.flatMap word).length + v.length)) 0 ++ v) := by
  by_cases hne : u = []
  · subst hne
    exact .inr ⟨[], [], R, v, Before.nil, hR, hlen, rfl, rfl⟩
  · exact .inr ⟨_, _, R, v, before_joined hne hu, hR, hlen, by simp, rfl⟩

end

section

variable {src : List UInt8} {best : Option (ℕ × ℕ)} {u ws : List ℕ} {tmp : List Char} {b n i : ℕ}

/-- Neither in the run nor the place of a dotted quad. -/
def Plain (src : List UInt8) (best : Option (ℕ × ℕ)) (i : ℕ) : Prop :=
  inside best i = false ∧ encapsulated (words src) best i = false

lemma format_words (hi : i ≠ 0) (h : ∀ j, i ≤ j → j < i + u.length → Plain src best j) :
    format src best (u ++ ws) i tmp = format src best ws (i + u.length)
      (tmp ++ u.flatMap fun w => ':' :: Nat.toDigits 16 w) := by
  induction u generalizing i tmp with
  | nil => simp
  | cons w u ih =>
    have hw := h i le_rfl (by simp)
    rw [List.cons_append, format, hw.1, hw.2]
    simp [hi]
    rw [ih (by omega) fun j h1 h2 => h j (by omega) (by simp; omega)]
    simp [Nat.add_assoc, Nat.add_comm 1]

lemma format_start (h : ∀ j < u.length, Plain src best j) :
    format src best (u ++ ws) 0 [] = format src best ws u.length (joined u) := by
  cases u with
  | nil => rfl
  | cons w u =>
    have hw := h 0 (by simp)
    rw [List.cons_append, format, hw.1, hw.2]
    simp
    rw [format_words (by decide) fun j h1 h2 => h j (by simp; omega), Nat.add_comm]
    rfl

lemma format_rest (hi : b < i) (hu : i + u.length = b + n) :
    format src (some (b, n)) (u ++ ws) i tmp = format src (some (b, n)) ws (b + n) tmp := by
  induction u generalizing i with
  | nil => simp_all
  | cons w u ih =>
    rw [List.length_cons] at hu
    have hin : inside (some (b, n)) i = true := by simp [inside]; omega
    rw [List.cons_append, format, hin]
    simpa [decide_eq_true_eq, if_neg (show ¬ i = b by omega)] using ih (by omega) (by omega)

lemma format_run (hn : 0 < n) : format src (some (b, n)) (List.replicate n 0 ++ ws) b tmp =
    format src (some (b, n)) ws (b + n) (tmp ++ [':']) := by
  obtain ⟨n, rfl⟩ := Nat.exists_eq_add_of_lt hn
  have hin : inside (some (b, 0 + n + 1)) b = true := by simp [inside]
  rw [List.replicate_succ, List.cons_append, format, hin]
  simpa using format_rest (Nat.lt_succ_self b) (by simp; omega)

lemma length_dotted (hq : q.length = 4) : (dotted q).length ≤ 15 := by
  have hdec : ∀ a : UInt8, (dec a).length ≤ 3 := fun a =>
    Nat.toDigits_length 10 _ 3 (by decide) (a.toNat_lt.trans (by decide))
  obtain ⟨x, y, z, t, rfl⟩ := List.length_eq_four.mp hq
  have := hdec x
  have := hdec y
  have := hdec z
  have := hdec t
  simp [dotted]
  omega

lemma format_quad (hin : inside best 6 = false)
    (henc : encapsulated (words src) best 6 = true) (hq : src.drop 12 = q) (hlen : q.length = 4)
    (htmp : tmp.length ≤ 6) : format src best (w :: ws) 6 tmp = some (tmp ++ ':' :: dotted q) := by
  have hquad := length_dotted hlen
  rw [format, hin, henc, hq]
  simp only [Bool.false_eq_true, if_false, if_true, ne_eq, OfNat.ofNat_ne_zero, not_false_eq_true]
  rw [inetNtop4, List.take_of_length_le hlen.le, if_neg (by simp; omega)]
  simp

end

section

variable {src : List UInt8} {s tmp : List Char} {u r : List ℕ} {b n : ℕ}

lemma length_flatMap_word (u : List ℕ) : (u.flatMap word).length = 2 * u.length := by
  induction u with
  | nil => rfl
  | cons w u ih => simp [ih, word]; omega

lemma replicate_flatMap_word (n : ℕ) :
    (List.replicate n 0).flatMap word = List.replicate (2 * n) 0 := by
  induction n with
  | zero => rfl
  | succ n ih => rw [List.replicate_succ, List.flatMap_cons, ih]; rfl

/-- A text that the printer makes of an address. -/
def Prints (src : List UInt8) (s : List Char) : Prop :=
  inetNtop6 src 46 = some s ∧ s.length ≤ 45 ∧ Value s src

lemma prints_of_format (hbest : bestRun (words src) = best)
    (hfmt : format src best (words src) 0 [] = some tmp)
    (hend : (if best.any fun b => b.1 + b.2 = 8 then tmp ++ [':'] else tmp) = s)
    (hlen : s.length ≤ 45) (hv : Value s src) : Prints src s := by
  refine ⟨?_, hlen, hv⟩
  simp only [inetNtop6, hbest, hfmt, Option.bind_eq_bind, Option.bind_some, hend]
  exact if_neg (by omega)

lemma prints_plain (hsrc : src.length = 16) (hbest : bestRun (words src) = some (b, n))
    (henc : ¬ (b = 0 ∧ (n = 6 ∨ n = 5 ∧ (words src).getD 5 0 = 0xffff)))
    (hn : 2 ≤ n) (hws : words src = u ++ List.replicate n 0 ++ r) (hu : u.length = b) :
    Prints src (joined u ++ [':', ':'] ++ joined r) := by
  obtain ⟨hbytes, hlen, hle⟩ := words_spec (show src.length % 2 = 0 by omega)
  have hparts := congrArg List.length hws
  simp at hparts
  have hplain : ∀ j, j < b ∨ b + n ≤ j → Plain src (some (b, n)) j := by
    intro j hj
    refine ⟨by simp [inside]; omega, ?_⟩
    simpa [encapsulated] using fun _ h0 => not_or.mp (not_and.mp henc h0)
  have hfmt : format src (some (b, n)) (words src) 0 [] =
      some (joined u ++ [':'] ++ r.flatMap fun w => ':' :: Nat.toDigits 16 w) := by
    rw [hws, List.append_assoc, format_start fun j hj => hplain j (.inl (by omega)), hu,
      format_run (by omega), ← List.append_nil r,
      format_words (by omega) fun j h1 _ => hplain j (.inr h1)]
    simp [format]
  have hle_u : ∀ w ∈ u, w ≤ 0xffff := fun w hw => hle w (by simp [hws, hw])
  have hle_r : ∀ w ∈ r, w ≤ 0xffff := fun w hw => hle w (by simp [hws, hw])
  refine prints_of_format hbest hfmt ?_ ?_ ?_
  · cases r with
    | nil => simp [joined, show b + n = 8 by simp at hparts; omega]
    | cons w r => simp [joined, show b + n ≠ 8 by simp at hparts; omega]
  · have h1 := length_joined_le hle_u
    have h2 := length_joined_le hle_r
    simp
    omega
  · have hv := value_joined hle_u (after_joined hle_r)
      (by rw [length_flatMap_word, length_flatMap_word]; omega)
    rw [length_flatMap_word, length_flatMap_word,
      show 16 - (2 * u.length + 2 * r.length) = 2 * n by omega, ← replicate_flatMap_word,
      ← List.flatMap_append, ← List.flatMap_append, ← hws, hbytes] at hv
    exact hv

lemma prints_encapsulated (hsrc : src.length = 16) (hbest : bestRun (words src) = some (0, n))
    (henc : n = 6 ∨ n = 5 ∧ (words src).getD 5 0 = 0xffff)
    (hws : words src = List.replicate n 0 ++ r) : ∃ s, Prints src s := by
  obtain ⟨hbytes, hlen, hle⟩ := words_spec (show src.length % 2 = 0 by omega)
  rw [hws, List.flatMap_append, replicate_flatMap_word] at hbytes
  have hquad : (src.drop 12).length = 4 := by simp [hsrc]
  have hsome : encapsulated (words src) (some (0, n)) 6 = true := by simpa [encapsulated] using henc
  have hq : Quad (dotted (src.drop 12)) (src.drop 12) := ⟨hquad, rfl⟩
  have hshort := length_dotted hquad
  have hrun : format src (some (0, n)) (words src) 0 [] = format src (some (0, n)) r n [':'] := by
    rw [hws, format_run (by omega), Nat.zero_add, List.nil_append]
  rw [hws, List.length_append, List.length_replicate] at hlen
  have hprints : ∀ R v, format src (some (0, n)) (words src) 0 [] = some (':' :: ':' :: R) →
      Seq (fun _ => True) R v → n ≤ 6 → R.length ≤ 20 → List.replicate (2 * n) 0 ++ v = src →
      ∃ s, Prints src s := by
    intro R v hfmt hR hn hshort hv
    have hsize := congrArg List.length hv
    simp [hsrc] at hsize
    have hvalue := value_joined (u := []) (by simp) (.inl hR) (by simp; omega)
    simp [show 16 - v.length = 2 * n by omega, hv] at hvalue
    exact ⟨_, prints_of_format hbest hfmt (if_neg (by simp; omega)) (by simp; omega) hvalue⟩
  rcases henc with rfl | ⟨rfl, hffff⟩
  · obtain ⟨x, y, rfl⟩ := List.length_eq_two.mp (show r.length = 2 by omega)
    rw [format_quad rfl hsome rfl hquad (by decide)] at hrun
    refine hprints _ _ hrun (Seq.quad hq) le_rfl (by omega) ?_
    nth_rewrite 1 [← hbytes]
    exact hbytes
  obtain ⟨f, x, y, rfl⟩ := List.length_eq_three.mp (show r.length = 3 by omega)
  obtain rfl : f = 0xffff := by simpa [hws] using hffff
  have hword : format src (some (0, 5)) [0xffff, x, y] 5 [':'] =
      format src (some (0, 5)) [x, y] 6 [':', ':', 'f', 'f', 'f', 'f'] :=
    format_words (u := [0xffff]) (by decide) fun j h1 h2 => by
      obtain rfl : j = 5 := by simp at h2; omega
      exact ⟨rfl, rfl⟩
  rw [hword, format_quad rfl hsome rfl hquad (by decide)] at hrun
  refine hprints _ _ hrun (Seq.cons (group_word (w := 0xffff) le_rfl) (Seq.quad hq)) (by decide) ?_ ?_
  · simp; omega
  · nth_rewrite 1 [← hbytes]
    exact hbytes

/-- Printed addresses are short and are read back. -/
theorem inetPton6_inetNtop6 (src : List UInt8) (hsrc : src.length = 16) :
    ∃ s, inetNtop6 src 46 = some s ∧ s.length ≤ 45 ∧ ∀ dst, inetPton6 s dst = (1, src) := by
  have hprints : ∃ s, Prints src s := by
    cases hbest : bestRun (words src) with
    | none =>
      obtain ⟨hbytes, hlen, hle⟩ := words_spec (show src.length % 2 = 0 by omega)
      have hfmt : format src none (words src) 0 [] = some (joined (words src)) := by
        rw [← List.append_nil (words src), format_start (by simp [Plain, inside, encapsulated])]
        simp [format]
      have hseq := seq_joined (List.ne_nil_of_length_pos (by omega)) hle
      have hshort := length_joined_le hle
      rw [hbytes] at hseq
      exact ⟨_, prints_of_format hbest hfmt rfl (by simp; omega) (.inl ⟨hseq, hsrc⟩)⟩
    | some run =>
      obtain ⟨b, n⟩ := run
      obtain ⟨hn, u, r, hws, hu⟩ := bestRun_spec hbest
      by_cases henc : b = 0 ∧ (n = 6 ∨ n = 5 ∧ (words src).getD 5 0 = 0xffff)
      · obtain ⟨rfl, henc⟩ := henc
        obtain rfl := List.length_eq_zero_iff.mp hu
        exact prints_encapsulated hsrc hbest henc hws
      · exact ⟨_, prints_plain hsrc hbest henc hn hws hu⟩
  obtain ⟨s, hs, hlen, hv⟩ := hprints
  exact ⟨s, hs, hlen, fun dst => returned_eq.mpr (address_eq_some.mpr hv)⟩

/-- An encapsulated IPv4 address. -/
theorem inetPton6_inetNtop6_mapped :
    ∃ s, inetNtop6 [0, 0, 0, 0, 0, 0, 0, 0, 0, 0, 0xff, 0xff, 192, 0, 2, 1] 46 = some s ∧
      s.length ≤ 45 ∧ ∀ dst, inetPton6 s dst =
        (1, [0, 0, 0, 0, 0, 0, 0, 0, 0, 0, 0xff, 0xff, 192, 0, 2, 1]) :=
  inetPton6_inetNtop6 _ rfl

end

end Eglibc.InetNtop
