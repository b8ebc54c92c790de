import Eglibc.Blocks
import Eglibc.Msort
import Eglibc.StableMerge

/-!
# The merge sort of msort_with_tmp

The array is written as the blocks of its elements between what stands around them.
-/
namespace Eglibc.Msort
open Checked StableMerge Blocks
variable {γ σ : Type} {p : Param γ σ}

variable {x y rest : List γ} {m : ℕ} {c : Cursor γ σ} {A₁ B₁ out : List (List γ)} {st : σ}

structure Param.Fits (p : Param γ σ) : Prop where
  width_eq : p.width = p.s
  longs : p.var = .longs → 8 ∣ p.s

lemma longsBody_returns (hxy : y.length = x.length) (hx : 8 ∣ x.length) : Returns
      (iterate (longsBody (u ++ x ++ v) (a.length + x.length)) (x.length + 1)
        (a ++ y ++ z, a.length, u.length)) fun dst => dst = a ++ x ++ z := by
  refine iterate_closer (I := fun m c => ∃ x1 x2 y2, x = x1 ++ x2 ∧ y2.length = x2.length ∧
    8 ∣ x2.length ∧ c = (a ++ x1 ++ y2 ++ z, a.length + x1.length, u.length + x1.length) ∧
    m = x2.length) ?_ ⟨[], x, y, rfl, hxy, hx, by simp, rfl⟩ (Nat.lt_succ_self _)
  rintro m c ⟨x1, x2, y2, rfl, hlen, hdvd, rfl, rfl⟩
  unfold longsBody
  by_cases hlt : a.length + x1.length < a.length + (x1 ++ x2).length
  · rw [if_pos hlt]
    have h8 : 8 ≤ x2.length := by
      rw [List.length_append] at hlt
      exact Nat.le_of_dvd (by omega) hdvd
    obtain ⟨w, x3, rfl, hw⟩ : ∃ w x3, x2 = w ++ x3 ∧ w.length = 8 :=
      ⟨x2.take 8, x2.drop 8, (List.take_append_drop 8 x2).symm, by simp [h8]⟩
    obtain ⟨w', y3, rfl, hw'⟩ : ∃ w' y3, y2 = w' ++ y3 ∧ w'.length = 8 :=
      ⟨y2.take 8, y2.drop 8, (List.take_append_drop 8 y2).symm, by
        rw [List.length_take, hlen, min_eq_left h8]⟩
    have hload : loadRange (u ++ (x1 ++ (w ++ x3)) ++ v) (u.length + x1.length) 8 = .ok w := by
      have := loadRange_eq (u := u ++ x1) (x := w) (v := x3 ++ v) (i := u.length + x1.length)
        (by simp) hw
      simpa only [List.append_assoc, List.length_append] using this
    have hstore : storeRange (a ++ x1 ++ (w' ++ y3) ++ z) (a.length + x1.length) w =
        .ok (a ++ (x1 ++ w) ++ y3 ++ z) := by
      have := storeRange_eq (u := a ++ x1) (y := w') (x := w) (v := y3 ++ z) (i := a.length + x1.length)
        (by simp) (by rw [hw, hw'])
      simpa only [List.append_assoc, List.length_append] using this
    rw [hload, ok_bind, hstore, ok_bind]
    simp only [List.length_append, hw, hw'] at hlen hdvd ⊢
    refine returns_ok ⟨x3.length, by omega, x1 ++ w, x3, y3, by simp, by omega, ?_, ?_, rfl⟩
    · exact (Nat.dvd_add_right (dvd_refl 8)).mp hdvd
    · simp [hw, Nat.add_assoc]
  rw [if_neg hlt]
  rw [List.length_append] at hlt
  obtain rfl : x2 = [] := List.length_eq_zero_iff.mp (by omega)
  obtain rfl : y2 = [] := List.length_eq_zero_iff.mp hlen
  refine returns_ok ?_
  change a ++ x1 ++ [] ++ z = a ++ (x1 ++ []) ++ z
  simp

lemma copyElement_returns (hp : p.Fits) (hx : x.length = p.s) (hy : y.length = p.s) :
    copyElement p (u ++ x ++ v) u.length (a ++ y ++ z) a.length = .ok (a ++ x ++ z) := by
  have hplain : (do storeRange (a ++ y ++ z) a.length (← loadRange (u ++ x ++ v) u.length p.width)) =
      .ok (a ++ x ++ z) := by
    rw [loadRange_eq rfl (hx.trans hp.width_eq.symm), ok_bind, storeRange_eq rfl (hy.trans hx.symm)]
  unfold copyElement
  cases hvar : p.var with
  | longs =>
    obtain ⟨dst, he, rfl⟩ := longsBody_returns (u := u) (v := v) (a := a) (z := z)
      (hy.trans hx.symm) (hx ▸ hp.longs hvar)
    rwa [hx] at he
  | uint32 | uint64 | pointers | bytes => exact hplain

def Param.Below (p : Param γ σ) (x y : List γ) : Prop := ∃ st r, p.cmp st x y = .ok r ∧ r.1 ≤ 0

def Param.Above (p : Param γ σ) (x y : List γ) : Prop := ∃ st r, p.cmp st x y = .ok r ∧ ¬r.1 ≤ 0

section
variable {A B : List (List γ)} {pre post : List γ} {L : ℕ}

structure Merging (p : Param γ σ) (A B : List (List γ)) (start L m : ℕ) (c : Cursor γ σ)
    (A₁ A₂ B₁ B₂ out : List (List γ)) (rest : List γ) : Prop where
  left : A = A₁ ++ A₂
  right : B = B₁ ++ B₂
  b1 : c.b1 = start + A₁.length * p.s
  n1 : c.n1 = A₂.length
  b2 : c.b2 = start + (A.length + B₁.length) * p.s
  n2 : c.n2 = B₂.length
  dest : c.dest = out.length * p.s
  tmp : c.tmp = out.flatten ++ rest
  uniform : Uniform p.s out
  count : out.length = A₁.length + B₁.length
  room : out.length * p.s + rest.length = L
  merges : ∀ zs, Merge p.Below p.Above A₂ B₂ zs → Merge p.Below p.Above A B (out ++ zs)
  bound : m = A₂.length + B₂.length

lemma Merging.takeLeft (h : Merging p A B start L m c A₁ (x :: A3) B₁ (y :: B3) out (rest1 ++ rest))
    (hw : p.width = p.s) (hx : x.length = p.s) (hr : rest1.length = p.s) (hxy : p.Below x y) :
    Merging p A B start L (m - 1) ⟨c.b1 + p.width, c.n1 - 1, c.b2, c.n2, c.dest + p.width,
      out.flatten ++ x ++ rest, st⟩ (A₁ ++ [x]) A3 B₁ (y :: B3) (out ++ [x]) rest where
  left := by simp [h.left]
  right := h.right
  b1 := by simp [h.b1, hw, Nat.add_mul, Nat.add_assoc]
  n1 := by simp [h.n1]
  b2 := h.b2
  n2 := h.n2
  dest := by simp [h.dest, hw, Nat.add_mul]
  tmp := by simp
  uniform := uniform_append.mpr ⟨h.uniform, uniform_cons.mpr ⟨hx, by simp [Uniform]⟩⟩
  count := by simp [h.count]; omega
  room := by
    rw [← h.room, List.length_append, List.length_append, hr, List.length_singleton]
    ring
  merges := fun zs hz => by
    simpa using h.merges (x :: zs) (.left hxy hz)
  bound := by
    simp [h.bound]
    omega

lemma Merging.takeRight
    (h : Merging p A B start L m c A₁ (x :: A3) B₁ (y :: B3) out (rest1 ++ rest))
    (hw : p.width = p.s) (hy : y.length = p.s) (hr : rest1.length = p.s) (hxy : p.Above x y) :
    Merging p A B start L (m - 1) ⟨c.b1, c.n1, c.b2 + p.width, c.n2 - 1, c.dest + p.width,
      out.flatten ++ y ++ rest, st⟩ A₁ (x :: A3) (B₁ ++ [y]) B3 (out ++ [y]) rest where
  left := h.left
  right := by simp [h.right]
  b1 := h.b1
  n1 := h.n1
  b2 := by simp [h.b2, hw, Nat.add_mul, Nat.add_assoc]
  n2 := by simp [h.n2]
  dest := by simp [h.dest, hw, Nat.add_mul]
  tmp := by simp
  uniform := uniform_append.mpr ⟨h.uniform, uniform_cons.mpr ⟨hy, by simp [Uniform]⟩⟩
  count := by simp [h.count]; omega
  room := by
    rw [← h.room, List.length_append, List.length_append, hr, List.length_singleton]
    ring
  merges := fun zs hz => by
    simpa using h.merges (y :: zs) (.right hxy hz)
  bound := by
    simp [h.bound]

lemma mergeBody_returns (hp : p.Fits) (hA : Uniform p.s A) (hB : Uniform p.s B)
    (hcmp : ∀ st, ∀ x ∈ A, ∀ y ∈ B, ∃ r, p.cmp st x y = .ok r)
    (hL : (A.length + B.length) * p.s ≤ L) (m : ℕ) (c : Cursor γ σ)
    (h : ∃ A₁ A2 B₁ B2 out rest, Merging p A B pre.length L m c A₁ A2 B₁ B2 out rest) :
    Returns (mergeBody p (pre ++ (A ++ B).flatten ++ post) c) (Closer
      (fun m c => ∃ A₁ A2 B₁ B2 out rest, Merging p A B pre.length L m c A₁ A2 B₁ B2 out rest)
      (fun c => ∃ A₁ A2 B₁ B2 out rest m, Merging p A B pre.length L m c A₁ A2 B₁ B2 out rest ∧
        (A2 = [] ∨ B2 = [])) m) := by
  obtain ⟨A₁, A2, B₁, B2, out, rest, h⟩ := h
  unfold mergeBody
  cases A2 with
  | nil =>
    rw [if_neg (by simp [h.n1])]
    exact returns_ok ⟨_, _, _, _, _, _, m, h, .inl rfl⟩
  | cons x A3 =>
    cases B2 with
    | nil =>
      rw [if_neg (by simp [h.n2])]
      exact returns_ok ⟨_, _, _, _, _, _, m, h, .inr rfl⟩
    | cons y B3 =>
      rw [if_pos (by simp [h.n1, h.n2])]
      have hxA : x ∈ A := by simp [h.left]
      have hyB : y ∈ B := by simp [h.right]
      have hA1 : A₁.flatten.length = A₁.length * p.s :=
        (uniform_append.mp (h.left ▸ hA)).1.length_flatten
      have hB1 : B₁.flatten.length = B₁.length * p.s :=
        (uniform_append.mp (h.right ▸ hB)).1.length_flatten
      have harr1 : pre ++ (A ++ B).flatten ++ post =
          (pre ++ A₁.flatten) ++ x ++ (A3.flatten ++ B.flatten ++ post) := by
        simp [h.left]
      have harr2 : pre ++ (A ++ B).flatten ++ post =
          (pre ++ A.flatten ++ B₁.flatten) ++ y ++ (B3.flatten ++ post) := by
        simp [h.right]
      have hb1 : c.b1 = (pre ++ A₁.flatten).length := by simp [h.b1, hA1]
      have hb2 : c.b2 = (pre ++ A.flatten ++ B₁.flatten).length := by
        simp [h.b2, hB1, hA.length_flatten, Nat.add_mul]
      have hdest : c.dest = out.flatten.length := by rw [h.dest, h.uniform.length_flatten]
      obtain ⟨rest1, rest2, rfl, hr⟩ : ∃ rest1 rest2, rest = rest1 ++ rest2 ∧
          rest1.length = p.s := by
        have hcount : out.length + 1 ≤ A.length + B.length := by
          rw [h.count, h.left, h.right]
          simp
          omega
        have hmul := (Nat.mul_le_mul_right p.s hcount).trans hL
        rw [Nat.succ_mul, ← h.room] at hmul
        exact exists_split (by omega)
      obtain ⟨r, hr'⟩ := hcmp c.state x hxA y hyB
      have hx1 : loadRange (pre ++ (A ++ B).flatten ++ post) c.b1 p.s = .ok x := by
        rw [harr1, hb1]
        exact loadRange_eq rfl (hA x hxA)
      have hy1 : loadRange (pre ++ (A ++ B).flatten ++ post) c.b2 p.s = .ok y := by
        rw [harr2, hb2]
        exact loadRange_eq rfl (hB y hyB)
      simp only [hx1, hy1, hr', ok_bind]
      have htmp : c.tmp = out.flatten ++ rest1 ++ rest2 := by simp [h.tmp]
      have hm : m - 1 < m := by
        simp [h.bound]
      by_cases hle : r.1 ≤ 0
      · have hcopy : copyElement p (pre ++ (A ++ B).flatten ++ post) c.b1 c.tmp c.dest =
            .ok (out.flatten ++ x ++ rest2) := by
          rw [harr1, hb1, htmp, hdest]
          exact copyElement_returns hp (hA x hxA) hr
        rw [if_pos hle, hcopy, ok_bind]
        exact returns_ok ⟨m - 1, hm, _, _, _, _, _, _, h.takeLeft hp.width_eq (hA x hxA) hr
          ⟨c.state, r, hr', hle⟩⟩
      have hcopy : copyElement p (pre ++ (A ++ B).flatten ++ post) c.b2 c.tmp c.dest =
          .ok (out.flatten ++ y ++ rest2) := by
        rw [harr2, hb2, htmp, hdest]
        exact copyElement_returns hp (hB y hyB) hr
      rw [if_neg hle, hcopy, ok_bind]
      exact returns_ok ⟨m - 1, hm, _, _, _, _, _, _, h.takeRight hp.width_eq (hB y hyB) hr
        ⟨c.state, r, hr', hle⟩⟩

lemma flushLeft_returns (pre post : List γ) (hA : Uniform p.s A)
    (hL : (A.length + B.length) * p.s ≤ L)
    (h : Merging p A B pre.length L m c A₁ A2 B₁ B2 out rest) (hend : A2 = [] ∨ B2 = []) :
    ∃ zs rest', flushLeft p (pre ++ (A ++ B).flatten ++ post) c = .ok (zs.flatten ++ rest') ∧
      (zs.flatten ++ rest').length = L ∧ Uniform p.s zs ∧
      zs.length = A.length + B.length - B2.length ∧ Merge p.Below p.Above A B (zs ++ B2) := by
  have hroom : (out.flatten ++ rest).length = L := by
    simp [h.uniform.length_flatten, h.room]
  have hsum : A.length + B.length = out.length + A2.length + B2.length := by
    simp [h.count, h.left, h.right]
    omega
  rw [flushLeft, h.n1]
  cases A2 with
  | nil =>
    refine ⟨out, rest, ?_, hroom, h.uniform, by simp [hsum], h.merges B2 (.nil_left _)⟩
    simp [h.tmp]
  | cons x A3 =>
    obtain rfl : B2 = [] := hend.resolve_left (by simp)
    obtain ⟨hA1, hA2⟩ := uniform_append.mp (h.left ▸ hA)
    have hlen := hA2.length_flatten
    obtain ⟨rest1, rest2, rfl, hr⟩ : ∃ rest1 rest2, rest = rest1 ++ rest2 ∧
        rest1.length = (x :: A3).flatten.length := by
      rw [hsum, List.length_nil, Nat.add_zero, Nat.add_mul, ← h.room] at hL
      refine ⟨rest.take (x :: A3).flatten.length, _, (List.take_append_drop _ _).symm, ?_⟩
      rw [List.length_take]
      omega
    have harr : pre ++ (A ++ B).flatten ++ post =
        (pre ++ A₁.flatten) ++ (x :: A3).flatten ++ (B.flatten ++ post) := by
      simp [h.left]
    have hload : loadRange (pre ++ (A ++ B).flatten ++ post) c.b1 ((x :: A3).length * p.s) =
        .ok (x :: A3).flatten := by
      rw [harr]
      exact loadRange_eq (by simp [hA1.length_flatten, h.b1]) hlen
    have hstore : storeRange c.tmp c.dest (x :: A3).flatten =
        .ok (out.flatten ++ (x :: A3).flatten ++ rest2) := by
      simpa [h.tmp] using storeRange_eq (by rw [h.uniform.length_flatten, h.dest]) hr
    refine ⟨out ++ x :: A3, rest2, ?_, ?_, uniform_append.mpr ⟨h.uniform, hA2⟩, ?_, ?_⟩
    · rw [if_pos (by simp), hload, ok_bind, hstore, List.flatten_append]
    · rw [← hroom, List.flatten_append]
      simp [hr]
      omega
    · simp [hsum]
    · simpa using h.merges _ (.nil_right _)

theorem mergeHalves_returns (hp : p.Fits) (hA : Uniform p.s A) (hB : Uniform p.s B)
    (hcmp : ∀ st, ∀ x ∈ A, ∀ y ∈ B, ∃ r, p.cmp st x y = .ok r) (hn₁ : A.length = n / 2)
    (hn₂ : B.length = n - n / 2) (htmp : n * p.s ≤ tmp.length) :
    Returns (mergeHalves p pre.length n ⟨pre ++ (A ++ B).flatten ++ post, tmp, st⟩) fun m =>
      ∃ zs, Merge p.Below p.Above A B zs ∧ m.arr = pre ++ zs.flatten ++ post ∧
        m.tmp.length = tmp.length := by
  have hn : A.length + B.length = n := by omega
  have hstart : Merging p A B pre.length tmp.length (A.length + B.length)
      ⟨pre.length, n / 2, pre.length + n / 2 * p.s, n - n / 2, 0, tmp, st⟩ [] A [] B [] tmp :=
    ⟨rfl, rfl, by simp, hn₁.symm, by simp [hn₁], hn₂.symm, by simp, rfl, by simp [Uniform], rfl,
      by simp, fun _ h => h, rfl⟩
  refine (iterate_closer (mergeBody_returns hp hA hB hcmp (by rw [hn]; exact htmp))
    ⟨_, _, _, _, _, _, hstart⟩ (by omega)).bind ?_
  rintro c ⟨A₁, A₂, B₁, B₂, out, rest, m, h, hend⟩
  obtain ⟨zs, rest', hflush, hlen, hzs, hcount, hmerge⟩ :=
    flushLeft_returns pre post hA (by rw [hn]; exact htmp) h hend
  rw [hn] at hcount
  have hB₂ : n - B₂.length = (A ++ B₁).length := by
    simp [← hn, h.right]
    omega
  have hAB : Uniform p.s (A ++ B₁) :=
    uniform_append.mpr ⟨hA, (uniform_append.mp (h.right ▸ hB)).1⟩
  have harr : pre ++ (A ++ B).flatten ++ post =
      pre ++ (A ++ B₁).flatten ++ (B₂.flatten ++ post) := by
    simp [h.right]
  have hload : loadRange (zs.flatten ++ rest') 0 ((n - c.n2) * p.s) = .ok zs.flatten := by
    rw [← List.nil_append zs.flatten]
    exact loadRange_eq rfl (by rw [hzs.length_flatten, hcount, h.n2])
  have hstore : storeRange (pre ++ (A ++ B).flatten ++ post) pre.length zs.flatten =
      .ok (pre ++ zs.flatten ++ (B₂.flatten ++ post)) := by
    rw [harr]
    exact storeRange_eq rfl (by rw [hzs.length_flatten, hAB.length_flatten, hcount, hB₂])
  simp only [hflush, ok_bind, hload, hstore]
  exact returns_ok ⟨_, hmerge, by simp, hlen⟩

end

theorem msortWithTmp_returns (pre post tmp : List γ) (st : σ) (hp : p.Fits) {V : List γ → Prop}
    (hcmp : ∀ st x y, V x → V y → ∃ r, p.cmp st x y = .ok r) {n : ℕ} {E : List (List γ)}
    (hE : Uniform p.s E) (hV : ∀ x ∈ E, V x) (hn : E.length = n)
    (htmp : n * p.s ≤ tmp.length) :
    Returns (msortWithTmp p pre.length n ⟨pre ++ E.flatten ++ post, tmp, st⟩) fun m =>
      ∃ zs, Sorts p.Below p.Above E zs ∧ m.arr = pre ++ zs.flatten ++ post ∧
        m.tmp.length = tmp.length := by
  induction n using Nat.strong_induction_on generalizing E pre post tmp st with
  | _ n ih =>
    rw [msortWithTmp]
    by_cases h1 : n ≤ 1
    · rw [dif_pos h1]
      exact returns_ok ⟨E, .short (by omega), rfl, rfl⟩
    rw [dif_neg h1]
    obtain ⟨A, B, rfl, hA⟩ := exists_split (show n / 2 ≤ E.length by omega)
    have hB : B.length = n - n / 2 := by
      simp at hn
      omega
    obtain ⟨hEA, hEB⟩ := uniform_append.mp hE
    have hmul : n / 2 * p.s ≤ tmp.length ∧ (n - n / 2) * p.s ≤ tmp.length :=
      ⟨(Nat.mul_le_mul_right _ (by omega)).trans htmp, (Nat.mul_le_mul_right _ (by omega)).trans htmp⟩
    have harr : pre ++ (A ++ B).flatten ++ post = pre ++ A.flatten ++ (B.flatten ++ post) := by
      simp
    rw [harr]
    refine (ih (n / 2) (by omega) _ _ _ _ hEA (fun x hx => hV x (by simp [hx])) hA hmul.1).bind ?_
    rintro ⟨_, tmp1, st1⟩ ⟨A', hA', rfl, ht1⟩
    have hA'u : Uniform p.s A' := hEA.of_perm hA'.perm
    have hpos : pre.length + n / 2 * p.s = (pre ++ A'.flatten).length := by
      simp [hA'u.length_flatten, hA'.perm.length_eq, hA]
    have harr' : pre ++ A'.flatten ++ (B.flatten ++ post) = (pre ++ A'.flatten) ++ B.flatten ++ post := by
      simp
    rw [harr', hpos]
    refine (ih (n - n / 2) (by omega) _ _ _ _ hEB (fun x hx => hV x (by simp [hx])) hB
      (ht1 ▸ hmul.2)).bind ?_
    rintro ⟨_, tmp2, st2⟩ ⟨B', hB', rfl, ht2⟩
    have harr'' : pre ++ A'.flatten ++ B'.flatten ++ post = pre ++ (A' ++ B').flatten ++ post := by
      simp
    rw [harr'']
    refine (mergeHalves_returns hp hA'u (hEB.of_perm hB'.perm) ?_ ?_ ?_ ?_).mono ?_
    · intro st x hx y hy
      exact hcmp st x y (hV x (by simp [hA'.perm.mem_iff.mp hx]))
        (hV y (by simp [hB'.perm.mem_iff.mp hy]))
    · rw [hA'.perm.length_eq, hA]
    · rw [hB'.perm.length_eq, hB]
    · rwa [ht2, ht1]
    · rintro m ⟨zs, hzs, harr, ht⟩
      exact ⟨zs, .merge hA' hB' hzs, harr, ht.trans (ht2.trans ht1)⟩

end Eglibc.Msort
