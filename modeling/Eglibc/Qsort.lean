import Eglibc.MsortMerge

/-!
# Indirect sorting and the result of qsort_r

After the pointers are sorted, the elements are moved along the cycles of the permutation;
the storage counts as position `n`.
-/
namespace Eglibc.Msort
open Checked StableMerge Blocks
variable {σ : Type} {n s : ℕ}

def content (E : List (List UInt8)) (x : List UInt8) (q : ℕ) : List UInt8 :=
  if q = E.length then x else E.getD q []

/-- On the way along the cycle of `i`. Position `j` is the hole, and `w` says from where
each position gets its final element. -/
structure OnCycle (target : ℕ → List UInt8) (n s i : ℕ) (x : List UInt8) (c : Cycle)
    (E : List (List UInt8)) (w : ℕ → ℕ) : Prop where
  array : c.b = E.flatten
  uniform : Uniform s E
  count : E.length = n
  length_tp : c.tp.length = n
  start : i < n
  hole : c.j < n
  jp : c.jp = c.j * s
  le : ∀ p < n, w p ≤ n
  inj : ∀ p < n, ∀ q < n, w p = w q → p = q
  not_hole : ∀ p < n, w p ≠ c.j
  content_eq : ∀ p < n, content E x (w p) = target p
  kp : c.kp = (if w c.j = n then i else w c.j) * s
  tp : ∀ p < n, p ≠ c.j → c.tp.getD p 0 = (if w p = n then i else w p) * s
  visited : c.j = i ∨ w i = i
  before : ∀ p < i, w p = p

section
variable {target : ℕ → List UInt8} {i : ℕ} {x : List UInt8} {c : Cycle} {E : List (List UInt8)}
variable {w : ℕ → ℕ}

def Cycle.moved (c : Cycle) (E : List (List UInt8)) (k : ℕ) : Cycle :=
  ⟨c.tp.set c.j c.jp, (E.set c.j (E.getD k [])).flatten, k, c.kp, c.tp.getD k 0⟩

section
variable (h : OnCycle target n s i x c E w)
include h

lemma OnCycle.source (hw : w c.j ≠ n) : w c.j < n ∧ w c.j ≠ c.j ∧ w c.j ≠ i ∧ w (w c.j) ≠ i := by
  have hk : w c.j < n := lt_of_le_of_ne (h.le _ h.hole) hw
  have hi : w c.j ≠ i := by
    intro he
    obtain hj | hv := h.visited
    · exact h.not_hole _ h.hole (he.trans hj.symm)
    · exact h.not_hole i h.start (hv.trans (h.inj i h.start _ h.hole (hv.trans he.symm)))
  refine ⟨hk, h.not_hole _ h.hole, hi, fun he => ?_⟩
  obtain hj | hv := h.visited
  · exact h.not_hole _ hk (he.trans hj.symm)
  · exact hi (h.inj _ hk i h.start (he.trans hv.symm))

lemma OnCycle.inj_filled : ∀ p < n, ∀ q < n,
    Function.update w c.j c.j p = Function.update w c.j c.j q → p = q := by
  intro p hp q hq he
  rw [Function.update_apply, Function.update_apply] at he
  split_ifs at he with hpj hqj hqj
  · rw [hpj, hqj]
  · exact absurd he.symm (h.not_hole q hq)
  · exact absurd he (h.not_hole p hp)
  · exact h.inj p hp q hq he

lemma OnCycle.next (hw : w c.j ≠ n) :
    OnCycle target n s i x (c.moved E (w c.j)) (E.set c.j (E.getD (w c.j) []))
      (Function.update w c.j c.j) := by
  obtain ⟨hk, hkj, hki, _⟩ := h.source hw
  have hlen : (E.getD (w c.j) []).length = s := by
    rw [List.getD_eq_getElem _ _ (h.count ▸ hk)]
    exact h.uniform _ (List.getElem_mem _)
  have hne : ∀ {p}, p ≠ c.j → Function.update w c.j c.j p = w p := fun hp =>
    Function.update_of_ne hp _ _
  have hself : Function.update w c.j c.j c.j = c.j := Function.update_self _ _ _
  exact {
    array := rfl
    uniform := h.uniform.set hlen
    count := by simp [h.count]
    length_tp := by simp [Cycle.moved, h.length_tp]
    start := h.start
    hole := hk
    jp := by
      rw [Cycle.moved, h.kp, if_neg hw]
    le := fun p hp => by
      by_cases hpj : p = c.j
      · rw [hpj, hself]
        exact h.hole.le
      · rw [hne hpj]
        exact h.le p hp
    inj := h.inj_filled
    not_hole := fun p hp he => by
      by_cases hpj : p = c.j
      · rw [hpj, hself] at he
        exact hkj he.symm
      · rw [hne hpj] at he
        exact hpj (h.inj p hp _ h.hole he)
    content_eq := fun p hp => by
      have hc := h.content_eq p hp
      unfold content at hc ⊢
      rw [List.length_set]
      by_cases hpj : p = c.j
      · subst hpj
        rw [hself, if_neg (h.count ▸ h.hole.ne), getD_set _ _ _ (h.count ▸ h.hole), if_pos rfl]
        rwa [if_neg (h.count ▸ hw)] at hc
      · rwa [hne hpj, getD_set _ _ _ (h.count ▸ h.hole), if_neg (h.not_hole p hp).symm]
    kp := by
      change c.tp.getD (w c.j) 0 = _
      rw [h.tp _ hk hkj]
      simp only [Cycle.moved, hne hkj]
    tp := fun p hp hpk => by
      change (c.tp.set c.j c.jp).getD p 0 = _
      rw [getD_set _ _ _ (h.length_tp ▸ h.hole)]
      by_cases hpj : p = c.j
      · rw [if_pos hpj.symm, hpj, hself, if_neg h.hole.ne, h.jp]
      · rw [if_neg (Ne.symm hpj), hne hpj]
        exact h.tp p hp hpj
    visited := .inr (by
      obtain hj | hv := h.visited
      · rwa [← hj]
      by_cases hij : i = c.j
      · rwa [hij]
      · rw [hne hij, hv])
    before := fun p hp => by
      by_cases hpj : p = c.j
      · rw [hpj, hself]
      · rw [hne hpj]
        exact h.before p hp }

def unplaced (n : ℕ) (w : ℕ → ℕ) : Finset ℕ := (Finset.range n).filter fun p => w p ≠ p

lemma OnCycle.unplaced_lt (hw : w c.j ≠ n) :
    (unplaced n (Function.update w c.j c.j)).card < (unplaced n w).card := by
  refine Finset.card_lt_card (Finset.ssubset_iff_of_subset ?_ |>.mpr ⟨c.j, ?_, ?_⟩)
  · intro p hp
    simp [unplaced] at hp ⊢
    refine ⟨hp.1, fun he => hp.2 ?_⟩
    by_cases hpj : p = c.j
    · simp [hpj]
    · rwa [Function.update_of_ne hpj]
  · simp [unplaced, h.hole, (h.source hw).2.1]
  · simp [unplaced]

end

lemma cycleBody_returns (hs : 0 < s) (m : ℕ) (c : Cycle)
    (h : ∃ E w, OnCycle target n s i x c E w ∧ w c.j ≠ n ∧ m = (unplaced n w).card) :
    Returns (cycleBody s (i * s) c) (Closer
      (fun m c => ∃ E w, OnCycle target n s i x c E w ∧ w c.j ≠ n ∧ m = (unplaced n w).card)
      (fun c => ∃ E w, OnCycle target n s i x c E w ∧ w c.j = n) m) := by
  obtain ⟨E, w, h, hw, rfl⟩ := h
  obtain ⟨hk, hkj, hki, hwk⟩ := h.source hw
  have hnext := h.next hw
  have hlt := h.unplaced_lt hw
  have hkp : c.kp = w c.j * s := by rw [h.kp, if_neg hw]
  have hkE : w c.j < E.length := h.count ▸ hk
  have hlen : (E.getD (w c.j) []).length = s := by
    rw [List.getD_eq_getElem _ _ hkE]
    exact h.uniform _ (List.getElem_mem _)
  have hload : load (c.tp.set c.j c.jp) (w c.j) = .ok (c.tp.getD (w c.j) 0) := by
    rw [load_eq 0 (by rw [List.length_set, h.length_tp]; exact hk),
      getD_set _ _ _ (h.length_tp ▸ h.hole), if_neg hkj.symm]
  have hjp := h.jp
  have hstore := storeRange_block h.uniform (h.count ▸ h.hole) hlen
  rw [← hjp] at hstore
  rw [cycleBody, hkp, Nat.mul_div_cancel _ hs, store_eq (h.length_tp ▸ h.hole), h.array,
    loadRange_block h.uniform hkE]
  simp only [ok_bind, hstore, hload]
  have hmoved : c.moved E (w c.j) = ⟨c.tp.set c.j c.jp, (E.set c.j (E.getD (w c.j) [])).flatten,
      w c.j, w c.j * s, c.tp.getD (w c.j) 0⟩ := by rw [Cycle.moved, hkp]
  rw [← hmoved]
  have hstop : c.tp.getD (w c.j) 0 = i * s ↔ w (w c.j) = n := by
    rw [h.tp _ hk hkj, Nat.mul_left_inj hs.ne']
    split_ifs with hn
    · simp [hn]
    · simp [hn, hwk]
  have hupd : Function.update w c.j c.j (c.moved E (w c.j)).j = w (w c.j) :=
    Function.update_of_ne hkj _ _
  by_cases hn : w (w c.j) = n
  · rw [if_neg (not_not.mpr (hstop.mpr hn))]
    exact returns_ok ⟨_, _, hnext, hupd.trans hn⟩
  · rw [if_pos (mt hstop.mp hn)]
    exact returns_ok ⟨_, hlt, _, _, hnext, hupd ▸ hn, rfl⟩

end

section
variable {target : ℕ → List UInt8}

structure Placed (target : ℕ → List UInt8) (n s : ℕ) (c : Placing) (E : List (List UInt8))
    (π : ℕ → ℕ) : Prop where
  array : c.b = E.flatten
  uniform : Uniform s E
  count : E.length = n
  length_tp : c.tp.length = n
  length_storage : c.storage.length = s
  ip : c.ip = c.i * s
  lt : ∀ p < n, π p < n
  inj : ∀ p < n, ∀ q < n, π p = π q → p = q
  content_eq : ∀ p < n, E.getD (π p) [] = target p
  tp : ∀ p < n, c.tp.getD p 0 = π p * s
  before : ∀ p < c.i, π p = p
  le : c.i ≤ n

lemma Placed.onCycle {c : Placing} {E : List (List UInt8)} {π : ℕ → ℕ}
    (h : Placed target n s c E π) (hi : c.i < n) (hne : π c.i ≠ c.i) :
    OnCycle target n s c.i (E.getD c.i []) ⟨c.tp, c.b, c.i, c.ip, π c.i * s⟩ E
      (fun p => if π p = c.i then n else π p) where
  array := h.array
  uniform := h.uniform
  count := h.count
  length_tp := h.length_tp
  start := hi
  hole := hi
  jp := h.ip
  le := fun p hp => by
    split_ifs
    · exact le_rfl
    · exact (h.lt p hp).le
  inj := fun p hp q hq he => by
    have hpn := h.lt p hp
    have hqn := h.lt q hq
    refine h.inj p hp q hq ?_
    split_ifs at he <;> omega
  not_hole := fun p hp => by
    dsimp only
    split_ifs <;> omega
  content_eq := fun p hp => by
    rw [← h.content_eq p hp, content, h.count]
    have hpn := h.lt p hp
    split_ifs with h1 h2 h2
    · rw [h1]
    · exact absurd rfl h2
    · exact absurd h2 hpn.ne
    · rfl
  kp := by
    have := h.lt _ hi
    simp [hne, this.ne]
  tp := fun p hp _ => by
    have hpn := h.lt p hp
    rw [h.tp p hp]
    split_ifs with h1 h2 h2
    · rw [h1]
    · exact absurd rfl h2
    · exact absurd h2 hpn.ne
    · rfl
  visited := .inl rfl
  before := fun p hp => by
    rw [h.before p hp]
    exact if_neg hp.ne

lemma OnCycle.close {i : ℕ} {x : List UInt8} {d : Cycle} {E : List (List UInt8)} {w : ℕ → ℕ}
    (h : OnCycle target n s i x d E w) (hw : w d.j = n) (hx : x.length = s) :
    Placed target n s ⟨i + 1, (i + 1) * s, d.tp.set d.j d.jp, (E.set d.j x).flatten, x⟩
      (E.set d.j x) (Function.update w d.j d.j) := by
  have hne : ∀ {p}, p ≠ d.j → Function.update w d.j d.j p = w p := fun hp =>
    Function.update_of_ne hp _ _
  have hself : Function.update w d.j d.j d.j = d.j := Function.update_self _ _ _
  have hlt : ∀ p < n, p ≠ d.j → w p < n := fun p hp hpj =>
    lt_of_le_of_ne (h.le p hp) fun he => hpj (h.inj p hp _ h.hole (he.trans hw.symm))
  exact {
    array := rfl
    uniform := h.uniform.set hx
    count := by simp [h.count]
    length_tp := by simp [h.length_tp]
    length_storage := hx
    ip := rfl
    lt := fun p hp => by
      by_cases hpj : p = d.j
      · rw [hpj, hself]
        exact h.hole
      · rw [hne hpj]
        exact hlt p hp hpj
    inj := h.inj_filled
    content_eq := fun p hp => by
      have hc := h.content_eq p hp
      rw [content, h.count] at hc
      rw [getD_set _ _ _ (h.count ▸ h.hole)]
      by_cases hpj : p = d.j
      · rw [hpj, hself, if_pos rfl, ← hpj, ← hc, hpj, if_pos hw]
      · rw [hne hpj, if_neg (h.not_hole p hp).symm, ← hc, if_neg (hlt p hp hpj).ne]
    tp := fun p hp => by
      rw [getD_set _ _ _ (h.length_tp ▸ h.hole)]
      by_cases hpj : p = d.j
      · rw [if_pos hpj.symm, hpj, hself, h.jp]
      · rw [if_neg (Ne.symm hpj), hne hpj, h.tp p hp hpj, if_neg (hlt p hp hpj).ne]
    before := fun p hp => by
      by_cases hpj : p = d.j
      · rw [hpj, hself]
      rw [hne hpj]
      rcases Nat.lt_succ_iff_lt_or_eq.mp hp with hp | rfl
      · exact h.before p hp
      · exact h.visited.resolve_left (Ne.symm hpj)
    le := h.start }

lemma placeBody_returns (hs : 0 < s) (m : ℕ) (c : Placing)
    (h : ∃ E π, Placed target n s c E π ∧ m = n - c.i) :
    Returns (placeBody n s c) (Closer (fun m c => ∃ E π, Placed target n s c E π ∧ m = n - c.i)
      (fun b => ∃ E : List (List UInt8), b = E.flatten ∧ Uniform s E ∧ E.length = n ∧
        ∀ p < n, E.getD p [] = target p) m) := by
  obtain ⟨E, π, h, rfl⟩ := h
  unfold placeBody
  split_ifs with hi
  · rw [load_eq 0 (h.length_tp ▸ hi), h.tp _ hi, h.ip, ok_bind]
    by_cases hfix : π c.i = c.i
    · rw [if_neg (by rw [hfix]; simp)]
      have hnext : Placed target n s ⟨c.i + 1, c.i * s + s, c.tp, c.b, c.storage⟩ E π :=
        { h with
          ip := by rw [Nat.succ_mul]
          before := fun p hp => by
            rcases Nat.lt_succ_iff_lt_or_eq.mp hp with hp | rfl
            · exact h.before p hp
            · exact hfix
          le := hi }
      exact returns_ok ⟨n - (c.i + 1), by omega, E, π, hnext, rfl⟩
    rw [if_pos (by rwa [ne_eq, Nat.mul_left_inj hs.ne'])]
    have hE : c.i < E.length := h.count ▸ hi
    have hx : (E.getD c.i []).length = s := by
      rw [List.getD_eq_getElem _ _ hE]
      exact h.uniform _ (List.getElem_mem _)
    have hstore : storeRange c.storage 0 (E.getD c.i []) = .ok (E.getD c.i []) := by
      have := storeRange_eq (u := []) (y := c.storage) (v := []) (i := 0) rfl
        (h.length_storage.trans hx.symm)
      simpa using this
    have hload : loadRange (E.getD c.i []) 0 s = .ok (E.getD c.i []) := by
      have := loadRange_eq (u := []) (x := E.getD c.i []) (v := []) (i := 0) rfl hx
      simpa using this
    have hcycle := h.onCycle hi hfix
    rw [h.array, h.ip] at hcycle
    rw [h.array, loadRange_block h.uniform hE, ok_bind, hstore, ok_bind]
    have hcard : (unplaced n fun p => if π p = c.i then n else π p).card < n + 1 := by
      refine Nat.lt_succ_of_le ((Finset.card_filter_le _ _).trans ?_)
      simp
    have hstart : (if π c.i = c.i then n else π c.i) ≠ n := by
      rw [if_neg hfix]
      exact (h.lt _ hi).ne
    refine (iterate_closer (cycleBody_returns hs) ⟨E, _, hcycle, hstart, rfl⟩ hcard).bind ?_
    rintro d ⟨F, w, hd, hw⟩
    have hput := storeRange_block hd.uniform (hd.count ▸ hd.hole) hx
    rw [← hd.jp] at hput
    rw [store_eq (hd.length_tp ▸ hd.hole), hd.array, hload]
    simp only [ok_bind, hput]
    rw [← Nat.succ_mul]
    exact returns_ok ⟨n - (c.i + 1), by omega, _, _, hd.close hw hx, rfl⟩
  have hin : c.i = n := le_antisymm h.le (not_lt.mp hi)
  refine returns_ok ⟨E, h.array, h.uniform, h.count, fun p hp => ?_⟩
  rw [← h.content_eq p hp, h.before p (hin ▸ hp)]

end

lemma fillBody_returns {words : List ℕ} (hn : words.length = n) :
    Returns (iterate (fillBody n s) (n + 1) (words, 0, 0)) fun tp =>
      tp = (List.range n).map (· * s) := by
  refine iterate_closer (I := fun m c => ∃ i rest, c = ((List.range i).map (· * s) ++ rest, i, i * s) ∧
    i + rest.length = n ∧ m = rest.length) ?_ ⟨0, words, by simp, by simpa using hn, rfl⟩ (by omega)
  rintro m _ ⟨i, rest, rfl, hlen, rfl⟩
  unfold fillBody
  dsimp only
  cases rest with
  | nil =>
    obtain rfl : i = n := hlen
    rw [if_neg (lt_irrefl _)]
    exact returns_ok (List.append_nil _)
  | cons a rest =>
    rw [List.length_cons] at hlen
    rw [if_pos (by omega), store_eq (by simp)]
    refine returns_ok ⟨rest.length, by simp, i + 1, rest, ?_, by omega, rfl⟩
    rw [List.range_succ, Nat.succ_mul]
    simp

structure Elements where
  n : ℕ
  s : ℕ
  bytes : List UInt8
  length_eq : bytes.length = n * s
  size_lt : bytes.length < 2 ^ 63
  s_lt : s < 2 ^ 64

def Elements.blocks (a : Elements) : List (List UInt8) := chunks a.s a.n a.bytes

section
variable (cmp : σ → List UInt8 → List UInt8 → ℤ × σ)

def Below (x y : List UInt8) : Prop := ∃ st, (cmp st x y).1 ≤ 0

def Above (x y : List UInt8) : Prop := ∃ st, ¬(cmp st x y).1 ≤ 0

variable (env : Environment) (a : Elements) (state : σ)

lemma selectVar_fits (address s : ℕ) (f : σ → List UInt8 → List UInt8 → Run (ℤ × σ)) :
    (Param.mk s (selectVar address s) f).Fits := by
  have hmod : s &&& 7 = s % 8 := Nat.and_two_pow_sub_one_eq_mod s 3
  unfold selectVar
  split_ifs with h1 h2 h3 h4
  · exact ⟨h2.symm, by simp⟩
  · exact ⟨h3.1.symm, by simp⟩
  · exact ⟨rfl, fun _ => Nat.dvd_of_mod_eq_zero (hmod ▸ h4.1)⟩
  · exact ⟨rfl, by simp⟩
  · exact ⟨rfl, by simp⟩

lemma sortDirect_returns (hs : ¬32 < a.s) :
    Returns (sortDirect cmp env a.n a.s a.bytes state) fun out => ∃ zs,
      Sorts (Below cmp) (Above cmp) a.blocks zs ∧ out.1 = zs.flatten := by
  have hsize : tempSize a.n a.s = a.n * a.s := by
    rw [tempSize, if_neg hs, Nat.mod_eq_of_lt]
    have := a.length_eq ▸ a.size_lt
    omega
  have hsort := msortWithTmp_returns [] []
    ((List.range (tempSize a.n a.s)).map fun i => UInt8.ofNat (env.junk i)) state
    (V := fun _ => True) (selectVar_fits env.address a.s fun state x y => .ok (cmp state x y))
    (fun st x y _ _ => ⟨_, rfl⟩) (uniform_chunks a.length_eq) (fun _ _ => trivial)
    (length_chunks _ _) (by simp [hsize])
  rw [List.nil_append, List.append_nil, flatten_chunks a.length_eq] at hsort
  refine hsort.bind ?_
  rintro m ⟨zs, hzs, harr, _⟩
  have hmap : Sorts (Below cmp) (Above cmp) _ _ := hzs.map (f := id) ?_ ?_
  · rw [List.map_id, List.map_id] at hmap
    exact returns_ok ⟨zs, hmap, by simpa using harr⟩
  · rintro x _ y _ ⟨st, r, he, hr⟩
    cases he
    exact ⟨st, hr⟩
  · rintro x _ y _ ⟨st, r, he, hr⟩
    cases he
    exact ⟨st, hr⟩

def pointee (E : List (List UInt8)) (s : ℕ) (x : List ℕ) : List UInt8 := E.getD (x.getD 0 0 / s) []

lemma cmpIndirect_eq {E : List (List UInt8)} (hE : Uniform s E) (hs : 0 < s) {i j : ℕ}
    (hi : i < E.length) (hj : j < E.length) (st : σ) :
    cmpIndirect cmp E.flatten s st [i * s] [j * s] =
      .ok (cmp st (pointee E s [i * s]) (pointee E s [j * s])) := by
  have hload : ∀ q : ℕ, load [q] 0 = .ok q := fun q => rfl
  simp [cmpIndirect, hload, loadRange_block hE hi, loadRange_block hE hj, pointee,
    Nat.mul_div_cancel _ hs]

lemma flatten_eq_map {zs : List (List ℕ)} (h : Uniform 1 zs) :
    zs.flatten = zs.map (·.getD 0 0) := by
  induction zs with
  | nil => rfl
  | cons x zs ih =>
    obtain ⟨hx, hzs⟩ := uniform_cons.mp h
    obtain ⟨q, rfl⟩ := List.length_eq_one_iff.mp hx
    simp [ih hzs]

lemma map_pointee (hs : 0 < a.s) :
    ((List.range a.n).map fun i => [i * a.s]).map (pointee a.blocks a.s) = a.blocks := by
  refine List.ext_getElem (by simp [Elements.blocks]) fun i h1 h2 => ?_
  simp [pointee, Nat.mul_div_cancel _ hs, h2]

theorem placed_start (hs : 0 < a.s) {storage : List UInt8} (hstorage : storage.length = a.s)
    {tp : List ℕ} (htp : tp.Perm ((List.range a.n).map (· * a.s))) :
    Placed (fun p => a.blocks.getD (tp.getD p 0 / a.s) []) a.n a.s ⟨0, 0, tp, a.bytes, storage⟩
      a.blocks (fun p => tp.getD p 0 / a.s) := by
  have hlen : tp.length = a.n := by simpa using htp.length_eq
  have hmem : ∀ p < a.n, ∃ i < a.n, tp.getD p 0 = i * a.s := by
    intro p hp
    rw [List.getD_eq_getElem _ _ (hlen ▸ hp)]
    have := htp.mem_iff.mp (List.getElem_mem (hlen ▸ hp))
    simp at this
    obtain ⟨i, hi, he⟩ := this
    exact ⟨i, hi, he.symm⟩
  have hnodup : tp.Nodup := by
    rw [htp.nodup_iff]
    exact List.nodup_range.map fun i j he => Nat.eq_of_mul_eq_mul_right hs he
  exact {
    array := (flatten_chunks a.length_eq).symm
    uniform := uniform_chunks a.length_eq
    count := length_chunks _ _
    length_tp := hlen
    length_storage := hstorage
    ip := (Nat.zero_mul _).symm
    lt := fun p hp => by
      obtain ⟨i, hi, he⟩ := hmem p hp
      rwa [he, Nat.mul_div_cancel _ hs]
    inj := fun p hp q hq he => by
      obtain ⟨i, _, hei⟩ := hmem p hp
      obtain ⟨j, _, hej⟩ := hmem q hq
      rw [hei, hej, Nat.mul_div_cancel _ hs, Nat.mul_div_cancel _ hs] at he
      rw [he, ← hej, List.getD_eq_getElem _ _ (hlen ▸ hp), List.getD_eq_getElem _ _ (hlen ▸ hq)] at hei
      exact (hnodup.getElem_inj_iff).mp hei
    content_eq := fun _ _ => rfl
    tp := fun p hp => by
      obtain ⟨i, _, he⟩ := hmem p hp
      simp only [he, Nat.mul_div_cancel _ hs]
    before := fun p hp => absurd hp (Nat.not_lt_zero p)
    le := Nat.zero_le _ }

lemma sortIndirect_returns (hs : 32 < a.s) :
    Returns (sortIndirect cmp env a.n a.s a.bytes state) fun out => ∃ zs,
      Sorts (Below cmp) (Above cmp) a.blocks zs ∧ out.1 = zs.flatten := by
  have hpos : 0 < a.s := by omega
  have hsize : tempSize a.n a.s = 2 * a.n * 8 + a.s := by
    rw [tempSize, if_pos hs, Nat.mod_eq_of_lt]
    have hlt := a.length_eq ▸ a.size_lt
    have hslt := a.s_lt
    rcases Nat.eq_zero_or_pos a.n with hn | hn
    · omega
    · have h1 : a.s ≤ a.n * a.s := Nat.le_mul_of_pos_left _ hn
      have h2 : a.n * 33 ≤ a.n * a.s := Nat.mul_le_mul_left _ hs
      omega
  have hwords : ((List.range (min (2 * a.n) (tempSize a.n a.s / 8))).map env.junk).length =
      2 * a.n := by
    simp
    omega
  have hstorage : ((List.range (tempSize a.n a.s - 2 * a.n * 8)).map fun i =>
      UInt8.ofNat (env.junk i)).length = a.s := by
    simp [hsize]
  have hE : Uniform a.s a.blocks := uniform_chunks a.length_eq
  have hn : a.blocks.length = a.n := length_chunks _ _
  have hb : a.bytes = a.blocks.flatten := (flatten_chunks a.length_eq).symm
  refine (fillBody_returns (by rw [List.length_drop, hwords]; omega)).bind ?_
  rintro tp rfl
  have hflat : ((List.range a.n).map fun i => [i * a.s]).flatten = (List.range a.n).map (· * a.s) := by
    rw [flatten_eq_map (by simp [Uniform]), List.map_map]
    rfl
  have hvalid : ∀ x ∈ (List.range a.n).map fun i => [i * a.s], ∃ i < a.n, x = [i * a.s] := by
    simp only [List.mem_map, List.mem_range]
    rintro x ⟨i, hi, rfl⟩
    exact ⟨i, hi, rfl⟩
  have hsort := msortWithTmp_returns (p := ⟨1, .pointers, cmpIndirect cmp a.bytes a.s⟩) [] []
    (((List.range (min (2 * a.n) (tempSize a.n a.s / 8))).map env.junk).take a.n) state
    ⟨rfl, by simp⟩ (V := fun x => ∃ i < a.n, x = [i * a.s])
    (by
      rintro st _ _ ⟨i, hi, rfl⟩ ⟨j, hj, rfl⟩
      exact ⟨_, by rw [hb]; exact cmpIndirect_eq cmp hE hpos (hn ▸ hi) (hn ▸ hj) st⟩)
    (E := (List.range a.n).map fun i => [i * a.s]) (n := a.n) (by simp [Uniform]) hvalid (by simp)
    (by simp [hwords]; omega)
  rw [List.nil_append, List.append_nil, hflat] at hsort
  refine hsort.bind ?_
  rintro ⟨_, _, state'⟩ ⟨zs, hzs, rfl, _⟩
  have hone : Uniform 1 zs := (show Uniform 1 _ by simp [Uniform]).of_perm hzs.perm
  have htp : zs.flatten.Perm ((List.range a.n).map (· * a.s)) := by
    rw [← hflat, flatten_eq_map hone, flatten_eq_map (by simp [Uniform])]
    exact hzs.perm.map _
  have hlen : zs.length = a.n := by simpa using hzs.perm.length_eq
  rw [List.nil_append, List.append_nil]
  refine (iterate_closer (placeBody_returns hpos) ⟨_, _, placed_start a hpos hstorage htp, rfl⟩
    (by simp)).bind ?_
  rintro b ⟨E', rfl, _, hE'n, hE'⟩
  have hmap : Sorts (Below cmp) (Above cmp) _ (zs.map (pointee a.blocks a.s)) := hzs.map ?_ ?_
  · rw [map_pointee a hpos] at hmap
    refine returns_ok ⟨_, hmap, congrArg List.flatten ?_⟩
    refine List.ext_getElem (by rw [hE'n, List.length_map, hlen]) fun p h1 h2 => ?_
    have hp : p < (zs.map (·.getD 0 0)).length := by simpa using h2
    have hz : zs.flatten.getD p 0 = (zs.map (·.getD 0 0))[p] := by
      rw [flatten_eq_map hone, List.getD_eq_getElem _ _ hp]
    have hEp := hE' p (hE'n ▸ h1)
    rw [List.getD_eq_getElem _ _ h1, hz, List.getElem_map] at hEp
    simp [hEp, pointee]
  all_goals
    intro x hx y hy hxy
    obtain ⟨i, hi, rfl⟩ := hvalid x hx
    obtain ⟨j, hj, rfl⟩ := hvalid y hy
    obtain ⟨st, r, he, hr⟩ := hxy
    have he' := cmpIndirect_eq cmp hE hpos (hn ▸ hi) (hn ▸ hj) st
    rw [← hb] at he'
    cases he.symm.trans he'
    exact ⟨st, hr⟩

structure IsTotalPreorder (le : List UInt8 → List UInt8 → Prop) : Prop where
  le_iff : ∀ st x y, (cmp st x y).1 ≤ 0 ↔ le x y
  trans : ∀ x y z, le x y → le y z → le x z
  total : ∀ x y, le x y ∨ le y x

/-- What `qsort_r` does to an array: with any comparison function its elements are
permuted, and a total preorder sorts them stably. -/
def Sorted (a : Elements) : Option (List UInt8 × σ) → Prop
  | none => ¬env.obtains (tempSize a.n a.s)
  | some (b, _) => b.length = a.bytes.length ∧ (chunks a.s a.n b).Perm a.blocks ∧
      ∀ (le : List UInt8 → List UInt8 → Prop) [DecidableRel le], IsTotalPreorder cmp le →
        IsStableSort le a.blocks (chunks a.s a.n b)

lemma sorted_of_sorts {zs : List (List UInt8)} {st : σ}
    (h : Sorts (Below cmp) (Above cmp) a.blocks zs) : Sorted cmp env a (some (zs.flatten, st)) := by
  have hu : Uniform a.s zs := (uniform_chunks a.length_eq).of_perm h.perm
  have hlen : zs.length = a.n := by simpa [Elements.blocks] using h.perm.length_eq
  have hchunks : chunks a.s a.n zs.flatten = zs := by
    rw [← hlen]
    exact chunks_flatten hu
  refine ⟨?_, by rw [hchunks]; exact h.perm, fun le _ hle => ?_⟩
  · rw [hu.length_flatten, hlen, a.length_eq]
  rw [hchunks]
  refine h.isStableSort hle.trans hle.total ?_ ?_
  · rintro x y ⟨st, hr⟩
    exact (hle.le_iff st x y).mp hr
  · rintro x y ⟨st, hr⟩
    exact mt (hle.le_iff st x y).mpr hr

theorem qsortR_correct : Returns (qsortR cmp env a.n a.s a.bytes state) (Sorted cmp env a) := by
  unfold qsortR
  by_cases hobt : env.obtains (tempSize a.n a.s)
  · split_ifs with hs
    · refine (sortIndirect_returns cmp env a state hs).bind ?_
      rintro ⟨_, st⟩ ⟨zs, hzs, rfl⟩
      exact returns_ok (sorted_of_sorts cmp env a hzs)
    refine (sortDirect_returns cmp env a state hs).bind ?_
    rintro ⟨_, st⟩ ⟨zs, hzs, rfl⟩
    exact returns_ok (sorted_of_sorts cmp env a hzs)
  · rw [if_neg hobt]
    exact returns_ok hobt

end

end Eglibc.Msort
