import Eglibc.Segments

/-!
# Streams over a buffer

The callbacks of `libio/fmemopen.c`. The object behind `buffer` has `size` bytes, and the
array of the caller as many as the call is told. Offsets are the bits of an `off64_t`.
-/
namespace Eglibc.Fmemopen
open Checked Segments

structure Cookie where
  buffer : List UInt8
  binmode : Bool
  size : ℕ
  pos : ℕ
  maxpos : ℕ

/-- The bytes that are copied; the function returns their number. -/
def fmemopenRead (c : Cookie) (s : ℕ) : Run (Cookie × List UInt8) := do
  let full := sizeAdd c.pos s > c.size
  if full ∧ c.pos = c.size then .ok (c, [])
  else
    let bytes ← loadRange c.buffer c.pos (if full then sizeSub c.size c.pos else s)
    let pos := sizeAdd c.pos bytes.length
    .ok ({ c with pos, maxpos := max c.maxpos pos }, bytes)

def fmemopenWrite (c : Cookie) (b : List UInt8) : Run (Cookie × List UInt8) := do
  let addnullc := if c.binmode = false ∧ b.getLast? ≠ some 0 then 1 else 0
  let full := sizeAdd (sizeAdd c.pos b.length) addnullc > c.size
  if full ∧ sizeAdd c.pos addnullc = c.size then .ok (c, [])
  else
    let s := if full then sizeSub (sizeSub c.size c.pos) addnullc else b.length
    let bytes ← loadRange b 0 s
    let buffer ← storeRange c.buffer c.pos bytes
    let pos := sizeAdd c.pos s
    if pos > c.maxpos then
      let buffer ← if addnullc = 1 then store buffer pos 0 else .ok buffer
      .ok ({ c with buffer, pos, maxpos := pos }, bytes)
    else .ok ({ c with buffer, pos }, bytes)

inductive Whence where
  | set
  | cur
  | fromEnd
  | other

def fmemopenSeek (c : Cookie) (p : UInt64) (w : Whence) : Cookie :=
  let seek np := if 2 ^ 63 ≤ np ∨ np > c.size then c else { c with pos := np }
  match w with
  | .set => seek p.toNat
  | .cur => seek (sizeAdd c.pos p.toNat)
  | .fromEnd => seek (sizeSub (if c.binmode then c.size else c.maxpos) p.toNat)
  | .other => c

inductive Call (size : ℕ) where
  | read (s : ℕ) (fits : s + size < 2 ^ 64)
  | write (b : List UInt8) (fits : b.length + size < 2 ^ 64)
  | seek (p : UInt64) (w : Whence)

def Call.asked : Call size → ℕ
  | .read s _ => s
  | .write b _ => b.length
  | .seek .. => 0

def perform (c : Cookie) : Call size → Run (Cookie × List UInt8)
  | .read s _ => fmemopenRead c s
  | .write b _ => fmemopenWrite c b
  | .seek p w => .ok (fmemopenSeek c p w, [])

/-- The bytes most recently written, after a call at `pos` that has copied `bytes`. -/
def written (m : ℕ → Option UInt8) (pos : ℕ) (bytes : List UInt8) : Call size → ℕ → Option UInt8
  | .write .., j => if pos ≤ j ∧ j < pos + bytes.length then bytes[j - pos]? else m j
  | _, j => m j

def Inside (c : Cookie) : Prop := c.pos ≤ c.size ∧ c.maxpos ≤ c.size

/-- Every call returns, copies no more than it is asked for and reads what was written. -/
def Faithful (c : Cookie) (m : ℕ → Option UInt8) : List (Call size) → Prop
  | [] => Inside c
  | call :: calls => Inside c ∧ Returns (perform c call) fun r => r.2.length ≤ call.asked ∧
      (∀ i < r.2.length, ∀ x ∈ written m c.pos r.2 call (c.pos + i), r.2[i]? = some x) ∧
      Faithful r.1 (written m c.pos r.2 call) calls

/-- A write in text mode at the end of the buffer that does not end in a null byte. -/
def Full (c : Cookie) : Call size → Prop
  | .write b _ => c.binmode = false ∧ c.pos = c.size ∧ b.getLast? ≠ some 0
  | _ => False

def Clear (c : Cookie) : List (Call size) → Prop
  | [] => True
  | call :: calls => ¬ Full c call ∧ ∀ r, perform c call = .ok r → Clear r.1 calls

structure Inv (size : ℕ) (m : ℕ → Option UInt8) (c : Cookie) : Prop where
  pos : 0 < size
  lt : size < 2 ^ 63
  size_eq : c.size = size
  length : c.buffer.length = size
  inside : Inside c
  recent : ∀ i, ∀ x ∈ m i, i < c.maxpos ∧ c.buffer[i]? = some x

lemma length_of_loadRange {xs ys : List α} (h : loadRange xs i n = .ok ys) : ys.length = n := by
  rw [loadRange] at h
  split_ifs at h
  cases h
  simp
  omega

section
variable {size : ℕ} {c : Cookie} {m : ℕ → Option UInt8} (h : Inv size m c)
include h

lemma Inv.read (fits : s + size < 2 ^ 64) : Returns (fmemopenRead c s) fun r => r.2.length ≤ s ∧
      (∀ i < r.2.length, ∀ x ∈ m (c.pos + i), r.2[i]? = some x) ∧ Inv size m r.1 := by
  obtain ⟨hpos, hlt, rfl, hlen, ⟨hle, hmax⟩, hm⟩ := h
  rw [fmemopenRead, sizeAdd_eq (by omega), sizeSub_eq hle (by omega)]
  by_cases hend : c.pos + s > c.size ∧ c.pos = c.size
  · rw [if_pos hend]
    exact returns_ok ⟨by simp, by simp, hpos, hlt, rfl, hlen, ⟨hle, hmax⟩, hm⟩
  generalize hn : (if c.pos + s > c.size then c.size - c.pos else s) = n
  have hkn : n ≤ s ∧ c.pos + n ≤ c.size := by
    rw [← hn]
    split_ifs <;> omega
  have hbytes : ((c.buffer.drop c.pos).take n).length = n := by
    simp
    omega
  rw [if_neg hend, loadRange, if_pos (by omega), ok_bind, hbytes, sizeAdd_eq (by omega)]
  refine returns_ok ⟨hbytes.trans_le hkn.1, ?_, hpos, hlt, rfl, hlen, ⟨hkn.2, max_le hmax hkn.2⟩,
    fun i x hx => ⟨lt_max_of_lt_left (hm i x hx).1, (hm i x hx).2⟩⟩
  intro i hi x hx
  simpa [hbytes ▸ hi] using (hm _ x hx).2

lemma Inv.seek (p : UInt64) (w : Whence) : Inv size m (fmemopenSeek c p w) := by
  have hseek : ∀ np, Inv size m (if 2 ^ 63 ≤ np ∨ np > c.size then c else { c with pos := np }) := by
    intro np
    split_ifs with hout
    · exact h
    · exact ⟨h.pos, h.lt, h.size_eq, h.length, ⟨by dsimp only; omega, h.inside.2⟩, h.recent⟩
  cases w with
  | set | cur | fromEnd => exact hseek _
  | other => exact h

lemma Inv.write (fits : b.length + size < 2 ^ 64) (hfull : ¬ Full c (.write b fits)) :
    Returns (fmemopenWrite c b) fun r => r.2.length ≤ b.length ∧
      Inv size (written m c.pos r.2 (.write b fits)) r.1 := by
  obtain ⟨hpos, hlt, rfl, hlen, ⟨hle, hmax⟩, hm⟩ := h
  rw [fmemopenWrite]
  generalize ha : (if c.binmode = false ∧ b.getLast? ≠ some 0 then 1 else 0) = a
  have hka : c.pos + a ≤ c.size := by
    rw [← ha]
    split_ifs with hadd
    · have : c.pos ≠ c.size := fun hk => hfull ⟨hadd.1, hk, hadd.2⟩
      omega
    · exact hle
  rw [sizeAdd_eq (a := c.pos) (by omega), sizeAdd_eq (by omega), sizeAdd_eq (by omega),
    sizeSub_eq hle (by omega), sizeSub_eq (by omega) (by omega)]
  generalize hn : (if c.pos + b.length + a > c.size then c.size - c.pos - a else b.length) = n
  have hkn : n ≤ b.length ∧ c.pos + n + a ≤ c.size := by
    rw [← hn]
    split_ifs <;> omega
  have htake : (b.take n).length = n := by simp [hkn.1]
  obtain ⟨buffer, hstore, hover⟩ :=
    storeRange_overwrites (show c.pos + (b.take n).length ≤ c.buffer.length by omega)
  have hlen' := hover.length_eq
  by_cases hend : c.pos + b.length + a > c.size ∧ c.pos + a = c.size
  · rw [if_pos hend]
    refine returns_ok ⟨by simp, hpos, hlt, rfl, hlen, ⟨hle, hmax⟩, fun i x hx => hm i x ?_⟩
    simpa [written, not_lt_of_ge] using hx
  have hdone : ∀ buffer' maxpos, buffer'.length = c.size → max c.maxpos (c.pos + n) = maxpos →
      (∀ j < maxpos, buffer'[j]? = buffer[j]?) → (b.take n).length ≤ b.length ∧
        Inv c.size (written m c.pos (b.take n) (.write b fits))
          { c with buffer := buffer', pos := c.pos + n, maxpos } := by
    rintro buffer' _ hlen rfl hkeep
    refine ⟨htake.trans_le hkn.1, hpos, hlt, rfl, hlen, ⟨by dsimp only; omega, by dsimp only; omega⟩, ?_⟩
    intro j x hx
    simp only [written, htake] at hx
    split_ifs at hx with hj
    · have hholds := hover.holds (j - c.pos) (by omega)
      rw [Nat.add_sub_cancel' hj.1, hx] at hholds
      exact ⟨by dsimp only; omega, (hkeep j (by omega)).trans hholds⟩
    · obtain ⟨hlt, hx⟩ := hm j x hx
      refine ⟨lt_max_of_lt_left hlt, (hkeep j (by omega)).trans ?_⟩
      by_cases hk : j < c.pos
      · rwa [hover.below j hk]
      · rwa [hover.above j (by omega)]
  have hread : loadRange b 0 n = .ok (b.take n) := by simp [loadRange, hkn.1]
  simp only [hread, ok_bind, hstore, sizeAdd_eq (show c.pos + n < 2 ^ 64 by omega)]
  split_ifs with hmore hnull
  · -- the null byte stands behind everything that was written
    rw [store_eq (by omega), ok_bind]
    exact returns_ok (hdone _ _ (by simp; omega) (max_eq_right hmore.le)
      fun j hj => List.getElem?_set_ne (by omega))
  · exact returns_ok (hdone _ _ (hlen'.trans hlen) (max_eq_right hmore.le) fun _ _ => rfl)
  · exact returns_ok (hdone _ _ (hlen'.trans hlen) (max_eq_left (not_lt.mp hmore)) fun _ _ => rfl)

lemma Inv.step (call : Call size) (hfull : ¬ Full c call) :
    Returns (perform c call) fun r => r.2.length ≤ call.asked ∧
      (∀ i < r.2.length, ∀ x ∈ written m c.pos r.2 call (c.pos + i), r.2[i]? = some x) ∧
      Inv size (written m c.pos r.2 call) r.1 := by
  cases call with
  | read s fits => exact h.read fits
  | seek p w => exact returns_ok ⟨le_rfl, by simp, h.seek p w⟩
  | write b fits =>
    refine (h.write fits hfull).mono fun r hr => ⟨hr.1, ?_, hr.2⟩
    intro i hi x hx
    simpa [written, hi] using hx

lemma Inv.stops (call : Call size) (hfull : Full c call) (r : Cookie × List UInt8) :
    perform c call ≠ .ok r := by
  cases call with
  | read s fits => exact hfull.elim
  | seek p w => exact hfull.elim
  | write b fits =>
    obtain ⟨hpos, hlt, rfl, hlen, -, -⟩ := h
    obtain ⟨hbin, hk, hlast⟩ := hfull
    have hadd : (if c.binmode = false ∧ b.getLast? ≠ some 0 then 1 else 0) = 1 := if_pos ⟨hbin, hlast⟩
    intro hr
    rw [perform, fmemopenWrite, hadd, hk, sizeAdd_eq (a := c.size) (b := 1) (by omega),
      if_neg (by omega)] at hr
    have hroom : (if sizeAdd (sizeAdd c.size b.length) 1 > c.size then
        sizeSub (sizeSub c.size c.size) 1 else b.length) ≠ 0 := by
      unfold sizeAdd sizeSub
      split_ifs <;> omega
    obtain ⟨bytes, hload, hr⟩ := ok_of_bind hr
    obtain ⟨buffer, hstore, -⟩ := ok_of_bind hr
    rw [← length_of_loadRange hload] at hroom
    rw [storeRange, if_neg (by omega)] at hstore
    cases hstore

lemma Inv.faithful_iff (calls : List (Call size)) : Faithful c m calls ↔ Clear c calls := by
  induction calls generalizing c m with
  | nil => exact iff_of_true h.inside trivial
  | cons call calls ih =>
    by_cases hfull : Full c call
    · exact iff_of_false (fun ⟨_, r, hr, _⟩ => h.stops call hfull r hr) fun hc => hc.1 hfull
    · obtain ⟨r, hr, hasked, hread, hinv⟩ := h.step call hfull
      have hr' : ∀ r', perform c call = .ok r' ↔ r = r' := by simp [hr]
      simp only [Faithful, Clear, Returns, hr', exists_eq_left', forall_eq']
      exact ⟨fun hf => ⟨hfull, (ih hinv).mp hf.2.2.2⟩,
        fun hc => ⟨h.inside, hasked, hread, (ih hinv).mpr hc.2⟩⟩

end

/-- The callbacks keep to the buffer, and to what was written, unless the room left for a
text is computed at the end of the buffer. -/
theorem fmemopen_faithful_iff (size : ℕ) (c : { c : Cookie // Inv size (fun _ => none) c })
    (calls : List (Call size)) : Faithful c.1 (fun _ => none) calls ↔ Clear c.1 calls :=
  c.2.faithful_iff calls

/-- After a seek to the end of a buffer of one byte, a byte is written. -/
theorem fmemopen_write_at_end : ¬ Faithful ⟨[0], false, 1, 0, 0⟩ (fun _ => none)
    [.seek 1 .set, .write [97] (by decide : _ + 1 < _)] := by
  rintro ⟨-, r, hr, -, -, -, r', hr', -⟩
  cases hr
  simp [perform, fmemopenWrite, fmemopenSeek, sizeAdd, sizeSub, loadRange] at hr'

end Eglibc.Fmemopen
