import Eglibc.Xdr
import Eglibc.Segments

/-!
# What a filter writes and reads

`Represents P zero v bs`: `P` puts `bs` on any stream when it encodes `v`, and reads `v`
back from them into zeroed storage.
-/
namespace Eglibc.Xdr
open Checked BigEndian Segments

@[simp] lemma orFalse_some {α β : Type} (a : α) (f : α → Run (Option β)) :
    orFalse (.ok (some a)) f = f a := rfl

@[simp] lemma orFalse_none {α β : Type} (f : α → Run (Option β)) :
    orFalse (.ok none) f = .ok none := rfl

/-- A stream that bytes can be put on: `Emits s bs s'` when it takes `bs` from `s` to `s'`. -/
structure Sink (σ : Type) where
  ops : XdrOps σ
  Emits : σ → List UInt8 → σ → Prop
  nil : ∀ {s s'}, Emits s [] s' → s' = s
  split : ∀ {s s' as bs}, Emits s (as ++ bs) s' → ∃ t, Emits s as t ∧ Emits t bs s'
  putlong : ∀ {s s' l}, Emits s (bytes32 l) s' → ops.putlong l s = .ok (some s')
  putbytes : ∀ {s s' bs}, Emits s bs s' → ops.putbytes bs s = .ok (some s')

section
variable {m : Mem} {as bs : List UInt8} {z : ℤ}

def Mem.write (m : Mem) (bs : List UInt8) : Mem :=
  ⟨m.buf.take m.pos ++ bs ++ m.buf.drop (m.pos + bs.length), m.pos + bs.length, m.handy - bs.length⟩

def Mem.Room (m : Mem) (n : ℕ) : Prop := n ≤ m.handy ∧ m.pos + n ≤ m.buf.length

lemma Mem.write_append (h : m.Room (as ++ bs).length) : m.write (as ++ bs) = (m.write as).write bs := by
  obtain ⟨h1, h2⟩ := h
  have htake : (m.buf.take m.pos).length = m.pos := by
    rw [List.length_take]
    omega
  have hfront : (m.buf.take m.pos ++ as).length = m.pos + as.length := by
    simp [htake]
  have hdrop : (m.buf.take m.pos ++ as ++ m.buf.drop (m.pos + as.length)).drop
      (m.pos + as.length + bs.length) = m.buf.drop (m.pos + as.length + bs.length) := by
    rw [← List.drop_drop, List.drop_left' hfront, List.drop_drop]
  unfold Mem.write
  simp only [List.length_append, Mem.mk.injEq, ← Nat.add_assoc]
  rw [List.take_left' hfront, hdrop]
  exact ⟨by simp, trivial, by omega⟩

lemma Mem.length_buf_write (h : m.Room bs.length) : (m.write bs).buf.length = m.buf.length := by
  have := h.2
  simp only [Mem.write, List.length_append, List.length_take, List.length_drop]
  omega

lemma Mem.room_write (h : m.Room (as ++ bs).length) : (m.write as).Room bs.length := by
  have ha : m.Room as.length := by
    rw [List.length_append] at h
    exact ⟨le_trans (by omega) h.1, le_trans (by omega) h.2⟩
  rw [List.length_append] at h
  obtain ⟨h1, h2⟩ := h
  constructor
  · simp only [Mem.write]
    omega
  · rw [Mem.length_buf_write ha]
    simp only [Mem.write]
    omega

def memSink : Sink Mem where
  ops := xdrmemOps
  Emits m bs m' := m.Room bs.length ∧ m' = m.write bs
  nil := by
    rintro m m' ⟨_, rfl⟩
    simp [Mem.write]
  split := by
    rintro m m' as bs ⟨h, rfl⟩
    refine ⟨m.write as, ⟨?_, rfl⟩, Mem.room_write h, Mem.write_append h⟩
    rw [List.length_append] at h
    exact ⟨le_trans (by omega) h.1, le_trans (by omega) h.2⟩
  putlong := by
    rintro m m' l ⟨h, rfl⟩
    have hroom : ¬m.handy < 4 := Nat.not_lt.mpr h.1
    simp only [xdrmemOps, xdrmemPutlong, if_neg hroom, storeRange, if_pos h.2, ok_bind]
    rfl
  putbytes := by
    rintro m m' bs ⟨h, rfl⟩
    simp only [xdrmemOps, xdrmemPutbytes, if_neg (Nat.not_lt.mpr h.1), storeRange, if_pos h.2,
      ok_bind]
    rfl

def sizeofSink : Sink ℕ where
  ops := sizeofOps
  Emits n bs n' := n < 2 ^ 32 ∧ n' = (n + bs.length) % 2 ^ 32
  nil := by
    rintro n n' ⟨h, rfl⟩
    exact Nat.mod_eq_of_lt h
  split := by
    rintro n n' as bs ⟨h, rfl⟩
    refine ⟨(n + as.length) % 2 ^ 32, ⟨h, rfl⟩, Nat.mod_lt _ (by norm_num), ?_⟩
    rw [List.length_append, ← Nat.add_assoc, Nat.mod_add_mod]
  putlong := by
    rintro n n' l ⟨_, rfl⟩
    rfl
  putbytes := by
    rintro n n' bs ⟨_, rfl⟩
    rfl

structure Mem.Offers (m : Mem) (bs : List UInt8) : Prop where
  holds : Holds m.buf m.pos bs
  le_handy : bs.length ≤ m.handy
  handy_lt : m.handy < 2 ^ 32

lemma Mem.Offers.left (h : m.Offers (as ++ bs)) : m.Offers as := by
  have hlen := h.le_handy
  rw [List.length_append] at hlen
  exact ⟨(holds_append.mp h.holds).1, by omega, h.handy_lt⟩

lemma Mem.Offers.right (h : m.Offers (as ++ bs)) : (m.skip as.length).Offers bs := by
  have hlen := h.le_handy
  have hlt := h.handy_lt
  rw [List.length_append] at hlen
  exact ⟨(holds_append.mp h.holds).2, by simp only [Mem.skip]; omega,
    by simp only [Mem.skip]; omega⟩

lemma Mem.Offers.after_word (h : m.Offers (bytes32 z ++ bs)) : (m.skip 4).Offers bs := h.right

@[simp] lemma Mem.skip_skip (a b : ℕ) : (m.skip a).skip b = m.skip (a + b) := by
  simp only [Mem.skip, Mem.mk.injEq, true_and]
  omega

lemma Mem.Offers.getlong (h : m.Offers (bytes32 z)) :
    xdrmemOps.getlong m = .ok (some (signed 32 z, m.skip 4)) := by
  have hlen := h.le_handy
  rw [length_bytes32] at hlen
  simp only [xdrmemOps, xdrmemGetlong]
  rw [if_neg (by omega), h.holds.loadRange (n := 4) (bytes32_ne_nil z) rfl, ok_bind,
    signed_number_bytes32]

lemma Mem.Offers.getbytes (h : m.Offers bs) (hne : bs ≠ []) :
    xdrmemOps.getbytes bs.length m = .ok (some (bs, m.skip bs.length)) := by
  have hlen := h.le_handy
  simp only [xdrmemOps, xdrmemGetbytes]
  rw [if_neg (by omega), h.holds.loadRange hne rfl, ok_bind]

end

abbrev Coder (α : Type) := ∀ σ : Type, XdrOps σ → XdrOp → σ → α → Run (Option (σ × α))

structure Represents {α : Type} (P : Coder α) (zero v : α) (bs : List UInt8) : Prop where
  aligned : 4 ∣ bs.length
  encode : ∀ {σ : Type} (k : Sink σ) {s s' : σ}, bs.length < 2 ^ 32 → k.Emits s bs s' →
    P σ k.ops .encode s v = .ok (some (s', v))
  decode : ∀ {m : Mem}, m.Offers bs → P Mem xdrmemOps .decode m zero = .ok (some (m.skip bs.length, v))

section
variable {z : ℤ}

lemma xdrWord_represents (v : Value) (h : narrow (signed 32 (widen z)) = z) :
    Represents (fun _ ops op => xdrWord ops op widen narrow) v (.num z) (bytes32 (widen z)) := by
  constructor
  · simp
  · intro σ k s s' _ he
    simp [xdrWord, Value.toNum, k.putlong he]
  · intro m ho
    simp [xdrWord, ho.getlong, h]

lemma xdrInt_represents (v : Value) (h : -2 ^ 31 ≤ z) (h' : z < 2 ^ 31) :
    Represents (fun _ ops op => xdrInt ops op) v (.num z) (bytes32 z) := by
  apply xdrWord_represents
  simp [signed_eq h h']

lemma xdrUInt_represents (v : Value) (h : 0 ≤ z) (h' : z < 2 ^ 32) :
    Represents (fun _ ops op => xdrUInt ops op) v (.num z) (bytes32 z) := by
  apply xdrWord_represents
  rw [id, unsigned_signed le_rfl, unsigned_eq h h']

lemma xdrShort_represents (v : Value) (h : -2 ^ 15 ≤ z) (h' : z < 2 ^ 15) :
    Represents (fun _ ops op => xdrShort ops op) v (.num z) (bytes32 z) := by
  apply xdrWord_represents
  rw [id, signed_eq (w := 31) (by omega) (by omega), signed_eq h h']

lemma xdrUShort_represents (v : Value) (h : 0 ≤ z) (h' : z < 2 ^ 16) :
    Represents (fun _ ops op => xdrUShort ops op) v (.num z) (bytes32 z) := by
  apply xdrWord_represents
  rw [id, unsigned_signed (by omega), unsigned_eq h h']

lemma xdrEnum_represents (v : Value) (h : -2 ^ 31 ≤ z) (h' : z < 2 ^ 31) :
    Represents (fun _ ops op => xdrEnum ops op) v (.num z) (bytes32 z) := by
  apply xdrWord_represents
  simp [signed_eq h h']

lemma xdrBool_represents (v : Value) (h : z = 0 ∨ z = 1) :
    Represents (fun _ ops op => xdrBool ops op) v (.num z) (bytes32 z) := by
  have hw : (if z ≠ 0 then 1 else 0) = z := by
    rcases h with rfl | rfl <;> rfl
  have hword : Represents (fun _ ops op => xdrBool ops op) v (.num z)
      (bytes32 (if z ≠ 0 then 1 else 0)) :=
    xdrWord_represents v (by rcases h with rfl | rfl <;> rfl)
  rwa [hw] at hword

lemma xdrLong_represents (v : Value) (h : -2 ^ 31 ≤ z) (h' : z < 2 ^ 31) :
    Represents (fun _ ops op => xdrLong ops op) v (.num z) (bytes32 z) := by
  have hz := signed_eq h h'
  constructor
  · simp
  · intro σ k s s' _ he
    simp [xdrLong, Value.toNum, k.putlong he, hz]
  · intro m ho
    simp [xdrLong, ho.getlong, hz]

lemma xdrULong_represents (v : Value) (h : 0 ≤ z) (h' : z < 2 ^ 32) :
    Represents (fun _ ops op => xdrULong ops op) v (.num z) (bytes32 z) := by
  have hz := unsigned_eq h h'
  constructor
  · simp
  · intro σ k s s' _ he
    simp [xdrULong, Value.toNum, k.putlong he, hz]
  · intro m ho
    simp [xdrULong, ho.getlong, unsigned_signed (le_refl 32), hz]

lemma xdrQuad_represents (v : Value) (h : join (signed 32 (z / 2 ^ 32)) (signed 32 z) = z) :
    Represents (fun _ ops op => xdrQuad ops op join) v (.num z)
      (bytes32 (z / 2 ^ 32) ++ bytes32 z) := by
  constructor
  · simp
  · intro σ k s s' _ he
    obtain ⟨t, h1, h2⟩ := k.split he
    simp only [xdrQuad, Value.toNum, ok_bind, k.putlong h1, k.putlong h2, orFalse_some]
  · intro m ho
    simp only [xdrQuad, ho.left.getlong, ho.after_word.getlong, orFalse_some, h, Mem.skip_skip]
    rfl

lemma xdrHyper_represents (v : Value) (h : -2 ^ 63 ≤ z) (h' : z < 2 ^ 63) :
    Represents (fun _ ops op => xdrHyper ops op) v (.num z)
      (bytes32 (z / 2 ^ 32) ++ bytes32 z) := by
  apply xdrQuad_represents
  rw [signed_eq (w := 31) (by omega) (by omega), signed_eq (w := 63) (by omega) (by omega),
    unsigned_signed le_rfl, unsigned]
  omega

lemma xdrUHyper_represents (v : Value) (h : 0 ≤ z) (h' : z < 2 ^ 64) :
    Represents (fun _ ops op => xdrUHyper ops op) v (.num z)
      (bytes32 (z / 2 ^ 32) ++ bytes32 z) := by
  have hhigh : unsigned 64 (signed 32 (z / 2 ^ 32) * 2 ^ 32) = z / 2 ^ 32 * 2 ^ 32 := by
    have h32 := unsigned_signed (z := z / 2 ^ 32) (le_refl 32)
    unfold unsigned at h32 ⊢
    omega
  apply xdrQuad_represents
  rw [hhigh, unsigned_signed le_rfl, unsigned]
  omega

lemma xdrChar_represents (h : -2 ^ 7 ≤ z) (h' : z < 2 ^ 7) :
    Represents (fun _ ops op => xdrChar ops op) .zero (.num z) (bytes32 z) := by
  have hint := xdrInt_represents (z := z) (.num 0) (by omega) (by omega)
  have hz : signed 8 z = z := signed_eq h h'
  constructor
  · simp
  · intro σ k s s' hlen he
    have := (xdrInt_represents (z := z) (.num z) (by omega) (by omega)).encode k hlen he
    simp only [xdrChar, Value.toNum, ok_bind, this, orFalse_some, hz]
  · intro m ho
    have := hint.decode ho
    simp only [xdrChar, Value.toNum, ok_bind, this, orFalse_some, hz]

lemma xdrUChar_represents (h : 0 ≤ z) (h' : z < 2 ^ 8) :
    Represents (fun _ ops op => xdrUChar ops op) .zero (.num z) (bytes32 z) := by
  have huint := xdrUInt_represents (z := z) (.num 0) h (by omega)
  have hz : unsigned 8 z = z := unsigned_eq h h'
  constructor
  · simp
  · intro σ k s s' hlen he
    simp only [xdrUChar, Value.toNum, ok_bind, huint.encode k hlen he, orFalse_some, hz]
  · intro m ho
    simp only [xdrUChar, Value.toNum, ok_bind, huint.decode ho, orFalse_some, hz]

end

section
variable {bs : List UInt8}

def padded (bs : List UInt8) : List UInt8 := bs ++ List.replicate (rndup bs.length) 0

lemma dvd_add_rndup (n : ℕ) : 4 ∣ n + rndup n := by
  unfold rndup
  split_ifs <;> omega

@[simp] lemma length_padded (bs : List UInt8) :
    (padded bs).length = bs.length + rndup bs.length := by
  simp [padded]

lemma xdrOpaque_encode (bs : List UInt8) {σ : Type} (k : Sink σ) {s s' : σ}
    (he : k.Emits s (padded bs) s') :
    xdrOpaque k.ops .encode bs.length s bs = .ok (some (s', bs)) := by
  unfold xdrOpaque
  by_cases h0 : bs.length = 0
  · have hbs := List.length_eq_zero_iff.mp h0
    subst hbs
    rw [if_pos h0, k.nil he]
  obtain ⟨t, h1, h2⟩ := k.split he
  have hload : loadRange bs 0 bs.length = .ok bs := by
    simp [loadRange]
  rw [if_neg h0]
  rw [hload, ok_bind, k.putbytes h1, orFalse_some]
  by_cases hr : rndup bs.length = 0
  · rw [hr] at h2
    rw [if_pos hr, k.nil h2]
  · rw [if_neg hr, k.putbytes h2, orFalse_some]

lemma xdrOpaque_decode (cp : List UInt8) (ho : m.Offers (padded bs)) :
    xdrOpaque xdrmemOps .decode bs.length m cp = .ok (some (m.skip (padded bs).length, bs)) := by
  unfold xdrOpaque
  by_cases h0 : bs.length = 0
  · have hbs := List.length_eq_zero_iff.mp h0
    subst hbs
    rfl
  have h1 := ho.left
  have h2 := ho.right
  rw [if_neg h0]
  dsimp only
  rw [h1.getbytes (fun h => h0 (by simp [h])), orFalse_some]
  by_cases hr : rndup bs.length = 0
  · simp [hr]
  · have := h2.getbytes (by simpa using hr)
    rw [List.length_replicate] at this
    rw [if_neg hr, this, orFalse_some, length_padded, Mem.skip_skip]

lemma xdrOpaqueValue_represents (bs : List UInt8) :
    Represents (fun _ ops op => xdrOpaqueValue ops op bs.length) .zero (.bytes bs) (padded bs) := by
  constructor
  · simpa using dvd_add_rndup bs.length
  · intro σ k s s' _ he
    simp [xdrOpaqueValue, Value.toBytes, xdrOpaque_encode bs k he]
  · intro m ho
    simp [xdrOpaqueValue, Value.toBytes, xdrOpaque_decode _ ho]

lemma counted_aligned (bs : List UInt8) : 4 ∣ (bytes32 bs.length ++ padded bs).length := by
  simpa using dvd_add_rndup bs.length

lemma xdrBytes_represents {maxsize : ℕ} (h : bs.length ≤ maxsize) (hmax : maxsize < 2 ^ 32) :
    Represents (fun _ ops op => xdrBytes ops op maxsize) .zero (.bytes bs)
      (bytes32 bs.length ++ padded bs) := by
  have hsize := xdrUInt_represents (z := bs.length) (.num 0) (by omega) (by omega)
  constructor
  · exact counted_aligned bs
  · intro σ k s s' hlen he
    obtain ⟨t, h1, h2⟩ := k.split he
    have h1' := hsize.encode k (by simp) h1
    simp [xdrBytes, Value.toBytes, Value.toNum, h1', xdrOpaque_encode bs k h2, Nat.not_lt.mpr h]
  · intro m ho
    have h1 := hsize.decode ho.left
    simp [xdrBytes, Value.toBytes, Value.toNum, h1, xdrOpaque_decode [] ho.after_word, Nat.not_lt.mpr h,
      checkStorage]

lemma xdrString_represents {maxsize : ℕ} (h : bs.length ≤ maxsize) (hmax : maxsize < 2 ^ 32) :
    Represents (fun _ ops op => xdrString ops op maxsize) .zero (.bytes bs)
      (bytes32 bs.length ++ padded bs) := by
  have hsize := xdrUInt_represents (z := bs.length) (.num 0) (by omega) (by omega)
  have hu : unsigned 32 (bs.length : ℤ) = bs.length := unsigned_eq (by omega) (by omega)
  -- a string of `UINT_MAX` bytes, whose terminator the code cannot count, fits no stream
  have hnode : (bytes32 bs.length ++ padded bs).length < 2 ^ 32 →
      ¬(bs.length + 1) % 2 ^ 32 = 0 := by
    simp
    omega
  constructor
  · exact counted_aligned bs
  · intro σ k s s' hlen he
    obtain ⟨t, h1, h2⟩ := k.split he
    have h1' := hsize.encode k (by simp) h1
    simp only [xdrString, Value.toBytes, ok_bind, Option.getD_some, hu, h1', orFalse_some,
      Value.toNum, Int.toNat_natCast, if_neg (Nat.not_lt.mpr h), if_neg (hnode hlen),
      xdrOpaque_encode bs k h2]
    simp
  · intro m ho
    have hlen := hnode (lt_of_le_of_lt ho.le_handy ho.handy_lt)
    have h1 := hsize.decode ho.left
    have hzero : unsigned 32 (([] : List UInt8).length : ℤ) = 0 := rfl
    simp only [xdrString, Value.toBytes, ok_bind, Option.getD_none, hzero, h1, orFalse_some,
      Value.toNum, Int.toNat_natCast, if_neg (Nat.not_lt.mpr h), if_neg hlen, length_bytes32,
      xdrOpaque_decode [] ho.after_word, checkStorage]
    simp

end

section
variable {P : Coder Value} {ext : Value → List UInt8} {vs : List Value} {v : Value}

lemma xdrElements_represents (h : ∀ v ∈ vs, Represents P .zero v (ext v)) :
    Represents (fun σ ops op => xdrElements (P σ ops op))
      (List.replicate vs.length .zero) vs (vs.flatMap ext) := by
  induction vs with
  | nil =>
    refine ⟨by simp, ?_, ?_⟩
    · intro σ k s s' _ he
      rw [k.nil he]
      rfl
    · intro m _
      rfl
  | cons v vs ih =>
    have ha := h v (by simp)
    have hb := ih fun v' hv' => h v' (by simp [hv'])
    rw [List.flatMap_cons]
    refine ⟨?_, ?_, ?_⟩
    · rw [List.length_append]
      exact Nat.dvd_add ha.aligned hb.aligned
    · intro σ k s s' hlen he
      rw [List.length_append] at hlen
      obtain ⟨t, h1, h2⟩ := k.split he
      simp [xdrElements, ha.encode k (by omega) h1, hb.encode k (by omega) h2]
    · intro m ho
      simp only [xdrElements, List.length_cons, List.replicate_succ, ha.decode ho.left, orFalse_some,
        hb.decode ho.right, Mem.skip_skip, List.length_append]

lemma xdrArray_represents (h : vs.length ≤ maxsize)
    (hmax : maxsize < 2 ^ 32) (hel : 0 < elsize) (hmem : vs.length ≤ (2 ^ 32 - 1) / elsize)
    (hvs : ∀ v ∈ vs, Represents P .zero v (ext v)) :
    Represents (fun σ ops op => xdrArray ops op maxsize elsize (P σ ops op))
      .zero (.list vs) (bytes32 vs.length ++ vs.flatMap ext) := by
  have hsize := xdrUInt_represents (z := vs.length) (.num 0) (by omega) (by omega)
  have hb := xdrElements_represents hvs
  refine ⟨?_, ?_, ?_⟩
  · simpa using Nat.dvd_add hsize.aligned hb.aligned
  · intro σ k s s' hlen he
    rw [List.length_append] at hlen
    obtain ⟨t, h1, h2⟩ := k.split he
    have h1' := hsize.encode k (by simp) h1
    simp only [xdrArray, Value.toList, ok_bind, Option.getD_some, h1', orFalse_some, Value.toNum,
      Int.toNat_natCast]
    rw [if_neg (by omega), if_neg (by omega), if_neg (by simp)]
    simp [arrayTarget, hb.encode k (by omega) h2]
  · intro m ho
    have h1 := hsize.decode ho.left
    have h2 := hb.decode ho.after_word
    simp only [xdrArray, Value.toList, ok_bind, Option.getD_none, List.length_nil, Nat.cast_zero, h1,
      orFalse_some, Value.toNum, Int.toNat_natCast]
    rw [if_neg (by omega), if_neg (by omega), if_neg (by simp)]
    simp [arrayTarget, ok_bind, length_bytes32, h2, orFalse_some, Mem.skip_skip]

lemma xdrVector_represents (hvs : ∀ v ∈ vs, Represents P .zero v (ext v)) :
    Represents (fun σ ops op => xdrVector vs.length (P σ ops op)) .zero (.list vs)
      (vs.flatMap ext) := by
  have hb := xdrElements_represents hvs
  refine ⟨hb.aligned, ?_, ?_⟩
  · intro σ k s s' hlen he
    simp [xdrVector, Value.toElements, arrayTarget, hb.encode k hlen he]
  · intro m ho
    simp [xdrVector, Value.toElements, arrayTarget, ok_bind, min_self, hb.decode ho, orFalse_some]

lemma xdrPointer_null_represents (P : Coder Value) :
    Represents (fun σ ops op => xdrPointer ops op (P σ ops op)) .zero .null (bytes32 0) := by
  have hmore := xdrBool_represents (z := 0) (.num 0) (.inl rfl)
  constructor
  · simp
  · intro σ k s s' hlen he
    simp [xdrPointer, Value.toRef, Value.toNum, hmore.encode k hlen he]
  · intro m ho
    simp [xdrPointer, Value.toRef, Value.toNum, hmore.decode ho]

lemma xdrPointer_ref_represents (hb : Represents P .zero v bs) :
    Represents (fun σ ops op => xdrPointer ops op (P σ ops op)) .zero (.ref v)
      (bytes32 1 ++ bs) := by
  have hmore := xdrBool_represents (z := 1) (.num 0) (.inr rfl)
  constructor
  · simpa using Nat.dvd_add hmore.aligned hb.aligned
  · intro σ k s s' hlen he
    rw [List.length_append] at hlen
    obtain ⟨t, h1, h2⟩ := k.split he
    simp [xdrPointer, xdrReference, Value.toRef, Value.toNum, hmore.encode k (by simp) h1,
      hb.encode k (by omega) h2]
  · intro m ho
    have h1 := hmore.decode ho.left
    simp [xdrPointer, xdrReference, Value.toRef, Value.toNum, h1, hb.decode ho.after_word]

lemma xdrUnion_represents {choices : List (ℤ × ℕ)} {dfault : Option ℕ} {z : ℤ} {p : ℕ}
    {call : ℕ → Coder Value} {bs : List UInt8} (h : -2 ^ 31 ≤ z) (h' : z < 2 ^ 31)
    (hp : selectArm choices dfault z = some p) (hb : Represents (call p) .zero v bs) :
    Represents (fun σ ops op => xdrUnion ops op choices dfault fun q => call q σ ops op)
      .zero (.union z v) (bytes32 z ++ bs) := by
  have hdscm := xdrEnum_represents (.num 0) h h'
  constructor
  · simpa using Nat.dvd_add hdscm.aligned hb.aligned
  · intro σ k s s' hlen he
    rw [List.length_append] at hlen
    obtain ⟨t, h1, h2⟩ := k.split he
    simp [xdrUnion, Value.toUnion, Value.toNum, hdscm.encode k (by simp) h1, hp,
      hb.encode k (by omega) h2]
  · intro m ho
    have h1 := hdscm.decode ho.left
    simp [xdrUnion, Value.toUnion, Value.toNum, h1, hp, hb.decode ho.after_word]

end

end Eglibc.Xdr
