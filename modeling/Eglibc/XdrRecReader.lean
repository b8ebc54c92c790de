import Eglibc.XdrRec
import Eglibc.Segments

/-!
# Reading records

`Within r data rest`: the reader is inside a record of which `data` is still to be read,
with `rest` behind the record.
-/
namespace Eglibc.XdrRec
open Checked BigEndian Segments

variable {bs rest data : List UInt8} {n : ℕ}

def fragment (last : Bool) (d : List UInt8) : List UInt8 :=
  bytes32 (d.length ||| (if last then lastFragBit else 0) : ℕ) ++ d

/-- The ways a record can be put on the wire: no fragment but the last one is empty. -/
inductive Frames : List UInt8 → List UInt8 → Prop
  | last {d : List UInt8} : d.length < 2 ^ 31 → Frames d (fragment true d)
  | more {d data bs : List UInt8} : d ≠ [] → d.length < 2 ^ 31 → Frames data bs →
      Frames (d ++ data) (fragment false d ++ bs)

def buffered (r : RecStream) : List UInt8 := (r.buffer.drop r.inFinger).take (r.inBoundry - r.inFinger)

def unread (r : RecStream) : List UInt8 := buffered r ++ r.tcp.incoming

/-- The input buffer is a part of the object and large enough for a shifted refill. -/
structure InputOk (r : RecStream) : Prop where
  base_le : r.inBase ≤ r.inFinger
  finger_le : r.inFinger ≤ r.inBoundry
  boundry_le : r.inBoundry ≤ r.inBase + r.inSize
  size_le : r.inBase + r.inSize ≤ r.buffer.length
  four_le : 4 ≤ r.inSize
  size_lt : r.inSize < 2 ^ 31

structure Consumed (r : RecStream) (rest : List UInt8) (r' : RecStream) : Prop where
  ok : InputOk r'
  unread_eq : unread r' = rest
  fbtbc_eq : r'.fbtbc = r.fbtbc
  lastFrag_eq : r'.lastFrag = r.lastFrag

section
variable {r : RecStream}

lemma InputOk.length_buffered (h : InputOk r) : (buffered r).length = r.inBoundry - r.inFinger := by
  have := h.boundry_le
  have := h.size_le
  simp only [buffered, List.length_take, List.length_drop]
  omega

lemma InputOk.advance (h : InputOk r) (hc : c ≤ r.inBoundry - r.inFinger) :
    loadRange r.buffer r.inFinger c = .ok ((unread r).take c) ∧
      Consumed r ((unread r).drop c) { r with inFinger := r.inFinger + c } := by
  have hlen := h.length_buffered
  obtain ⟨h1, h2, h3, h4, h5, h6⟩ := h
  constructor
  · rw [loadRange, if_pos (by omega), unread, List.take_append_of_le_length (by omega), buffered,
      List.take_take, Nat.min_eq_left hc]
  · refine ⟨⟨?_, ?_, h3, h4, h5, h6⟩, ?_, rfl, rfl⟩
    · dsimp only
      omega
    · dsimp only
      omega
    · rw [unread, unread, List.drop_append_of_le_length (by omega)]
      simp only [buffered, List.drop_take, List.drop_drop, Nat.sub_add_eq]

lemma Tcp.readit_some (t : Tcp) {len : ℕ} (hlen : 0 < len) (hin : t.incoming ≠ []) :
    ∃ bs t', t.readit len = some (bs, t') ∧ bs ++ t'.incoming = t.incoming ∧
      0 < bs.length ∧ bs.length ≤ len := by
  have hne : 0 < t.incoming.length := List.length_pos_of_ne_nil hin
  have hcond : ¬((len : ℤ) ≤ 0 ∨ t.incoming = []) := by
    rintro (h | h)
    · omega
    · exact hin h
  rw [Tcp.readit, if_neg hcond, Int.toNat_natCast]
  refine ⟨_, _, rfl, List.take_append_drop _ _, ?_, ?_⟩
  · rw [List.length_take]
    omega
  · rw [List.length_take]
    omega

lemma fillInputBuf_returns (h : InputOk r) (hempty : r.inBoundry - r.inFinger = 0)
    (hin : unread r ≠ []) :
    Returns (fillInputBuf r) (fun out => ∃ r', out = some r' ∧ Consumed r (unread r) r' ∧
      0 < r'.inBoundry - r'.inFinger) := by
  have hbuf : buffered r = [] := List.length_eq_zero_iff.mp (h.length_buffered.trans hempty)
  have hun : unread r = r.tcp.incoming := by simp [unread, hbuf]
  rw [hun] at hin ⊢
  obtain ⟨h1, h2, h3, h4, h5, h6⟩ := h
  obtain ⟨i, hi⟩ : ∃ i, i = (r.inBoundry - r.outBase) % 4 := ⟨_, rfl⟩
  unfold fillInputBuf
  dsimp only
  rw [← hi]
  have hsigned : signed 32 ((r.inSize - i : ℕ) : ℤ) = (r.inSize - i : ℕ) :=
    signed_eq (w := 31) (by omega) (by omega)
  obtain ⟨bs, tcp, hread, happend, hpos, hle⟩ := r.tcp.readit_some (by omega : 0 < r.inSize - i) hin
  rw [hsigned, hread, filled]
  refine (storeRange_returns (by omega)).bind ?_
  intro buffer hw
  refine returns_ok ⟨_, rfl, ⟨⟨?_, ?_, ?_, ?_, h5, h6⟩, ?_, rfl, rfl⟩, ?_⟩
  · dsimp only
    omega
  · dsimp only
    omega
  · dsimp only
    omega
  · rwa [hw.length_eq]
  · simp only [unread, buffered, Nat.add_sub_cancel_left]
    rw [hw.holds.take_drop, happend]
  · dsimp only
    omega

lemma inputBody_returns (s : RecStream × ℕ × List UInt8)
    (h : ∃ bs', s.2.2 ++ bs' = bs ∧ bs'.length = s.2.1 ∧ InputOk s.1 ∧ unread s.1 = bs' ++ rest ∧
      s.1.fbtbc = r.fbtbc ∧ s.1.lastFrag = r.lastFrag) : Returns (inputBody s) (Pass
      (fun s => ∃ bs', s.2.2 ++ bs' = bs ∧ bs'.length = s.2.1 ∧ InputOk s.1 ∧
        unread s.1 = bs' ++ rest ∧ s.1.fbtbc = r.fbtbc ∧ s.1.lastFrag = r.lastFrag)
      (fun s => 2 * s.2.1 + if s.1.inBoundry - s.1.inFinger = 0 then 1 else 0)
      (fun out => out.1 = some bs ∧ Consumed r rest out.2) s) := by
  obtain ⟨r', len, got⟩ := s
  obtain ⟨bs', hgot, hlen, hok, hun, hf, hl⟩ := h
  unfold inputBody
  dsimp only at hgot hlen hok hun hf hl ⊢
  by_cases h0 : len = 0
  · have hnil : bs' = [] := List.length_eq_zero_iff.mp (hlen.trans h0)
    subst hnil
    rw [if_pos h0]
    exact returns_ok ⟨by simpa using hgot, hok, by simpa using hun, hf, hl⟩
  split_ifs with hempty
  · have hne : unread r' ≠ [] := by
      rw [hun]
      exact List.append_ne_nil_of_left_ne_nil (List.ne_nil_of_length_pos (by omega)) _
    refine (fillInputBuf_returns hok hempty hne).bind ?_
    rintro out ⟨r'', rfl, hc, hpos⟩
    refine returns_ok ⟨⟨bs', hgot, hlen, hc.ok, hc.unread_eq.trans hun, hc.fbtbc_eq.trans hf,
      hc.lastFrag_eq.trans hl⟩, ?_⟩
    simp [hempty]
    omega
  have hc : min len (r'.inBoundry - r'.inFinger) ≤ bs'.length := by omega
  obtain ⟨hload, hcons⟩ := hok.advance (Nat.min_le_right len (r'.inBoundry - r'.inFinger))
  rw [hload, ok_bind, hun, List.take_append_of_le_length hc]
  rw [hun, List.drop_append_of_le_length hc] at hcons
  refine returns_ok ⟨⟨bs'.drop (min len (r'.inBoundry - r'.inFinger)), ?_, ?_, hcons.ok,
    hcons.unread_eq, hf, hl⟩, ?_⟩
  · rw [List.append_assoc, List.take_append_drop, hgot]
  · rw [List.length_drop, hlen]
  · dsimp only
    split_ifs <;> omega

lemma getInputBytes_returns (h : InputOk r) (hun : unread r = bs ++ rest) :
    Returns (getInputBytes r bs.length) (fun out => out.1 = some bs ∧ Consumed r rest out.2) := by
  refine iterate_returns _ inputBody_returns ⟨bs, rfl, rfl, h, hun, rfl, rfl⟩ ?_
  dsimp only
  split_ifs <;> omega

theorem skipBody_eq (s : RecStream × ℕ × List UInt8)
    (out : RecStream × ℕ × List UInt8 ⊕ Option (List UInt8) × RecStream) (h : inputBody s = .ok out) :
    skipBody (s.1, s.2.1) =
      .ok (out.map (fun s => (s.1, s.2.1)) fun o => (o.1.isSome, o.2)) := by
  unfold inputBody at h
  unfold skipBody
  dsimp only at h ⊢
  split_ifs at h ⊢ with h0 hempty
  · cases h
    rfl
  · obtain ⟨o, ho, h⟩ := ok_of_bind h
    rw [ho, ok_bind]
    cases o <;> cases h <;> rfl
  · obtain ⟨bs, -, h⟩ := ok_of_bind h
    cases h
    rfl

lemma skipInputBytes_returns (h : InputOk r) (hun : unread r = bs ++ rest) :
    Returns (skipInputBytes r bs.length) (fun out => out.1 = true ∧ Consumed r rest out.2) := by
  obtain ⟨out, hout, hsome, hc⟩ := getInputBytes_returns h hun
  exact ⟨_, iterate_maps skipBody_eq hout, by rw [hsome]; rfl, hc⟩

end

section
variable {n : ℕ}

lemma number_bytes32_of_lt (h : n < 2 ^ 32) : number (bytes32 (n : ℤ)) = n := by
  have := number_bytes32 n
  rw [unsigned_eq (by omega) (by omega)] at this
  exact_mod_cast this

lemma lor_lastFragBit (h : n < 2 ^ 31) : n ||| lastFragBit = 2 ^ 31 + n := by
  have := Nat.two_pow_add_eq_or_of_lt h 1
  rw [Nat.mul_one] at this
  rw [lastFragBit, Nat.or_comm, this]

lemma header_last (h : n < 2 ^ 31) (last : Bool) :
    ((n ||| (if last then lastFragBit else 0)) &&& lastFragBit != 0) = last := by
  have hzero : n &&& lastFragBit = 0 := by
    rw [lastFragBit, Nat.and_two_pow, Nat.testBit_lt_two_pow h]
    rfl
  rw [Nat.and_or_distrib_right, hzero, Nat.zero_or]
  cases last <;> simp [lastFragBit]

lemma header_length (h : n < 2 ^ 31) (last : Bool) :
    (n ||| (if last then lastFragBit else 0)) % lastFragBit = n := by
  cases last with
  | false =>
    rw [if_neg (by simp), Nat.or_zero]
    exact Nat.mod_eq_of_lt h
  | true =>
    rw [if_pos rfl, lor_lastFragBit h, lastFragBit]
    omega

lemma header_lt (h : n < 2 ^ 31) (last : Bool) :
    (n ||| (if last then lastFragBit else 0)) < 2 ^ 32 := by
  cases last with
  | false =>
    simp
    omega
  | true =>
    rw [if_pos rfl, lor_lastFragBit h]
    omega

lemma header_ne_zero (last : Bool) (hn : n ≠ 0 ∨ last = true) :
    (n ||| (if last then lastFragBit else 0)) ≠ 0 := by
  rw [ne_eq, Nat.or_eq_zero_iff]
  rintro ⟨h1, h2⟩
  rcases hn with hn | hn
  · exact hn h1
  · subst hn
    cases h2

end

section
variable {r : RecStream}

lemma setInputFragment_returns (h : InputOk r) (hd : d.length < 2 ^ 31) (hne : d ≠ [] ∨ last = true)
    (hun : unread r = fragment last d ++ rest) :
    Returns (setInputFragment r) (fun out => out.1 = true ∧ InputOk out.2 ∧
      unread out.2 = d ++ rest ∧ out.2.fbtbc = d.length ∧ out.2.lastFrag = last) := by
  have hne' : d.length ≠ 0 ∨ last = true := hne.imp_left (mt List.length_eq_zero_iff.mp)
  rw [fragment, List.append_assoc] at hun
  refine (getInputBytes_returns h hun).bind ?_
  rintro ⟨got, r'⟩ ⟨hgot, hc⟩
  subst hgot
  dsimp only
  rw [number_bytes32_of_lt (header_lt hd last), if_neg (header_ne_zero last hne')]
  obtain ⟨h1, h2, h3, h4, h5, h6⟩ := hc.ok
  exact returns_ok ⟨rfl, ⟨h1, h2, h3, h4, h5, h6⟩, hc.unread_eq, header_length hd last,
    header_last hd last⟩

def Within (r : RecStream) (data rest : List UInt8) : Prop :=
  InputOk r ∧
    (r.lastFrag = true ∧ r.fbtbc = data.length ∧ unread r = data ++ rest ∨
     r.lastFrag = false ∧ ∃ d data' bs, data = d ++ data' ∧ r.fbtbc = d.length ∧
       Frames data' bs ∧ unread r = d ++ (bs ++ rest))

structure AtStart (r : RecStream) (rest : List UInt8) : Prop where
  ok : InputOk r
  fbtbc_eq : r.fbtbc = 0
  lastFrag_eq : r.lastFrag = false
  unread_eq : unread r = rest

lemma AtStart.within (h : AtStart r (bs ++ rest)) (hf : Frames data bs) : Within r data rest :=
  ⟨h.ok, .inr ⟨h.lastFrag_eq, [], data, bs, rfl, h.fbtbc_eq, hf, h.unread_eq⟩⟩

section
variable (h : Within r data rest)
include h

theorem Within.current :
    ∃ d data' after, data = d ++ data' ∧ r.fbtbc = d.length ∧ unread r = d ++ after ∧
      ∀ r' d', InputOk r' → r'.lastFrag = r.lastFrag → r'.fbtbc = d'.length →
        unread r' = d' ++ after → Within r' (d' ++ data') rest := by
  obtain ⟨hok, ⟨hl, hf, hu⟩ | ⟨hl, d, data', bs, rfl, hf, hfr, hu⟩⟩ := h
  · refine ⟨data, [], rest, by simp, hf, hu, ?_⟩
    intro r' d' hok' hl' hf' hu'
    simpa using ⟨hok', .inl ⟨hl'.trans hl, hf', hu'⟩⟩
  · refine ⟨d, data', bs ++ rest, rfl, hf, hu, ?_⟩
    intro r' d' hok' hl' hf' hu'
    exact ⟨hok', .inr ⟨hl'.trans hl, d', data', bs, rfl, hf', hfr, hu'⟩⟩

theorem Within.next (h0 : r.fbtbc = 0) (hl : r.lastFrag = false) :
    Returns (setInputFragment r) (fun out => out.1 = true ∧ Within out.2 data rest ∧
      (unread out.2).length < (unread r).length ∧ (0 < out.2.fbtbc ∨ out.2.lastFrag = true)) := by
  obtain ⟨hok, ⟨hl', -, -⟩ | ⟨-, d, data', bs, rfl, hf, hfr, hu⟩⟩ := h
  · rw [hl] at hl'
    cases hl'
  have hd : d = [] := List.length_eq_zero_iff.mp (hf.symm.trans h0)
  subst hd
  cases hfr with
  | @last d hlen =>
    refine (setInputFragment_returns hok hlen (.inr rfl) hu).mono ?_
    rintro ⟨ok, r'⟩ ⟨hret, hok', hu', hf', hl'⟩
    refine ⟨hret, ⟨hok', .inl ⟨hl', hf', hu'⟩⟩, ?_, .inr hl'⟩
    rw [hu, hu', fragment]
    simp
  | @more d data bs hne hlen hfr =>
    rw [List.append_assoc] at hu
    refine (setInputFragment_returns hok hlen (.inl hne) hu).mono ?_
    rintro ⟨ok, r'⟩ ⟨hret, hok', hu', hf', hl'⟩
    refine ⟨hret, ⟨hok', .inr ⟨hl', d, data, bs, rfl, hf', hfr, hu'⟩⟩, ?_, .inl ?_⟩
    · rw [hu, hu', fragment]
      simp
    · rw [hf']
      exact List.length_pos_of_ne_nil hne

/-- The loop of `xdrrec_getbytes` after `got` has been copied. -/
def GettingBytes (n : ℕ) (data rest : List UInt8) (s : RecStream × ℕ × List UInt8) : Prop :=
  ∃ data', Within s.1 data' rest ∧ s.2.2 ++ data' = data ∧ s.2.2.length + s.2.1 = n

def GotBytes (n : ℕ) (data rest : List UInt8) (out : Option (List UInt8) × RecStream) : Prop :=
  n ≤ data.length ∧ out.1 = some (data.take n) ∧ Within out.2 (data.drop n) rest ∨
  data.length < n ∧ out.1 = none ∧ Within out.2 [] rest

omit h in
lemma getbytesBody_fragment (h : Within r data' rest)
    (hgot : got ++ data' = data) (hn : got.length + len = n) (hlen : len ≠ 0) (hf : r.fbtbc ≠ 0) :
    Returns (getbytesBody (r, len, got)) (Pass (GettingBytes n data rest)
      (fun s => 2 * s.2.1 + if s.1.fbtbc = 0 ∧ s.1.lastFrag = false then 1 else 0)
      (GotBytes n data rest) (r, len, got)) := by
  obtain ⟨d, data'', after, rfl, hfd, hun, hwithin⟩ := h.current
  unfold getbytesBody
  dsimp only
  rw [if_neg hlen, if_neg hf]
  have htake : (d.take (min len r.fbtbc)).length = min len r.fbtbc := by
    rw [List.length_take]
    omega
  rw [← List.take_append_drop (min len r.fbtbc) d, List.append_assoc] at hun
  have hin := getInputBytes_returns h.1 hun
  rw [htake] at hin
  refine hin.bind ?_
  rintro ⟨bs, r'⟩ ⟨hbs, hc⟩
  subst hbs
  obtain ⟨h1, h2, h3, h4, h5, h6⟩ := hc.ok
  have hfb := hc.fbtbc_eq
  refine returns_ok ⟨⟨d.drop (min len r.fbtbc) ++ data'', ?_, ?_, ?_⟩, ?_⟩
  · refine hwithin _ _ ⟨h1, h2, h3, h4, h5, h6⟩ hc.lastFrag_eq ?_ hc.unread_eq
    rw [List.length_drop, hfb, hfd]
  · rw [← hgot, List.append_assoc, ← List.append_assoc (d.take _), List.take_append_drop]
  · simp [htake]
    omega
  · dsimp only
    split_ifs <;> omega

omit h in
lemma getbytesBody_returns (s : RecStream × ℕ × List UInt8) (h : GettingBytes n data rest s) :
    Returns (getbytesBody s) (Pass (GettingBytes n data rest)
      (fun s => 2 * s.2.1 + if s.1.fbtbc = 0 ∧ s.1.lastFrag = false then 1 else 0)
      (GotBytes n data rest) s) := by
  obtain ⟨r, len, got⟩ := s
  obtain ⟨data', hw, hgot, hn⟩ := h
  dsimp only at hw hgot hn
  by_cases hlen : len = 0
  · subst hlen hgot
    have hn' : n = got.length := by omega
    subst hn'
    exact returns_ok (.inl ⟨by simp, by simp, by simpa using hw⟩)
  by_cases hf : r.fbtbc = 0
  · unfold getbytesBody
    dsimp only
    rw [if_neg hlen, if_pos hf]
    cases hl : r.lastFrag with
    | true =>
      obtain ⟨hok, ⟨-, hfd, hu⟩ | ⟨hl', -⟩⟩ := id hw
      · have hnil : data' = [] := List.length_eq_zero_iff.mp (hfd.symm.trans hf)
        subst hnil
        rw [List.append_nil] at hgot
        subst hgot
        exact returns_ok (.inr ⟨by omega, rfl, hw⟩)
      · rw [hl] at hl'
        cases hl'
    | false =>
      refine (hw.next hf hl).bind ?_
      rintro ⟨ok, r'⟩ ⟨hok, hw', -, hmore⟩
      dsimp only at hok hw' hmore
      subst hok
      refine returns_ok ⟨⟨data', hw', hgot, hn⟩, ?_⟩
      have hleft : ¬(r'.fbtbc = 0 ∧ r'.lastFrag = false) := by
        rintro ⟨h1, h2⟩
        rcases hmore with h3 | h3
        · omega
        · rw [h2] at h3
          cases h3
      dsimp only
      rw [if_neg hleft, if_pos ⟨hf, hl⟩]
      omega
  · exact getbytesBody_fragment hw hgot hn hlen hf

lemma xdrrecGetbytes_returns (n : ℕ) : Returns (xdrrecGetbytes r n) (GotBytes n data rest) := by
  refine iterate_returns _ getbytesBody_returns ⟨data, h, rfl, by simp⟩ ?_
  dsimp only
  split_ifs <;> omega

theorem Within.inline (hn : n ≤ r.fbtbc) (hb : n ≤ r.inBoundry - r.inFinger) :
    n ≤ data.length ∧ loadRange r.buffer r.inFinger n = .ok (data.take n) ∧
      Within { r with fbtbc := r.fbtbc - n, inFinger := r.inFinger + n } (data.drop n) rest := by
  obtain ⟨d, data', after, rfl, hfd, hun, hwithin⟩ := h.current
  obtain ⟨hload, hcons⟩ := h.1.advance hb
  have hnd : n ≤ d.length := by omega
  have hnd' : n ≤ (d ++ data').length := by
    simp
    omega
  rw [hun, List.take_append_of_le_length hnd] at hload
  rw [hun, List.drop_append_of_le_length hnd] at hcons
  refine ⟨hnd', ?_, ?_⟩
  · rw [hload, List.take_append_of_le_length hnd]
  · rw [List.drop_append_of_le_length hnd]
    obtain ⟨h1, h2, h3, h4, h5, h6⟩ := hcons.ok
    refine hwithin _ _ ⟨h1, h2, h3, h4, h5, h6⟩ rfl ?_ hcons.unread_eq
    simp [hfd]

lemma xdrrecGetlong_returns : Returns (xdrrecGetlong r) (fun out =>
      4 ≤ data.length ∧ out.1 = some (signed 32 (number (data.take 4))) ∧
        Within out.2 (data.drop 4) rest ∨
      data.length < 4 ∧ out.1 = none ∧ Within out.2 [] rest) := by
  unfold xdrrecGetlong
  by_cases hfast : 4 ≤ r.fbtbc ∧ 4 ≤ r.inBoundry - r.inFinger
  · obtain ⟨hle, hload, hw⟩ := h.inline hfast.1 hfast.2
    rw [if_pos hfast, hload, ok_bind]
    exact returns_ok (.inl ⟨hle, rfl, hw⟩)
  rw [if_neg hfast]
  refine (xdrrecGetbytes_returns h 4).bind ?_
  rintro ⟨bs, r'⟩ (⟨hle, hbs, hw⟩ | ⟨hlt, hbs, hw⟩)
  · subst hbs
    exact returns_ok (.inl ⟨hle, rfl, hw⟩)
  · subst hbs
    exact returns_ok (.inr ⟨hlt, rfl, hw⟩)

lemma xdrrecInlineDecode_returns (n : ℕ) : Returns (xdrrecInlineDecode r n) (fun out =>
      n ≤ data.length ∧ out.1 = some (data.take n) ∧ Within out.2 (data.drop n) rest ∨
      out.1 = none ∧ Within out.2 data rest) := by
  unfold xdrrecInlineDecode
  by_cases hg : n ≤ r.fbtbc ∧ r.inFinger + n ≤ r.inBoundry
  · obtain ⟨hle, hload, hw⟩ := h.inline hg.1 (by omega)
    rw [if_pos hg, hload, ok_bind]
    exact returns_ok (.inl ⟨hle, rfl, hw⟩)
  · rw [if_neg hg]
    exact returns_ok (.inr ⟨rfl, h⟩)

omit h in
lemma skiprecordBody_returns (r : RecStream) (h : ∃ data, Within r data rest) :
    Returns (skiprecordBody r) (Pass (fun r => ∃ data, Within r data rest)
      (fun r => (unread r).length) (fun out => out.1 = true ∧ AtStart out.2 rest) r) := by
  obtain ⟨data, h⟩ := h
  unfold skiprecordBody
  split_ifs with hmore
  · obtain ⟨d, data', after, rfl, hfd, hun, hwithin⟩ := h.current
    have hskip := skipInputBytes_returns h.1 hun
    rw [← hfd] at hskip
    refine hskip.bind ?_
    rintro ⟨ok, r'⟩ ⟨hok, hc⟩
    subst hok
    obtain ⟨h1, h2, h3, h4, h5, h6⟩ := hc.ok
    have hw' : Within { r' with fbtbc := 0 } data' rest :=
      hwithin _ [] ⟨h1, h2, h3, h4, h5, h6⟩ hc.lastFrag_eq rfl hc.unread_eq
    have hless : (unread r').length + r.fbtbc = (unread r).length := by
      rw [hc.unread_eq, hun, List.length_append, hfd, Nat.add_comm]
    dsimp only
    rw [if_pos rfl]
    split_ifs with hl
    · have hpos : 0 < r.fbtbc := by
        rcases hmore with h | h
        · exact h
        · rw [← hc.lastFrag_eq, hl] at h
          cases h
      refine returns_ok ⟨⟨data', hw'⟩, ?_⟩
      change (unread r').length < (unread r).length
      omega
    refine (hw'.next rfl (Bool.eq_false_of_not_eq_true hl)).bind ?_
    rintro ⟨ok, r''⟩ ⟨hok, hw'', hlt, -⟩
    dsimp only at hok hw'' hlt
    subst hok
    refine returns_ok ⟨⟨data', hw''⟩, ?_⟩
    have hsame : (unread { r' with fbtbc := 0 }).length = (unread r').length := rfl
    dsimp only
    omega
  push Not at hmore
  obtain ⟨hok, ⟨hl, hf, hu⟩ | ⟨hl, -⟩⟩ := h
  · have hnil : data = [] := List.length_eq_zero_iff.mp (by omega)
    subst hnil
    obtain ⟨h1, h2, h3, h4, h5, h6⟩ := hok
    exact returns_ok ⟨rfl, ⟨h1, h2, h3, h4, h5, h6⟩, hf, rfl, hu⟩
  · exact absurd hl hmore.2

lemma xdrrecSkiprecord_returns :
    Returns (xdrrecSkiprecord r) (fun out => out.1 = true ∧ AtStart out.2 rest) := by
  refine iterate_returns _ skiprecordBody_returns ⟨data, h⟩ ?_
  have := h.1.length_buffered
  simp [unread]
  omega

end

end

inductive ReadOp
  | getbytes (len : ℕ)
  | getlong
  | getint32
  | inline (len : ℕ)

/-- What an operation gives the reader; `failed` is `FALSE` or a null pointer. -/
inductive Answer
  | failed
  | bytes (bs : List UInt8)
  | word (z : ℤ)

def Answer.ofBytes : Option (List UInt8) → Answer
  | none => failed
  | some bs => bytes bs

def Answer.ofWord : Option ℤ → Answer
  | none => failed
  | some z => word z

def readOp (r : RecStream) : ReadOp → Run (Answer × RecStream)
  | .getbytes len => do
    let (bs, r) ← xdrrecGetbytes r len
    .ok (.ofBytes bs, r)
  | .getlong => do
    let (z, r) ← xdrrecGetlong r
    .ok (.ofWord z, r)
  | .getint32 => do
    let (z, r) ← xdrrecGetint32 r
    .ok (.ofWord z, r)
  | .inline len => do
    let (bs, r) ← xdrrecInlineDecode r len
    .ok (.ofBytes bs, r)

def readOps (r : RecStream) : List ReadOp → Run (List Answer × RecStream)
  | [] => .ok ([], r)
  | op :: ops => do
    let (a, r) ← readOp r op
    let (as, r) ← readOps r ops
    .ok (a :: as, r)

def readRecords (r : RecStream) : List (List ReadOp) → Run (Option (List (List Answer)))
  | [] => .ok (some [])
  | ops :: plans => do
    let (ok, r) ← xdrrecSkiprecord r
    if ok then
      let (as, r) ← readOps r ops
      let rest ← readRecords r plans
      .ok (rest.map (as :: ·))
    else .ok none

/-- What one operation may answer when `data` is left of the record, and what is left
then. Only an inline request may be refused while there is enough. -/
inductive Obtains : List UInt8 → ReadOp → Answer → List UInt8 → Prop
  | getbytes {data : List UInt8} {n : ℕ} : n ≤ data.length →
      Obtains data (.getbytes n) (.bytes (data.take n)) (data.drop n)
  | getbytesMore {data : List UInt8} {n : ℕ} : data.length < n →
      Obtains data (.getbytes n) .failed []
  | getlong {data : List UInt8} : 4 ≤ data.length →
      Obtains data .getlong (.word (signed 32 (number (data.take 4)))) (data.drop 4)
  | getlongMore {data : List UInt8} : data.length < 4 → Obtains data .getlong .failed []
  | getint32 {data : List UInt8} : 4 ≤ data.length →
      Obtains data .getint32 (.word (signed 32 (number (data.take 4)))) (data.drop 4)
  | getint32More {data : List UInt8} : data.length < 4 → Obtains data .getint32 .failed []
  | inline {data : List UInt8} {n : ℕ} : n ≤ data.length →
      Obtains data (.inline n) (.bytes (data.take n)) (data.drop n)
  | inlineRefused {data : List UInt8} {n : ℕ} : Obtains data (.inline n) .failed data

inductive ObtainsAll : List UInt8 → List ReadOp → List Answer → Prop
  | nil {data : List UInt8} : ObtainsAll data [] []
  | cons {data data' : List UInt8} {op : ReadOp} {ops : List ReadOp} {a : Answer}
      {as : List Answer} : Obtains data op a data' → ObtainsAll data' ops as →
      ObtainsAll data (op :: ops) (a :: as)

inductive Delivers : List (List UInt8) → List (List ReadOp) → List (List Answer) → Prop
  | nil {records : List (List UInt8)} : Delivers records [] []
  | cons {data : List UInt8} {records : List (List UInt8)} {ops : List ReadOp}
      {plans : List (List ReadOp)} {as : List Answer} {rest : List (List Answer)} :
      ObtainsAll data ops as → Delivers records plans rest →
      Delivers (data :: records) (ops :: plans) (as :: rest)

section
variable {r : RecStream}

lemma readOp_returns (h : Within r data rest) (op : ReadOp) :
    Returns (readOp r op) (fun out => ∃ data', Obtains data op out.1 data' ∧
      Within out.2 data' rest) := by
  cases op with
  | getbytes n =>
    refine (xdrrecGetbytes_returns h n).bind ?_
    rintro ⟨bs, r'⟩ (⟨hle, rfl, hw⟩ | ⟨hlt, rfl, hw⟩)
    · exact returns_ok ⟨_, .getbytes hle, hw⟩
    · exact returns_ok ⟨_, .getbytesMore hlt, hw⟩
  | getlong =>
    refine (xdrrecGetlong_returns h).bind ?_
    rintro ⟨z, r'⟩ (⟨hle, rfl, hw⟩ | ⟨hlt, rfl, hw⟩)
    · exact returns_ok ⟨_, .getlong hle, hw⟩
    · exact returns_ok ⟨_, .getlongMore hlt, hw⟩
  | getint32 =>
    refine (xdrrecGetlong_returns h).bind ?_
    rintro ⟨z, r'⟩ (⟨hle, rfl, hw⟩ | ⟨hlt, rfl, hw⟩)
    · exact returns_ok ⟨_, .getint32 hle, hw⟩
    · exact returns_ok ⟨_, .getint32More hlt, hw⟩
  | inline n =>
    refine (xdrrecInlineDecode_returns h n).bind ?_
    rintro ⟨bs, r'⟩ (⟨hle, rfl, hw⟩ | ⟨rfl, hw⟩)
    · exact returns_ok ⟨_, .inline hle, hw⟩
    · exact returns_ok ⟨_, .inlineRefused, hw⟩

lemma readOps_returns (h : Within r data rest) (ops : List ReadOp) :
    Returns (readOps r ops) (fun out => ObtainsAll data ops out.1 ∧
      ∃ data', Within out.2 data' rest) := by
  induction ops generalizing r data with
  | nil => exact returns_ok ⟨.nil, data, h⟩
  | cons op ops ih =>
    refine (readOp_returns h op).bind ?_
    rintro ⟨a, r'⟩ ⟨data', ho, hw⟩
    refine (ih hw).bind ?_
    rintro ⟨as, r''⟩ ⟨has, hw'⟩
    exact returns_ok ⟨.cons ho has, hw'⟩

theorem readRecords_returns
    (h : Within r data (wires.flatten ++ tail)) (hf : List.Forall₂ Frames records wires)
    (plans : List (List ReadOp)) (hlen : plans.length ≤ records.length) :
    Returns (readRecords r plans) (fun out => ∃ answers, out = some answers ∧
      Delivers records plans answers) := by
  induction plans generalizing r data records wires with
  | nil => exact returns_ok ⟨[], rfl, .nil⟩
  | cons ops plans ih =>
    cases hf with
    | nil => simp at hlen
    | @cons record wire records wires hrec hf =>
      rw [List.flatten_cons, List.append_assoc] at h
      refine (xdrrecSkiprecord_returns h).bind ?_
      rintro ⟨ok, r'⟩ ⟨hok, hstart⟩
      subst hok
      refine (readOps_returns (hstart.within hrec) ops).bind ?_
      rintro ⟨as, r''⟩ ⟨has, data', hw⟩
      refine (ih hw hf (by simpa using hlen)).bind ?_
      rintro out ⟨answers, rfl, hd⟩
      exact returns_ok ⟨as :: answers, rfl, .cons has hd⟩

end

end Eglibc.XdrRec
