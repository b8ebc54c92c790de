import Eglibc.NsNameUnpack

/-!
# Which messages `ns_name_unpack` reads safely

A read behind the type of a bit-string label and the terminator are not checked for, and
the bytes looked at are counted in an `int`.
-/
namespace Eglibc.NsName
open Checked Segments Signed

variable {n : UInt8} {s : Unpacking}

/-- Labels as they are stored: ordinary ones, and bit strings with their number of bits. -/
inductive IsLabel : List UInt8 → Prop
  | ordinary {l : List UInt8} : Ordinary l → IsLabel (wireLabel l)
  | bitString {count : UInt8} {l : List UInt8} :
      l.length = ((if count = 0 then 256 else count.toNat) + 7) / 8 → IsLabel (0x41 :: count :: l)

def WireName (name : List UInt8) : Prop :=
  ∃ ls : List (List UInt8), (∀ l ∈ ls, IsLabel l) ∧ name = ls.flatten ++ [0]

/-- The walk over the name at `src` comes by `p`, with so many bytes stored and looked at. -/
inductive Reached (msg : List UInt8) (src size : ℕ) : ℕ → ℕ → ℕ → Prop
  | start : src < msg.length → Reached msg src size src 0 0
  | label {p stored checked l : ℕ} {n : UInt8} : Reached msg src size p stored checked →
      msg[p]? = some n → n ≠ 0 → n &&& 0xc0 = 0 ∨ n &&& 0xc0 = 0x40 →
      labellen msg p = .ok (some l) → stored + l + 1 < size → p + 1 + l < msg.length →
      Reached msg src size (p + 1 + l) (stored + 1 + l) (checked + (l + 1))
  | pointer {p stored checked : ℕ} {n low : UInt8} : Reached msg src size p stored checked →
      msg[p]? = some n → n &&& 0xc0 = 0xc0 → msg[p + 1]? = some low →
      pointerOffset n low < msg.length → checked + 2 < msg.length →
      Reached msg src size (pointerOffset n low) stored (checked + 2)

variable {msg dst : List UInt8} {src size p stored checked : ℕ}

/-- Nothing is read behind the message or stored behind the destination at this place, and
the count of the bytes looked at does not overflow. -/
structure SafeAt (msg : List UInt8) (size p stored checked : ℕ) : Prop where
  terminator : msg[p]? = some 0 → stored < size
  bitString : msg[p]? = some 0x41 → p + 1 < msg.length
  label : ∀ n l, msg[p]? = some n → n ≠ 0 → n &&& 0xc0 = 0 ∨ n &&& 0xc0 = 0x40 →
    labellen msg p = .ok (some l) → stored + l + 1 < size → p + 1 + l < msg.length →
    checked + (l + 1) < 2 ^ 31
  pointer : ∀ n low, msg[p]? = some n → n &&& 0xc0 = 0xc0 → msg[p + 1]? = some low →
    pointerOffset n low < msg.length → checked + 2 < 2 ^ 31

lemma Reached.lt_length (h : Reached msg src size p stored checked) : p < msg.length := by
  cases h <;> assumption

lemma load_some (h : msg[p]? = some n) : load msg p = .ok n := by rw [load, h]

lemma holds_take_drop (msg : List UInt8) (p l : ℕ) : Holds msg p ((msg.drop p).take l) := by
  intro j hj
  rw [List.length_take, List.length_drop] at hj
  rw [List.getElem?_take_of_lt (by omega), List.getElem?_drop]

lemma le_of_flags : ∀ n < 256, UInt8.ofNat n &&& 0xc0 = 0 → n ≤ 63 := by decide +kernel

lemma labellen_returns (hn : msg[p]? = some n) (h0 : n ≠ 0)
    (hflags : n &&& 0xc0 = 0 ∨ n &&& 0xc0 = 0x40) (hsafe : n = 0x41 → p + 1 < msg.length) :
    Returns (labellen msg p) fun o =>
      ∀ l ys, o = some l → Holds msg (p + 1) ys → ys.length = l → IsLabel (n :: ys) := by
  rw [labellen, load_some hn, ok_bind]
  obtain hflags | hflags := hflags
  · rw [if_neg (by simp [hflags]), if_neg (by simp [hflags])]
    refine returns_ok ?_
    rintro _ ys ⟨⟩ - hlen
    have hpos : n.toNat ≠ 0 := fun h => h0 (UInt8.toNat_inj.mp h)
    have hle := le_of_flags n.toNat n.toNat_lt (by rwa [UInt8.ofNat_toNat])
    have hl : Ordinary ys := ⟨by omega, by omega⟩
    have heq : n :: ys = wireLabel ys := by simp [wireLabel, hlen]
    exact heq ▸ .ordinary hl
  rw [if_neg (by simp [hflags]), if_pos hflags]
  split_ifs with hbits
  · obtain ⟨count, hcount⟩ : ∃ count, msg[p + 1]? = some count :=
      ⟨_, List.getElem?_eq_getElem (hsafe hbits)⟩
    rw [load_some hcount, ok_bind]
    refine returns_ok ?_
    rintro _ ys ⟨⟩ hys hlen
    cases ys with
    | nil => simp at hlen
    | cons c ys =>
      obtain rfl : count = c := Option.some_injective _ (hcount.symm.trans (holds_cons.mp hys).1)
      rw [hbits]
      exact .bitString (by simpa using hlen)
  · exact returns_ok fun _ _ h => absurd h (by simp)

/-- The labels stored so far, at a place that the walk comes by. -/
def WalkInv (msg : List UInt8) (src size : ℕ) (s : Unpacking) : Prop :=
  Reached msg src size s.srcp s.dstp s.checked ∧ s.dst.length = size ∧
    ∃ ls : List (List UInt8), (∀ l ∈ ls, IsLabel l) ∧ Holds s.dst 0 ls.flatten ∧
      s.dstp = ls.flatten.length

def Stored (size : ℕ) (out : Unpacked) : Prop :=
  ∀ n dst, out = some (n, dst) → dst.length = size ∧ ∃ name, WireName name ∧ Holds dst 0 name

lemma stored_none : Stored size none := by
  rintro _ _ ⟨⟩

def walkVariant (msg : List UInt8) (size : ℕ) (s : Unpacking) : ℕ :=
  (msg.length - s.checked) + (size - s.dstp)

lemma unpackLabel_safe (h : WalkInv msg src size s)
    (hn : msg[s.srcp]? = some n) (h0 : n ≠ 0) (hflags : n &&& 0xc0 = 0 ∨ n &&& 0xc0 = 0x40)
    (hsafe : SafeAt msg size s.srcp s.dstp s.checked) : Returns (unpackLabel msg n s)
      (Pass (WalkInv msg src size) (walkVariant msg size) (Stored size) s) := by
  obtain ⟨hreached, hsize, ls, hls, hh, hd⟩ := h
  obtain ⟨o, hlen, ho⟩ := labellen_returns hn h0 hflags fun h41 => hsafe.bitString (h41 ▸ hn)
  rw [unpackLabel, hlen, ok_bind]
  cases o with
  | none => exact returns_ok stored_none
  | some l =>
    dsimp only
    split_ifs with hroom
    · exact returns_ok stored_none
    have hlt : s.dstp + l + 1 < size := by omega
    have hcount := hsafe.label n l hn h0 hflags hlen hlt (by omega)
    rw [addInt_eq hcount, ok_bind]
    have hlabel := holds_take_drop msg (s.srcp + 1) l
    refine (store_returns (by omega)).bind fun dst1 hdst1 => ?_
    rw [loadRange, if_pos (by omega), ok_bind]
    obtain ⟨label, heq⟩ : ∃ label, (msg.drop (s.srcp + 1)).take l = label := ⟨_, rfl⟩
    rw [heq] at hlabel ⊢
    have hl : label.length = l := by
      simp [← heq]
      omega
    refine (storeRange_returns (by have := hdst1.length_eq; omega)).bind fun dst2 hdst2 => ?_
    refine returns_ok ⟨⟨.label hreached hn h0 hflags hlen hlt (by omega), ?_, ls ++ [n :: label],
      ?_, ?_, ?_⟩, ?_⟩
    · exact hdst2.length_eq.trans (hdst1.length_eq.trans hsize)
    · simpa [or_imp, forall_and] using ⟨hls, ho l label rfl hlabel hl⟩
    · have hstored := hdst2.extend (hdst1.extend hh (by omega))
        (by rw [List.length_append, List.length_singleton]; omega)
      simpa using hstored
    · rw [List.flatten_append, List.length_append, List.flatten_singleton, List.length_cons]
      dsimp only
      omega
    · unfold walkVariant
      dsimp only
      omega

lemma unpackPointer_safe (h : WalkInv msg src size s)
    (hn : msg[s.srcp]? = some n) (hflags : n &&& 0xc0 = 0xc0)
    (hsafe : SafeAt msg size s.srcp s.dstp s.checked) : Returns (unpackPointer msg src n s)
      (Pass (WalkInv msg src size) (walkVariant msg size) (Stored size) s) := by
  obtain ⟨hreached, hsize, hls⟩ := h
  unfold unpackPointer
  by_cases hend : msg.length ≤ s.srcp + 1
  · rw [if_pos hend]
    exact returns_ok stored_none
  obtain ⟨low, hlow⟩ : ∃ low, msg[s.srcp + 1]? = some low :=
    ⟨_, List.getElem?_eq_getElem (by omega)⟩
  rw [if_neg hend, load_some hlow, ok_bind]
  dsimp only
  split_ifs with htarget
  · exact returns_ok stored_none
  rw [addInt_eq (hsafe.pointer n low hn hflags hlow (by omega)), ok_bind]
  split_ifs
  · exact returns_ok stored_none
  · refine returns_ok ⟨⟨.pointer hreached hn hflags hlow (by omega) (by omega), hsize, hls⟩, ?_⟩
    unfold walkVariant
    dsimp only
    omega

lemma unpackBody_safe (h : WalkInv msg src size s)
    (hsafe : SafeAt msg size s.srcp s.dstp s.checked) : Returns (unpackBody msg src s)
      (Pass (WalkInv msg src size) (walkVariant msg size) (Stored size) s) := by
  have hlt := h.1.lt_length
  obtain ⟨n, hn⟩ : ∃ n, msg[s.srcp]? = some n := ⟨_, List.getElem?_eq_getElem hlt⟩
  rw [unpackBody, load_some hn, ok_bind]
  split_ifs with h0 hlabel hpointer
  · obtain ⟨-, hsize, ls, hls, hh, hd⟩ := h
    have hroom := hsafe.terminator (h0 ▸ hn)
    refine (store_returns (by omega)).bind fun dst hdst => returns_ok ?_
    intro len dst' hout
    unfold unpackEnd at hout
    split_ifs at hout
    cases hout
    exact ⟨hdst.length_eq.trans hsize, _, ⟨ls, hls, rfl⟩, hdst.extend hh (by omega)⟩
  · exact unpackLabel_safe h hn h0 hlabel hsafe
  · exact unpackPointer_safe h hn hpointer hsafe
  · exact returns_ok stored_none

lemma addInt_error {a b : ℕ} (h : ¬ a + b < 2 ^ 31) : addInt a b = .error .wrap := if_neg h

lemma SafeAt.of_returns (h : Returns (iterate (unpackBody msg src) budget s) Q) :
    SafeAt msg s.dst.length s.srcp s.dstp s.checked := by
  obtain ⟨out, hout, -⟩ := h
  cases budget with
  | zero => cases hout
  | succ budget =>
    rw [iterate] at hout
    constructor
    · intro hn
      by_contra hlt
      rw [unpackBody, load_some hn, ok_bind, if_pos rfl, store, if_neg hlt] at hout
      cases hout
    · intro hn
      by_contra hlt
      have hnone : msg[s.srcp + 1]? = none := List.getElem?_eq_none (by omega)
      rw [unpackBody, load_some hn, ok_bind, if_neg (by decide), if_pos (.inr (by decide)),
        unpackLabel, labellen, load_some hn, ok_bind, if_neg (by decide), if_pos (by decide),
        if_pos rfl, load, hnone] at hout
      cases hout
    · intro n l hn h0 hflags hlen hroom hin
      by_contra hcount
      rw [unpackBody, load_some hn, ok_bind, if_neg h0, if_pos hflags, unpackLabel, hlen, ok_bind] at hout
      dsimp only at hout
      rw [if_neg (by omega), addInt_error hcount] at hout
      cases hout
    · intro n low hn hflags hlow htarget
      by_contra hcount
      have hin := (List.getElem?_eq_some_iff.mp hlow).1
      rw [unpackBody, load_some hn, ok_bind, if_neg (ne_zero_of_flags hflags),
        if_neg (by simp [hflags]), if_pos hflags, unpackPointer, if_neg (by omega),
        load_some hlow, ok_bind] at hout
      rw [if_neg (by omega), addInt_error hcount] at hout
      cases hout

lemma Reached.goes_on (hreturns : Returns (nsNameUnpack msg src dst) Q)
    (h : Reached msg src dst.length p stored checked) :
    ∃ s budget, s.srcp = p ∧ s.dstp = stored ∧ s.checked = checked ∧ s.dst.length = dst.length ∧
      Returns (iterate (unpackBody msg src) budget s) Q := by
  induction h with
  | start hlt =>
    rw [nsNameUnpack, if_neg (by omega)] at hreturns
    exact ⟨_, _, rfl, rfl, rfl, rfl, hreturns⟩
  | @label p stored checked l n _ hn h0 hflags hlen hroom hin ih =>
    obtain ⟨s, budget, rfl, rfl, rfl, hsize, hs⟩ := ih
    cases budget with
    | zero => obtain ⟨_, h, -⟩ := hs; cases h
    | succ budget =>
      obtain ⟨dst1, hstore, hdst1⟩ := store_returns (a := n) (show s.dstp < s.dst.length by omega)
      have hlabel : ((msg.drop (s.srcp + 1)).take l).length = l := by
        rw [List.length_take, List.length_drop]
        omega
      obtain ⟨dst2, hstore2, hdst2⟩ := storeRange_returns (show s.dstp + 1 +
        ((msg.drop (s.srcp + 1)).take l).length ≤ dst1.length by rw [hdst1.length_eq, hlabel]; omega)
      have hcount := (SafeAt.of_returns hs).label n l hn h0 hflags hlen (by omega) hin
      have hbody : unpackBody msg src s = .ok (.inl ⟨s.srcp + 1 + l, s.dstp + 1 + l, s.len,
          s.checked + (l + 1), dst2⟩) := by
        rw [unpackBody, load_some hn, ok_bind, if_neg h0, if_pos hflags, unpackLabel, hlen, ok_bind]
        dsimp only
        rw [if_neg (by omega), addInt_eq hcount, ok_bind, hstore, ok_bind, loadRange,
          if_pos (by omega), ok_bind, hstore2]
        rfl
      rw [iterate_next hbody] at hs
      exact ⟨_, budget, rfl, rfl, rfl, hdst2.length_eq.trans (hdst1.length_eq.trans hsize), hs⟩
  | @pointer p stored checked n low _ hn hflags hlow htarget hchecked ih =>
    obtain ⟨s, budget, rfl, rfl, rfl, hsize, hs⟩ := ih
    cases budget with
    | zero => obtain ⟨_, h, -⟩ := hs; cases h
    | succ budget =>
      have hin := (List.getElem?_eq_some_iff.mp hlow).1
      have hcount := (SafeAt.of_returns hs).pointer n low hn hflags hlow htarget
      have hbody : unpackBody msg src s = .ok (.inl { s with
          srcp := pointerOffset n low
          len := some (s.len.getD (s.srcp + 1 - src + 1))
          checked := s.checked + 2 }) := by
        rw [unpackBody, load_some hn, ok_bind, if_neg (ne_zero_of_flags hflags),
          if_neg (by simp [hflags]), if_pos hflags, unpackPointer, if_neg (by omega),
          load_some hlow, ok_bind]
        rw [if_neg (by omega), addInt_eq hcount, ok_bind, if_neg (by omega)]
      rw [iterate_next hbody] at hs
      refine ⟨_, budget, ?_, ?_, ?_, ?_, hs⟩ <;> first | rfl | exact hsize

/-- `ns_name_unpack` ends, stays inside of the message and the destination, and fails or
stores a name, exactly if every place that the walk over the name comes by is safe. -/
theorem nsNameUnpack_stored_iff (msg : List UInt8) (src : ℕ) (dst : List UInt8) :
    Returns (nsNameUnpack msg src dst) (Stored dst.length) ↔
      ∀ p stored checked, Reached msg src dst.length p stored checked →
        SafeAt msg dst.length p stored checked := by
  constructor
  · intro h p stored checked hreached
    obtain ⟨s, budget, rfl, rfl, rfl, hsize, hs⟩ := hreached.goes_on h
    exact hsize ▸ SafeAt.of_returns hs
  · intro h
    unfold nsNameUnpack
    split_ifs with hsrc
    · exact returns_ok stored_none
    refine iterate_returns (I := WalkInv msg src dst.length) (walkVariant msg dst.length)
      (fun s hs => unpackBody_safe hs (h _ _ _ hs.1))
      ⟨.start (by omega), rfl, [], by simp, by simp, rfl⟩ ?_
    unfold walkVariant unpackBudget
    omega

/-- The message ends with the type of a bit-string label: the byte behind it is read. -/
theorem nsNameUnpack_bitString : nsNameUnpack [0x41] 0 (List.replicate 255 0) = .error (.read 1) := by
  decide +kernel

end Eglibc.NsName
