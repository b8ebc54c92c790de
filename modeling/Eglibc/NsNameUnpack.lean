import Eglibc.NsName
import Eglibc.Segments

/-!
# What a name in a message reads as

`Reads buf lo hi pos labels`: the name met at `pos`, in the stretch from `lo` to `hi`, has
the labels. A compression pointer leads to a stretch that lies wholly before it.
-/
namespace Eglibc.NsName
open Checked Segments Signed

def Ordinary (l : List UInt8) : Prop := 0 < l.length ∧ l.length ≤ 63

def wireLabel (l : List UInt8) : List UInt8 := UInt8.ofNat l.length :: l

def wireLabels (ls : List (List UInt8)) : List UInt8 := ls.flatMap wireLabel

def wire (ls : List (List UInt8)) : List UInt8 := wireLabels ls ++ [0]

def pointerBytes (offset : ℕ) : List UInt8 :=
  [UInt8.ofNat (offset / 256) ||| 0xc0, UInt8.ofNat (offset % 256)]

variable (l : List UInt8)

@[simp] lemma length_wireLabel : (wireLabel l).length = l.length + 1 := rfl

@[simp] lemma wireLabels_nil : wireLabels [] = [] := rfl

variable (ls : List (List UInt8))

@[simp] lemma wireLabels_cons : wireLabels (l :: ls) = wireLabel l ++ wireLabels ls := rfl

lemma wireLabels_append (ls' : List (List UInt8)) :
    wireLabels (ls ++ ls') = wireLabels ls ++ wireLabels ls' := List.flatMap_append

@[simp] lemma length_wire : (wire ls).length = (wireLabels ls).length + 1 := by
  simp [wire]

lemma ofNat_flags : ∀ n ≤ 63, UInt8.ofNat n &&& 0xc0 = 0 := by decide

lemma ofNat_ne_zero : ∀ n ≤ 63, 0 < n → UInt8.ofNat n ≠ 0 := by decide

lemma toNat_ofNat (h : n < 256) : (UInt8.ofNat n).toNat = n := by
  simp
  omega

lemma pointer_flags : ∀ n < 64, (UInt8.ofNat n ||| 0xc0) &&& 0xc0 = 0xc0 := by decide

lemma pointer_high : ∀ n < 64, ((UInt8.ofNat n ||| 0xc0) &&& 0x3f).toNat = n := by decide

lemma pointerOffset_bytes (h : offset < 0x4000) :
    pointerOffset (UInt8.ofNat (offset / 256) ||| 0xc0) (UInt8.ofNat (offset % 256)) = offset := by
  rw [pointerOffset, pointer_high _ (by omega), toNat_ofNat (by omega)]
  omega

lemma ne_zero_of_flags {n : UInt8} (h : n &&& 0xc0 = 0xc0) : n ≠ 0 := by
  rintro rfl
  cases h

section
variable {buf : List UInt8} {l : List UInt8} {pos : ℕ}

lemma holds_wireLabel : Holds buf pos (wireLabel l) ↔
      buf[pos]? = some (UInt8.ofNat l.length) ∧ Holds buf (pos + 1) l := holds_cons

lemma labellen_of_holds (h : Holds buf pos (wireLabel l)) (hl : Ordinary l) :
    labellen buf pos = .ok (some l.length) := by
  rw [labellen, Holds.load h, ok_bind, ofNat_flags _ hl.2, if_neg (by decide), if_neg (by decide),
    toNat_ofNat (by have := hl.2; omega)]

end

inductive Reads (buf : List UInt8) : ℕ → ℕ → ℕ → List (List UInt8) → Prop
  | root {lo pos : ℕ} : Holds buf pos [0] → Reads buf lo (pos + 1) pos []
  | label {lo hi pos : ℕ} {l : List UInt8} {ls : List (List UInt8)} :
      Ordinary l → Holds buf pos (wireLabel l) → Reads buf lo hi (pos + (l.length + 1)) ls →
      Reads buf lo hi pos (l :: ls)
  | pointer {lo lo' hi' pos offset : ℕ} {l : List UInt8} {ls : List (List UInt8)} :
      offset < 0x4000 → Holds buf pos (pointerBytes offset) → lo' ≤ offset → hi' ≤ lo →
      Ordinary l → Holds buf offset (wireLabel l) →
      Reads buf lo' hi' (offset + (l.length + 1)) ls → Reads buf lo (pos + 2) pos (l :: ls)

section
variable {buf buf' : List UInt8} {lo hi pos : ℕ} {ls : List (List UInt8)}

section
variable (h : Reads buf lo hi pos ls)
include h

lemma Reads.pos_lt : pos < hi := by
  induction h with
  | root | label _ _ _ ih | pointer => omega

lemma Reads.le_length : hi ≤ buf.length := by
  induction h with
  | root h => exact h.lt_length
  | label _ _ _ ih => exact ih
  | pointer _ h => exact h.le_length (by simp [pointerBytes])

lemma Reads.ordinary : ∀ l ∈ ls, Ordinary l := by
  induction h with
  | root => simp
  | label hl _ _ ih | pointer _ _ _ _ hl _ _ ih => simpa using ⟨hl, ih⟩

theorem Reads.agree (hlo : lo ≤ pos) (ha : AgreeBelow hi buf buf') : Reads buf' lo hi pos ls := by
  induction h with
  | root h => exact .root (h.agree ha (by simp))
  | label hl h hr ih =>
    have := hr.pos_lt
    exact .label hl (h.agree ha (by simp; omega)) (ih (by omega) ha)
  | @pointer lo lo' hi' pos offset l ls ho h hlo' hhi hl ht hr ih =>
    have := hr.pos_lt
    have ha' : AgreeBelow hi' buf buf' := ha.mono (by omega)
    exact .pointer ho (h.agree ha (by simp [pointerBytes])) hlo' hhi hl
      (ht.agree ha' (by simp; omega)) (ih (by omega) ha')

end

lemma Reads.prepend (hl : ∀ l ∈ ls', Ordinary l)
    (hw : Holds buf pos (wireLabels ls')) (h : Reads buf lo hi (pos + (wireLabels ls').length) ls) :
    Reads buf lo hi pos (ls' ++ ls) := by
  induction ls' generalizing pos with
  | nil => simpa using h
  | cons l ls' ih =>
    rw [wireLabels_cons, holds_append] at hw
    rw [wireLabels_cons, List.length_append, ← Nat.add_assoc] at h
    exact .label (hl l (by simp)) hw.1 (ih (fun l' h' => hl l' (by simp [h'])) hw.2 h)

end

section
variable {msg : List UInt8} {src stop : ℕ} {ls : List (List UInt8)} {size : ℕ}

structure UnpackState (msg : List UInt8) (src stop size : ℕ) (read rest : List (List UInt8))
    (lo hi : ℕ) (s : Unpacking) : Prop where
  reads : Reads msg lo hi s.srcp rest
  lo_le : lo ≤ s.srcp
  unvisited : s.checked + (hi - s.srcp + lo) ≤ msg.length
  holds : Holds s.dst 0 (wireLabels read)
  dstp_eq : s.dstp = (wireLabels read).length
  length_eq : s.dst.length = size
  room : (wire (read ++ rest)).length ≤ size
  short : (wire (read ++ rest)).length ≤ maxCdName
  /-- A pointer leads to a label, so that there are not more pointers than labels. -/
  counted : s.checked ≤ 2 * (wireLabels read).length ∨
    s.checked ≤ 2 * (wireLabels read).length + 2 ∧ ∃ n, msg[s.srcp]? = some n ∧ n &&& 0xc0 = 0
  consumed : s.len = none ∧ lo = src ∧ hi = stop ∧ s.srcp = src + s.checked ∨
    s.len = some (stop - src) ∧ stop - src < 2 ^ 31

def UnpackInv (msg : List UInt8) (src stop size : ℕ) (ls : List (List UInt8)) (m : ℕ)
    (s : Unpacking) : Prop :=
  ∃ read rest lo hi, read ++ rest = ls ∧ m = hi - s.srcp + lo ∧
    UnpackState msg src stop size read rest lo hi s

def Unpacks (src stop : ℕ) (ls : List (List UInt8)) (out : Unpacked) : Prop :=
  ∃ dst, out = some (stop - src, dst) ∧ Holds dst 0 (wire ls)

variable {s : Unpacking} {read : List (List UInt8)} {lo hi : ℕ}

lemma UnpackState.checked_le (h : UnpackState msg src stop size read rest lo hi s) : s.checked ≤ 1024 := by
  have hshort := h.short
  have hcounted := h.counted
  simp [wireLabels_append, maxCdName] at hshort
  omega

lemma unpackBody_root {m : ℕ} (h : UnpackState msg src stop size read [] lo hi s) :
    Returns (unpackBody msg src s)
      (Closer (UnpackInv msg src stop size read) (Unpacks src stop read) m) := by
  have hchecked := h.checked_le
  obtain ⟨h, hlo, hun, hh, hd, hlen, hroom, -, -, hc⟩ := h
  cases h with
  | root hz =>
    rw [unpackBody, hz.load, ok_bind, if_pos rfl]
    have hin : s.dstp < s.dst.length := by
      simp at hroom
      omega
    refine (store_returns hin).bind ?_
    intro dst hw
    refine returns_ok ⟨dst, ?_, hw.extend hh (by omega)⟩
    unfold unpackEnd
    rcases hc with ⟨hc, rfl, rfl, hsrcp⟩ | ⟨hc, hint⟩
    · rw [hc, Option.getD_none, if_pos (by omega)]
    · rw [hc, Option.getD_some, if_pos hint]

variable {rest : List (List UInt8)} {l : List UInt8}

lemma unpackLabel_returns (hl : Ordinary l) (hw : Holds msg s.srcp (wireLabel l))
    (hr : Reads msg lo hi (s.srcp + (l.length + 1)) rest)
    (h : UnpackState msg src stop size read (l :: rest) lo hi s) :
    Returns (unpackLabel msg (UInt8.ofNat l.length) s)
      (Closer (UnpackInv msg src stop size (read ++ l :: rest))
        (Unpacks src stop (read ++ l :: rest)) (hi - s.srcp + lo)) := by
  have hchecked := h.checked_le
  obtain ⟨-, hlo, hun, hh, hd, hlen, hroom, hshort, hcounted, hc⟩ := h
  have hlt := hr.pos_lt
  have hle := hr.le_length
  have hpos := hl.1
  have hle63 := hl.2
  have hsize : (wireLabels read).length + (l.length + 1 + (wireLabels rest).length) + 1 ≤ size := by
    simpa [wireLabels_append] using hroom
  rw [unpackLabel, labellen_of_holds hw hl, ok_bind]
  dsimp only
  rw [if_neg (by omega), addInt_eq (by omega), ok_bind]
  refine (store_returns (by omega)).bind ?_
  intro dst hdst
  have hlabel := (holds_wireLabel.mp hw).2
  rw [hlabel.loadRange (List.ne_nil_of_length_pos hpos) rfl, ok_bind]
  refine (storeRange_returns (by have := hdst.length_eq; omega)).bind ?_
  intro dst' hdst'
  refine returns_ok ⟨hi - (s.srcp + 1 + l.length) + lo, by omega, read ++ [l], rest, lo, hi,
    by simp, rfl, ?_⟩
  have hwritten : Holds dst' 0 (wireLabels read ++ [UInt8.ofNat l.length] ++ l) :=
    hdst'.extend (hdst.extend hh (by omega)) (by simp; omega)
  constructor
  · rwa [show s.srcp + 1 + l.length = s.srcp + (l.length + 1) by omega]
  · dsimp only
    omega
  · dsimp only
    omega
  · simpa [wireLabels_append, wireLabel] using hwritten
  · simp [wireLabels_append]
    omega
  · rw [hdst'.length_eq, hdst.length_eq, hlen]
  · simpa using hroom
  · simpa using hshort
  · left
    simp [wireLabels_append]
    omega
  · exact hc.imp_left fun ⟨hnone, hlo', hhi, hsrcp⟩ => ⟨hnone, hlo', hhi, by dsimp only; omega⟩

lemma unpackPointer_returns
    {lo' hi' offset : ℕ} (ho : offset < 0x4000) (hw : Holds msg s.srcp (pointerBytes offset))
    (hlo' : lo' ≤ offset) (hhi : hi' ≤ lo) (hl : Ordinary l) (ht : Holds msg offset (wireLabel l))
    (hr : Reads msg lo' hi' offset (l :: rest))
    (h : UnpackState msg src stop size read (l :: rest) lo (s.srcp + 2) s) :
    Returns (unpackPointer msg src (UInt8.ofNat (offset / 256) ||| 0xc0) s)
      (Closer (UnpackInv msg src stop size (read ++ l :: rest))
        (Unpacks src stop (read ++ l :: rest)) (s.srcp + 2 - s.srcp + lo)) := by
  have hchecked := h.checked_le
  obtain ⟨-, hlo, hun, hh, hd, hlen, hroom, hshort, hcounted, hc⟩ := h
  have hlt := hr.pos_lt
  have hin : s.srcp + 2 ≤ msg.length := hw.le_length (by simp [pointerBytes])
  have hlow : load msg (s.srcp + 1) = .ok (UInt8.ofNat (offset % 256)) :=
    (holds_cons.mp hw).2.load
  rw [unpackPointer, if_neg (by omega), hlow, ok_bind]
  rw [pointerOffset_bytes ho, if_neg (by omega), addInt_eq (by omega), ok_bind, if_neg (by omega)]
  refine returns_ok ⟨hi' - offset + lo', by omega, read, l :: rest, lo', hi', rfl, rfl, ?_⟩
  constructor
  · exact hr
  · exact hlo'
  · dsimp only
    omega
  · exact hh
  · exact hd
  · exact hlen
  · exact hroom
  · exact hshort
  · refine .inr ⟨?_, _, (holds_wireLabel.mp ht).1, ofNat_flags _ hl.2⟩
    obtain hcounted | ⟨-, n, hn, hflags⟩ := hcounted
    · dsimp only
      omega
    · -- the byte here is that of a pointer
      obtain rfl : n = _ := Option.some_injective _ (hn.symm.trans (holds_cons.mp hw).1)
      exact absurd (hflags.symm.trans (pointer_flags _ (by omega))) (by decide)
  · refine .inr ?_
    rcases hc with ⟨hc, rfl, rfl, hsrcp⟩ | ⟨hc, hint⟩
    · simp [hc]
      omega
    · exact ⟨by rw [hc, Option.getD_some], hint⟩

lemma unpackBody_returns (m : ℕ) (s : Unpacking) (h : UnpackInv msg src stop size ls m s) :
    Returns (unpackBody msg src s)
      (Closer (UnpackInv msg src stop size ls) (Unpacks src stop ls) m) := by
  obtain ⟨read, rest, lo, hi, rfl, rfl, h⟩ := h
  cases hr : h.reads with
  | root hz => simpa using unpackBody_root (by simpa using h)
  | label hl hw hr' =>
    rw [unpackBody, hw.load, ok_bind, if_neg (ofNat_ne_zero _ hl.2 hl.1), if_pos (.inl (ofNat_flags _ hl.2))]
    exact unpackLabel_returns hl hw hr' h
  | @pointer _ _ _ _ offset _ _ ho hw hlo hhi hl ht hr' =>
    have hflags := pointer_flags (offset / 256) (by omega)
    rw [unpackBody, hw.load, ok_bind, if_neg (ne_zero_of_flags hflags), hflags, if_neg (by decide),
      if_pos rfl]
    exact unpackPointer_returns ho hw hlo hhi hl ht (.label hl ht hr') h

theorem nsNameUnpack_returns (h : Reads msg src stop src ls) (hd : (wire ls).length ≤ dst.length)
    (hshort : (wire ls).length ≤ maxCdName) :
    Returns (nsNameUnpack msg src dst) (Unpacks src stop ls) := by
  have hlt := h.pos_lt
  have hle := h.le_length
  rw [nsNameUnpack, if_neg (by omega)]
  refine iterate_closer unpackBody_returns (m := stop - src + src)
    (I := UnpackInv msg src stop dst.length ls) ⟨[], ls, src, stop, rfl, rfl, ?_⟩
    (by unfold unpackBudget; omega)
  exact ⟨h, le_rfl, by dsimp only; omega, by simp, rfl, rfl, hd, hshort, .inl (by simp),
    .inl ⟨rfl, rfl, rfl, rfl⟩⟩

end

end Eglibc.NsName
