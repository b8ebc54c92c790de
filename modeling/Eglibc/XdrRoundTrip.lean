import Eglibc.XdrFilters

/-!
# Round trips over the type language

`Fits` says which values a data type has and `external` what bytes stand for them.
-/
namespace Eglibc.Xdr
open Checked BigEndian Segments

variable {v : Value} {types : Types} {depth p : ℕ}

section
variable (limit : UInt32 → ℕ → Prop)

/-- The values of one member. `limit` bounds the number of elements of an array by the
size of an element, besides the declared maximum. -/
def FilterFits (fits : ℕ → Value → Prop) : Filter → Value → Prop
  | .int, .num z => -2 ^ 31 ≤ z ∧ z < 2 ^ 31
  | .uInt, .num z => 0 ≤ z ∧ z < 2 ^ 32
  | .long, .num z => -2 ^ 31 ≤ z ∧ z < 2 ^ 31
  | .uLong, .num z => 0 ≤ z ∧ z < 2 ^ 32
  | .hyper, .num z => -2 ^ 63 ≤ z ∧ z < 2 ^ 63
  | .uHyper, .num z => 0 ≤ z ∧ z < 2 ^ 64
  | .short, .num z => -2 ^ 15 ≤ z ∧ z < 2 ^ 15
  | .uShort, .num z => 0 ≤ z ∧ z < 2 ^ 16
  | .char, .num z => -2 ^ 7 ≤ z ∧ z < 2 ^ 7
  | .uChar, .num z => 0 ≤ z ∧ z < 2 ^ 8
  | .bool, .num z => z = 0 ∨ z = 1
  | .enum, .num z => -2 ^ 31 ≤ z ∧ z < 2 ^ 31
  | .opaqueBytes cnt, .bytes bs => bs.length = cnt.toNat
  | .bytes maxsize, .bytes bs => bs.length ≤ maxsize.toNat
  | .string maxsize, .bytes bs => bs.length ≤ maxsize.toNat ∧ 0 ∉ bs
  | .array maxsize elsize p, .list vs =>
    vs.length ≤ maxsize.toNat ∧ 0 < elsize.toNat ∧ limit elsize vs.length ∧ ∀ v ∈ vs, fits p v
  | .vector nelem p, .list vs => vs.length = nelem.toNat ∧ ∀ v ∈ vs, fits p v
  | .pointer _, .null => True
  | .pointer p, .ref v => fits p v
  | .union choices dfault, .union z v =>
    (-2 ^ 31 ≤ z ∧ z < 2 ^ 31) ∧ ∃ p, selectArm choices dfault z = some p ∧ fits p v
  | _, _ => False

/-- The values of a data type whose parts are nested at most `depth` deep. -/
def Fits (types : Types) : ℕ → ℕ → Value → Prop
  | 0, _, _ => False
  | depth + 1, p, .list vs => List.Forall₂ (FilterFits limit (Fits types depth)) (types p) vs
  | _ + 1, _, _ => False

end

def filterBytes (ext : ℕ → Value → List UInt8) : Filter → Value → List UInt8
  | .hyper, .num z => bytes32 (z / 2 ^ 32) ++ bytes32 z
  | .uHyper, .num z => bytes32 (z / 2 ^ 32) ++ bytes32 z
  | .opaqueBytes _, .bytes bs => padded bs
  | .bytes _, .bytes bs => bytes32 bs.length ++ padded bs
  | .string _, .bytes bs => bytes32 bs.length ++ padded bs
  | .array _ _ p, .list vs => bytes32 vs.length ++ vs.flatMap (ext p)
  | .vector _ p, .list vs => vs.flatMap (ext p)
  | .pointer _, .null => bytes32 0
  | .pointer p, .ref v => bytes32 1 ++ ext p v
  | .union choices dfault, .union z v =>
    bytes32 z ++ (match selectArm choices dfault z with
      | some p => ext p v
      | none => [])
  | _, .num z => bytes32 z
  | _, _ => []

def membersBytes (ext : ℕ → Value → List UInt8) : List Filter → List Value → List UInt8
  | f :: fs, v :: vs => filterBytes ext f v ++ membersBytes ext fs vs
  | _, _ => []

def external (types : Types) : ℕ → ℕ → Value → List UInt8
  | depth + 1, p, .list vs => membersBytes (external types depth) (types p) vs
  | _, _, _ => []

/-- What `xdr_array` asks besides: the elements take at most `UINT_MAX` bytes of memory. -/
def Addressable (elsize : UInt32) (count : ℕ) : Prop := count ≤ (2 ^ 32 - 1) / elsize.toNat

section
variable {fits : ℕ → Value → Prop} {ext : ℕ → Value → List UInt8} {call : ℕ → Coder Value}

lemma xdrFilter_represents (hcall : ∀ p v, fits p v → Represents (call p) .zero v (ext p v))
    (h : FilterFits Addressable fits f v) :
    Represents (fun σ ops op => xdrFilter ops op (fun p => call p σ ops op) f) .zero v
      (filterBytes ext f v) := by
  cases f with
  | int =>
    cases v with
    | num z => exact xdrInt_represents .zero h.1 h.2
    | _ => exact h.elim
  | uInt =>
    cases v with
    | num z => exact xdrUInt_represents .zero h.1 h.2
    | _ => exact h.elim
  | long =>
    cases v with
    | num z => exact xdrLong_represents .zero h.1 h.2
    | _ => exact h.elim
  | uLong =>
    cases v with
    | num z => exact xdrULong_represents .zero h.1 h.2
    | _ => exact h.elim
  | hyper =>
    cases v with
    | num z => exact xdrHyper_represents .zero h.1 h.2
    | _ => exact h.elim
  | uHyper =>
    cases v with
    | num z => exact xdrUHyper_represents .zero h.1 h.2
    | _ => exact h.elim
  | short =>
    cases v with
    | num z => exact xdrShort_represents .zero h.1 h.2
    | _ => exact h.elim
  | uShort =>
    cases v with
    | num z => exact xdrUShort_represents .zero h.1 h.2
    | _ => exact h.elim
  | char =>
    cases v with
    | num z => exact xdrChar_represents h.1 h.2
    | _ => exact h.elim
  | uChar =>
    cases v with
    | num z => exact xdrUChar_represents h.1 h.2
    | _ => exact h.elim
  | bool =>
    cases v with
    | num z => exact xdrBool_represents .zero h
    | _ => exact h.elim
  | enum =>
    cases v with
    | num z => exact xdrEnum_represents .zero h.1 h.2
    | _ => exact h.elim
  | opaqueBytes cnt =>
    cases v with
    | bytes bs =>
      have hlen : bs.length = cnt.toNat := h
      have := xdrOpaqueValue_represents bs
      rw [hlen] at this
      exact this
    | _ => exact h.elim
  | bytes maxsize =>
    cases v with
    | bytes bs => exact xdrBytes_represents h maxsize.toNat_lt
    | _ => exact h.elim
  | string maxsize =>
    cases v with
    | bytes bs => exact xdrString_represents h.1 maxsize.toNat_lt
    | _ => exact h.elim
  | array maxsize elsize p =>
    cases v with
    | list vs =>
      obtain ⟨hmax, hel, hmem, hvs⟩ := h
      exact xdrArray_represents hmax maxsize.toNat_lt hel hmem fun v hv => hcall p v (hvs v hv)
    | _ => exact h.elim
  | vector nelem p =>
    cases v with
    | list vs =>
      obtain ⟨hlen, hvs⟩ := h
      have := xdrVector_represents fun v hv => hcall p v (hvs v hv)
      rw [hlen] at this
      exact this
    | _ => exact h.elim
  | pointer p =>
    cases v with
    | null => exact xdrPointer_null_represents (call p)
    | ref v => exact xdrPointer_ref_represents (hcall p v h)
    | _ => exact h.elim
  | union choices dfault =>
    cases v with
    | union z v =>
      obtain ⟨hz, p, hp, hv⟩ := h
      have hext : filterBytes ext (.union choices dfault) (.union z v) = bytes32 z ++ ext p v := by
        simp [filterBytes, hp]
      rw [hext]
      exact xdrUnion_represents hz.1 hz.2 hp (hcall p v hv)
    | _ => exact h.elim

lemma xdrMembers_represents (hcall : ∀ p v, fits p v → Represents (call p) .zero v (ext p v))
    (h : List.Forall₂ (FilterFits Addressable fits) fs vs) :
    Represents (fun σ ops op => xdrMembers ops op (fun p => call p σ ops op) fs)
      (List.replicate fs.length .zero) vs (membersBytes ext fs vs) := by
  induction h with
  | nil =>
    refine ⟨by simp [membersBytes], ?_, ?_⟩
    · intro σ k s s' _ he
      rw [k.nil he]
      rfl
    · intro m _
      rfl
  | @cons f v fs vs hf _ ih =>
    have ha := xdrFilter_represents hcall hf
    rw [membersBytes]
    refine ⟨?_, ?_, ?_⟩
    · rw [List.length_append]
      exact Nat.dvd_add ha.aligned ih.aligned
    · intro σ k s s' hlen he
      rw [List.length_append] at hlen
      obtain ⟨t, h1, h2⟩ := k.split he
      simp only [xdrMembers, ha.encode k (by omega) h1, ih.encode k (by omega) h2, orFalse_some]
    · intro m ho
      simp only [List.length_cons, List.replicate_succ, xdrMembers, ha.decode ho.left,
        ih.decode ho.right, orFalse_some, Mem.skip_skip, List.length_append]

lemma xdrProc_represents (h : Fits Addressable types depth p v) :
    Represents (fun _ ops op => xdrProc ops op types depth p) .zero v
      (external types depth p v) := by
  induction depth generalizing p v with
  | zero => exact h.elim
  | succ depth ih =>
    cases v with
    | list vs =>
      have hcall : ∀ q w, Fits Addressable types depth q w →
          Represents ((fun q _ ops op => xdrProc ops op types depth q : ℕ → Coder Value) q) .zero w
            (external types depth q w) := fun q w hw => ih hw
      have hm := xdrMembers_represents hcall h
      refine ⟨hm.aligned, ?_, ?_⟩
      · intro σ k s s' hlen he
        simp only [xdrProc, Value.toElements, ok_bind, hm.encode k hlen he, orFalse_some]
      · intro m ho
        simp only [xdrProc, Value.toElements, ok_bind, hm.decode ho, orFalse_some]
        rfl
    | _ => exact h.elim

end

section
variable {limit : UInt32 → ℕ → Prop} {fits fits' : ℕ → Value → Prop}

lemma FilterFits.mono (hf : ∀ p v, fits p v → fits' p v) (h : FilterFits limit fits f v) :
    FilterFits limit fits' f v := by
  cases f with
  | array maxsize elsize p =>
    cases v with
    | list vs => exact ⟨h.1, h.2.1, h.2.2.1, fun v hv => hf p v (h.2.2.2 v hv)⟩
    | _ => exact h
  | vector nelem p =>
    cases v with
    | list vs => exact ⟨h.1, fun v hv => hf p v (h.2 v hv)⟩
    | _ => exact h
  | pointer p =>
    cases v with
    | ref v => exact hf p v h
    | _ => exact h
  | union choices dfault =>
    cases v with
    | union z v =>
      obtain ⟨hz, p, hp, hv⟩ := h
      exact ⟨hz, p, hp, hf p v hv⟩
    | _ => exact h
  | _ => cases v <;> exact h

lemma Fits.mono (h : Fits limit types depth p v) (hd : depth ≤ depth') : Fits limit types depth' p v := by
  induction depth generalizing depth' p v with
  | zero => exact h.elim
  | succ depth ih =>
    cases depth' with
    | zero => omega
    | succ depth' =>
      cases v with
      | list vs => exact List.Forall₂.imp (fun f v hf => hf.mono fun p v hv => ih hv (by omega)) h
      | _ => exact h.elim

end

structure Datum (limit : UInt32 → ℕ → Prop) where
  types : Types
  proc : ℕ
  depth : ℕ
  value : Value
  fits : Fits limit types depth proc value

/-- The uses of the filters agree on a value: encoding writes `bs` where there is room, in
whole units and as many bytes as `xdr_sizeof` says, and decoding `bs` followed by anything
gives the value back and stops behind `bs`. -/
def RoundTrips (types : Types) (depth proc : ℕ) (v : Value) (bs : List UInt8) : Prop :=
  4 ∣ bs.length ∧
  (∀ (buf : List UInt8) (size : UInt32), bs.length ≤ size.toNat → size.toNat ≤ buf.length →
    xdrSizeof types depth proc v = .ok bs.length ∧
    Returns (xdrProc xdrmemOps .encode types depth proc (xdrmemCreate buf size) v) fun out =>
      ∃ m, out = some (m, v) ∧ m.pos = bs.length ∧ Holds m.buf 0 bs) ∧
  ∀ (rest : List UInt8) (size : UInt32), bs.length ≤ size.toNat →
    Returns (xdrProc xdrmemOps .decode types depth proc (xdrmemCreate (bs ++ rest) size) .zero)
      fun out => ∃ m, out = some (m, v) ∧ m.pos = bs.length

lemma xdrSizeof_eq (h : Represents (fun _ ops op => xdrProc ops op types depth p) .zero v bs)
    (hlen : bs.length < 2 ^ 32) : xdrSizeof types depth p v = .ok bs.length := by
  have hemits : sizeofSink.Emits (0 : ℕ) bs bs.length :=
    ⟨by norm_num, by rw [Nat.zero_add, Nat.mod_eq_of_lt hlen]⟩
  have he := h.encode sizeofSink hlen hemits
  have hops : sizeofSink.ops = sizeofOps := rfl
  rw [hops] at he
  unfold xdrSizeof
  rw [he]
  rfl

/-- Every value that respects the declared maximum sizes, and whose arrays take at most
`UINT_MAX` bytes of memory, makes the round trip. -/
theorem round_trips (d : Datum Addressable) (extra : ℕ) :
    RoundTrips d.types (d.depth + extra) d.proc d.value
      (external d.types (d.depth + extra) d.proc d.value) := by
  have h := xdrProc_represents (d.fits.mono (Nat.le_add_right d.depth extra))
  generalize external d.types (d.depth + extra) d.proc d.value = bs at h
  refine ⟨h.aligned, ?_, ?_⟩
  · intro buf size hroom hsize
    have hlen : bs.length < 2 ^ 32 := lt_of_le_of_lt hroom size.toNat_lt
    have hm : (xdrmemCreate buf size).Room bs.length := ⟨hroom, by simp [xdrmemCreate]; omega⟩
    refine ⟨xdrSizeof_eq h hlen, ?_⟩
    refine ⟨_, h.encode memSink hlen ⟨hm, rfl⟩, _, rfl, ?_, ?_⟩
    · simp [Mem.write, xdrmemCreate]
    · intro j hj
      simp [Mem.write, xdrmemCreate, List.getElem?_append_left hj]
  · intro rest size hroom
    have ho : (xdrmemCreate (bs ++ rest) size).Offers bs := by
      refine ⟨?_, hroom, size.toNat_lt⟩
      intro j hj
      simp [xdrmemCreate, List.getElem?_append_left hj]
    refine ⟨_, h.decode ho, _, rfl, ?_⟩
    simp [Mem.skip, xdrmemCreate]

def pointerTypes : Types
  | 0 => [.array (UInt32.ofNat (2 ^ 32 - 1)) 8 1]
  | 1 => [.pointer 2]
  | _ => [.int]

def nullPointers (n : ℕ) : List Value := List.replicate n (.list [.null])

def hugeArray : Datum fun _ _ => True where
  types := pointerTypes
  proc := 0
  depth := 2
  value := .list [.list (nullPointers (2 ^ 29))]
  fits := by
    refine .cons ⟨?_, by decide, trivial, ?_⟩ .nil
    · rw [nullPointers, List.length_replicate]
      decide
    · intro v hv
      rw [List.eq_of_mem_replicate hv]
      exact .cons trivial .nil

lemma length_external_nullPointers (n : ℕ) :
    (external pointerTypes 2 0 (.list [.list (nullPointers n)])).length = 4 + 4 * n := by
  have hone : external pointerTypes 1 1 (.list [.null]) = bytes32 0 := by
    simp [external, pointerTypes, membersBytes, filterBytes]
  have hext : external pointerTypes 2 0 (.list [.list (nullPointers n)]) =
      bytes32 (nullPointers n).length ++ (nullPointers n).flatMap (external pointerTypes 1 1) := by
    simp [external, pointerTypes, membersBytes, filterBytes]
  rw [hext, List.length_append, length_bytes32, List.length_flatMap, nullPointers,
    List.map_replicate, hone, List.sum_replicate]
  simp [Nat.mul_comm]

lemma hugeArray_refused (h : m.Room 4) :
    xdrProc xdrmemOps .encode pointerTypes 2 0 m hugeArray.value = .ok none := by
  have hlen : (nullPointers (2 ^ 29)).length = 2 ^ 29 := by
    rw [nullPointers, List.length_replicate]
  have hsize := (xdrUInt_represents (z := ((2 ^ 29 : ℕ) : ℤ)) (.num 0) (by norm_num)
    (by norm_num)).encode memSink (by simp) ⟨h, rfl⟩
  have hops : memSink.ops = xdrmemOps := rfl
  rw [hops] at hsize
  have harray : ∀ elproc, xdrArray xdrmemOps .encode (UInt32.ofNat (2 ^ 32 - 1)).toNat
      (8 : UInt32).toNat elproc m (.list (nullPointers (2 ^ 29))) = .ok none := by
    intro elproc
    simp only [xdrArray, Value.toList, ok_bind, Option.getD_some, hlen, hsize, orFalse_some,
      Value.toNum, Int.toNat_natCast]
    rw [if_neg (by decide), if_pos (by decide)]
  change orFalse (orFalse (xdrArray xdrmemOps .encode (UInt32.ofNat (2 ^ 32 - 1)).toNat
    (8 : UInt32).toNat _ m (.list (nullPointers (2 ^ 29)))) _) _ = _
  rw [harray, orFalse_none, orFalse_none]

/-- `xdr_array` refuses the array, although the stream has room for it. -/
theorem hugeArray_no_round_trip :
    ¬RoundTrips hugeArray.types hugeArray.depth hugeArray.proc hugeArray.value
      (external hugeArray.types hugeArray.depth hugeArray.proc hugeArray.value) := by
  rintro ⟨-, henc, -⟩
  have hlen : (external hugeArray.types hugeArray.depth hugeArray.proc hugeArray.value).length =
      4 + 4 * 2 ^ 29 := length_external_nullPointers (2 ^ 29)
  have hsize : (UInt32.ofNat (2 ^ 32 - 1)).toNat = 2 ^ 32 - 1 := by decide
  obtain ⟨-, out, hout, m, rfl, -⟩ := henc (List.replicate (2 ^ 32 - 1) 0)
    (UInt32.ofNat (2 ^ 32 - 1)) (by rw [hlen, hsize]; norm_num) (by rw [hsize, List.length_replicate])
  have hroom : (xdrmemCreate (List.replicate (2 ^ 32 - 1) 0)
      (UInt32.ofNat (2 ^ 32 - 1))).Room 4 := by
    refine ⟨by rw [xdrmemCreate, hsize]; norm_num, ?_⟩
    rw [xdrmemCreate, List.length_replicate]
    norm_num
  have hnone := hugeArray_refused hroom
  cases hout.symm.trans hnone

end Eglibc.Xdr
