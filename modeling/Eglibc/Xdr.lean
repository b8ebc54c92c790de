import Eglibc.Checked
import Eglibc.BigEndian

/-!
# External data representation

The filters of `xdr.c`, `xdr_array.c` and `xdr_ref.c`, over any stream, with the
memory stream of `xdr_mem.c` and the counting stream of `xdr_sizeof.c`. A filter
answers with the stream and the object, or with `none` where C returns `FALSE`. A data
type is a procedure that applies one filter to each member of a record; where C passes a
procedure, a filter here holds its index. Integers are converted where C converts them;
`long` has 64 bits and `char` is signed.
-/
namespace Eglibc.Xdr
open Checked BigEndian

inductive XdrOp
  | encode
  | decode
  | free
  deriving DecidableEq

/-- The contents of an object. A counted object stands with its count, a pointer with
what it points to. -/
inductive Value
  /-- storage that has only been zeroed -/
  | zero
  | num (z : ℤ)
  | bytes (bs : List UInt8)
  | list (vs : List Value)
  | null
  | ref (v : Value)
  | union (discriminant : ℤ) (arm : Value)

namespace Value

def toNum : Value → Run ℤ
  | num z => .ok z
  | zero => .ok 0
  | _ => .error (.read 0)

/-- The bytes behind a pointer, `none` for a null pointer. -/
def toBytes : Value → Run (Option (List UInt8))
  | bytes bs => .ok (some bs)
  | zero => .ok none
  | null => .ok none
  | _ => .error (.read 0)

/-- The elements behind a pointer, `none` for a null pointer. -/
def toList : Value → Run (Option (List Value))
  | list vs => .ok (some vs)
  | zero => .ok none
  | null => .ok none
  | _ => .error (.read 0)

/-- The `n` elements of an object that holds them itself. -/
def toElements (n : ℕ) : Value → Run (List Value)
  | list vs => .ok vs
  | zero => .ok (List.replicate n zero)
  | _ => .error (.read 0)

def toRef : Value → Run (Option Value)
  | ref v => .ok (some v)
  | zero => .ok none
  | null => .ok none
  | _ => .error (.read 0)

def toUnion : Value → Run (ℤ × Value)
  | union d v => .ok (d, v)
  | zero => .ok (0, zero)
  | _ => .error (.read 0)

end Value

/-- `if (!x) return FALSE;` -/
def orFalse {α β : Type} (x : Run (Option α)) (f : α → Run (Option β)) : Run (Option β) := do
  match ← x with
  | some a => f a
  | none => .ok none

/-- The part of `struct xdr_ops` that the filters use. -/
structure XdrOps (σ : Type) where
  getlong : σ → Run (Option (ℤ × σ))
  putlong : ℤ → σ → Run (Option σ)
  getbytes : ℕ → σ → Run (Option (List UInt8 × σ))
  putbytes : List UInt8 → σ → Run (Option σ)

abbrev Proc (σ : Type) := σ → Value → Run (Option (σ × Value))

section
variable {σ : Type} (ops : XdrOps σ) (op : XdrOp)

/-- The common body of the filters that pass one word through a `long`. -/
def xdrWord (widen narrow : ℤ → ℤ) : Proc σ := fun s v =>
  match op with
  | .encode => do
    let z ← v.toNum
    orFalse (ops.putlong (widen z) s) fun s => .ok (some (s, v))
  | .decode => orFalse (ops.getlong s) fun (l, s) => .ok (some (s, .num (narrow l)))
  | .free => .ok (some (s, v))

def xdrInt : Proc σ := xdrWord ops op id (signed 32)

def xdrUInt : Proc σ := xdrWord ops op id (unsigned 32)

def xdrShort : Proc σ := xdrWord ops op id (signed 16)

def xdrUShort : Proc σ := xdrWord ops op id (unsigned 16)

def xdrEnum : Proc σ := xdrWord ops op id (signed 32)

def xdrBool : Proc σ :=
  xdrWord ops op (fun b => if b ≠ 0 then 1 else 0) (fun lb => if lb = 0 then 0 else 1)

def xdrLong : Proc σ := fun s v =>
  match op with
  | .encode => do
    let z ← v.toNum
    if signed 32 z = z then orFalse (ops.putlong z s) fun s => .ok (some (s, v)) else .ok none
  | .decode => orFalse (ops.getlong s) fun (l, s) => .ok (some (s, .num l))
  | .free => .ok (some (s, v))

def xdrULong : Proc σ := fun s v =>
  match op with
  | .encode => do
    let z ← v.toNum
    if unsigned 32 z ≠ z then .ok none
    else orFalse (ops.putlong z s) fun s => .ok (some (s, v))
  | .decode => orFalse (ops.getlong s) fun (l, s) => .ok (some (s, .num (unsigned 32 l)))
  | .free => .ok (some (s, v))

/-- The common body of the two filters that pass a 64-bit integer as two words. -/
def xdrQuad (join : ℤ → ℤ → ℤ) : Proc σ := fun s v =>
  match op with
  | .encode => do
    let z ← v.toNum
    orFalse (ops.putlong (z / 2 ^ 32) s) fun s =>
      orFalse (ops.putlong z s) fun s => .ok (some (s, v))
  | .decode =>
    orFalse (ops.getlong s) fun (t1, s) =>
      orFalse (ops.getlong s) fun (t2, s) => .ok (some (s, .num (join t1 t2)))
  | .free => .ok (some (s, v))

def xdrHyper : Proc σ := xdrQuad ops op fun t1 t2 => signed 64 (t1 * 2 ^ 32) + unsigned 32 t2

def xdrUHyper : Proc σ := xdrQuad ops op fun t1 t2 => unsigned 64 (t1 * 2 ^ 32) + unsigned 32 t2

def xdrChar : Proc σ := fun s v => do
  let i ← v.toNum
  orFalse (xdrInt ops op s (.num i)) fun (s, i) => do
    let i ← i.toNum
    .ok (some (s, .num (signed 8 i)))

def xdrUChar : Proc σ := fun s v => do
  let u ← v.toNum
  orFalse (xdrUInt ops op s (.num u)) fun (s, u) => do
    let u ← u.toNum
    .ok (some (s, .num (unsigned 8 u)))

def rndup (cnt : ℕ) : ℕ := if cnt % 4 = 0 then 0 else 4 - cnt % 4

/-- The bytes `cp` and their count `cnt`; a decoder answers with the bytes it has read. -/
def xdrOpaque (cnt : ℕ) (s : σ) (cp : List UInt8) : Run (Option (σ × List UInt8)) :=
  if cnt = 0 then .ok (some (s, []))
  else
    match op with
    | .decode =>
      orFalse (ops.getbytes cnt s) fun (bs, s) =>
        if rndup cnt = 0 then .ok (some (s, bs))
        else orFalse (ops.getbytes (rndup cnt) s) fun (_, s) => .ok (some (s, bs))
    | .encode => do
      let bs ← loadRange cp 0 cnt
      orFalse (ops.putbytes bs s) fun s =>
        if rndup cnt = 0 then .ok (some (s, cp))
        else orFalse (ops.putbytes (List.replicate (rndup cnt) 0) s) fun s => .ok (some (s, cp))
    | .free => .ok (some (s, cp))

def xdrOpaqueValue (cnt : ℕ) : Proc σ := fun s v => do
  let cp ← v.toBytes
  orFalse (xdrOpaque ops op cnt s (cp.getD [])) fun (s, bs) => .ok (some (s, .bytes bs))

/-- Storage that is there already must hold what is decoded into it. -/
def checkStorage (storage : Option ℕ) (n : ℕ) : Run Unit :=
  match storage with
  | some size => if size < n then .error (.write n) else .ok ()
  | none => .ok ()

def xdrBytes (maxsize : ℕ) : Proc σ := fun s v => do
  let sp ← v.toBytes
  orFalse (xdrUInt ops op s (.num (sp.getD []).length)) fun (s, size) => do
    let nodesize := (← size.toNum).toNat
    if maxsize < nodesize ∧ op ≠ .free then .ok none
    else
      match op with
      | .decode => do
        checkStorage (sp.map List.length) nodesize
        orFalse (xdrOpaque ops op nodesize s []) fun (s, bs) => .ok (some (s, .bytes bs))
      | .encode => orFalse (xdrOpaque ops op nodesize s (sp.getD [])) fun (s, _) => .ok (some (s, v))
      | .free => .ok (some (s, .null))

/-- A string stands without its terminator, so a storage for it is one byte longer. -/
def xdrString (maxsize : ℕ) : Proc σ := fun s v => do
  let sp ← v.toBytes
  if op = .free ∧ sp = none then .ok (some (s, v))
  else if op = .encode ∧ sp = none then .ok none
  else
    orFalse (xdrUInt ops op s (.num (unsigned 32 (sp.getD []).length))) fun (s, size) => do
      let size := (← size.toNum).toNat
      if maxsize < size then .ok none
      else if (size + 1) % 2 ^ 32 = 0 then .ok none
      else
        match op with
        | .decode => do
          checkStorage (sp.map List.length) size
          orFalse (xdrOpaque ops op size s []) fun (s, bs) => .ok (some (s, .bytes bs))
        | .encode => orFalse (xdrOpaque ops op size s (sp.getD [])) fun (s, _) => .ok (some (s, v))
        | .free => .ok (some (s, .null))

def xdrElements (elproc : Proc σ) : σ → List Value → Run (Option (σ × List Value))
  | s, [] => .ok (some (s, []))
  | s, v :: vs =>
    orFalse (elproc s v) fun (s, v) =>
      orFalse (xdrElements elproc s vs) fun (s, vs) => .ok (some (s, v :: vs))

/-- The elements a loop over `c` elements of an array visits. -/
def arrayTarget (target : Option (List Value)) (c : ℕ) : Run (List Value) :=
  match target with
  | some vs => if vs.length < c then .error (.read c) else .ok (vs.take c)
  | none => .ok (List.replicate c .zero)

def xdrArray (maxsize elsize : ℕ) (elproc : Proc σ) : Proc σ := fun s v => do
  let target ← v.toList
  orFalse (xdrUInt ops op s (.num (target.getD []).length)) fun (s, size) => do
    let c := (← size.toNum).toNat
    if c ≤ maxsize ∧ elsize = 0 then .error .wrap
    else if (maxsize < c ∨ (2 ^ 32 - 1) / elsize < c) ∧ op ≠ .free then .ok none
    else if target.isNone ∧ op = .free then .ok (some (s, v))
    else do
      let vs ← arrayTarget target c
      orFalse (xdrElements elproc s vs) fun (s, vs) =>
        .ok (some (s, if op = .free then .null else .list vs))

def xdrVector (nelem : ℕ) (elproc : Proc σ) : Proc σ := fun s v => do
  let vs ← arrayTarget (some (← v.toElements nelem)) nelem
  orFalse (xdrElements elproc s vs) fun (s, vs) => .ok (some (s, .list vs))

def xdrReference (proc : Proc σ) : Proc σ := fun s v => do
  match ← v.toRef, op with
  | none, .free => .ok (some (s, v))
  | none, .encode => .error (.read 0)
  | none, .decode => orFalse (proc s .zero) fun (s, loc) => .ok (some (s, .ref loc))
  | some loc, op =>
    orFalse (proc s loc) fun (s, loc) => .ok (some (s, if op = .free then .null else .ref loc))

def xdrPointer (xdrObj : Proc σ) : Proc σ := fun s v => do
  let objp ← v.toRef
  orFalse (xdrBool ops op s (.num (if objp.isSome then 1 else 0))) fun (s, moreData) => do
    if (← moreData.toNum) = 0 then .ok (some (s, .null)) else xdrReference op xdrObj s v

/-- The procedure for a discriminant: the first that matches, else the default one. -/
def selectArm (choices : List (ℤ × ℕ)) (dfault : Option ℕ) (dscm : ℤ) : Option ℕ :=
  match choices.find? (fun choice => choice.1 = dscm) with
  | some choice => some choice.2
  | none => dfault

def xdrUnion (choices : List (ℤ × ℕ)) (dfault : Option ℕ) (call : ℕ → Proc σ) : Proc σ :=
  fun s v => do
    let (dscm, unp) ← v.toUnion
    orFalse (xdrEnum ops op s (.num dscm)) fun (s, dscm) => do
      let dscm ← dscm.toNum
      match selectArm choices dfault dscm with
      | none => .ok none
      | some proc => orFalse (call proc s unp) fun (s, unp) => .ok (some (s, .union dscm unp))

end

/-- One call of a filter, with the arguments it has besides the stream and the object. -/
inductive Filter
  | int | uInt | long | uLong | hyper | uHyper | short | uShort | char | uChar | bool | enum
  | opaqueBytes (cnt : UInt32)
  | bytes (maxsize : UInt32)
  | string (maxsize : UInt32)
  | array (maxsize elsize : UInt32) (elproc : ℕ)
  | vector (nelem : UInt32) (elproc : ℕ)
  | pointer (xdrObj : ℕ)
  | union (choices : List (ℤ × ℕ)) (dfault : Option ℕ)

section
variable {σ : Type} (ops : XdrOps σ) (op : XdrOp)

def xdrFilter (call : ℕ → Proc σ) : Filter → Proc σ
  | .int => xdrInt ops op
  | .uInt => xdrUInt ops op
  | .long => xdrLong ops op
  | .uLong => xdrULong ops op
  | .hyper => xdrHyper ops op
  | .uHyper => xdrUHyper ops op
  | .short => xdrShort ops op
  | .uShort => xdrUShort ops op
  | .char => xdrChar ops op
  | .uChar => xdrUChar ops op
  | .bool => xdrBool ops op
  | .enum => xdrEnum ops op
  | .opaqueBytes cnt => xdrOpaqueValue ops op cnt.toNat
  | .bytes maxsize => xdrBytes ops op maxsize.toNat
  | .string maxsize => xdrString ops op maxsize.toNat
  | .array maxsize elsize elproc => xdrArray ops op maxsize.toNat elsize.toNat (call elproc)
  | .vector nelem elproc => xdrVector nelem.toNat (call elproc)
  | .pointer xdrObj => xdrPointer ops op (call xdrObj)
  | .union choices dfault => xdrUnion ops op choices dfault call

def xdrMembers (call : ℕ → Proc σ) :
    List Filter → σ → List Value → Run (Option (σ × List Value))
  | f :: fs, s, v :: vs =>
    orFalse (xdrFilter ops op call f s v) fun (s, v) =>
      orFalse (xdrMembers call fs s vs) fun (s, vs) => .ok (some (s, v :: vs))
  | [], s, [] => .ok (some (s, []))
  | _, _, _ => .error (.read 0)

/-- The data types of a program: the filters that each procedure applies in turn. -/
abbrev Types := ℕ → List Filter

def xdrProc (types : Types) : ℕ → ℕ → Proc σ
  | 0, _ => fun _ _ => .error .budget
  | depth + 1, p => fun s v => do
    let vs ← v.toElements (types p).length
    orFalse (xdrMembers ops op (xdrProc types depth) (types p) s vs) fun (s, vs) =>
      .ok (some (s, .list vs))

end

/-- The memory stream; `pos` is the distance of `x_private` from the start of the buffer. -/
structure Mem where
  buf : List UInt8
  pos : ℕ
  handy : ℕ

def xdrmemCreate (addr : List UInt8) (size : UInt32) : Mem := ⟨addr, 0, size.toNat⟩

def Mem.skip (m : Mem) (n : ℕ) : Mem := ⟨m.buf, m.pos + n, m.handy - n⟩

def xdrmemGetlong (m : Mem) : Run (Option (ℤ × Mem)) :=
  if m.handy < 4 then .ok none
  else do
    let bs ← loadRange m.buf m.pos 4
    .ok (some (signed 32 (number bs), m.skip 4))

def xdrmemPutlong (l : ℤ) (m : Mem) : Run (Option Mem) :=
  if m.handy < 4 then .ok none
  else do
    let buf ← storeRange m.buf m.pos (bytes32 l)
    .ok (some ⟨buf, m.pos + 4, m.handy - 4⟩)

def xdrmemGetbytes (len : ℕ) (m : Mem) : Run (Option (List UInt8 × Mem)) :=
  if m.handy < len then .ok none
  else do
    let bs ← loadRange m.buf m.pos len
    .ok (some (bs, m.skip len))

def xdrmemPutbytes (bs : List UInt8) (m : Mem) : Run (Option Mem) :=
  if m.handy < bs.length then .ok none
  else do
    let buf ← storeRange m.buf m.pos bs
    .ok (some ⟨buf, m.pos + bs.length, m.handy - bs.length⟩)

def xdrmemOps : XdrOps Mem := ⟨xdrmemGetlong, xdrmemPutlong, xdrmemGetbytes, xdrmemPutbytes⟩

/-- The operations of `xdr_sizeof` on `x_handy`; the `get` operations always fail. -/
def sizeofOps : XdrOps ℕ where
  getlong _ := .ok none
  putlong _ handy := .ok (some ((handy + 4) % 2 ^ 32))
  getbytes _ _ := .ok none
  putbytes bs handy := .ok (some ((handy + bs.length) % 2 ^ 32))

def xdrSizeof (types : Types) (depth proc : ℕ) (data : Value) : Run ℕ := do
  match ← xdrProc sizeofOps .encode types depth proc 0 data with
  | some (handy, _) => .ok handy
  | none => .ok 0

end Eglibc.Xdr
