import Eglibc.Signed

/-!
# Compressed domain names

`ns_name_unpack`, `ns_name_pack` and the functions they call. Pointers into the message
are offsets from `msg`, pointers into the compression table are indices from `dnptrs`, and
a result of -1 is `none`. The message and the destination of `ns_name_pack` are parts of
one object `buf`.
-/
namespace Eglibc.NsName
open Checked Signed

def maxCdName : ℕ := 255

def mklower (ch : UInt8) : UInt8 := if 0x41 ≤ ch ∧ ch ≤ 0x5A then ch + 0x20 else ch

def labellen (obj : List UInt8) (lp : ℕ) : Run (Option ℕ) := do
  let l ← load obj lp
  if l &&& 0xc0 = 0xc0 then .ok none
  else if l &&& 0xc0 = 0x40 then
    if l = 0x41 then
      let bitlen ← load obj (lp + 1)
      .ok (some (((if bitlen = 0 then 256 else bitlen.toNat) + 7) / 8 + 1))
    else .ok none
  else .ok (some l.toNat)

def pointerOffset (n low : UInt8) : ℕ := (n &&& 0x3f).toNat * 256 + low.toNat

structure Unpacking where
  srcp : ℕ
  dstp : ℕ
  len : Option ℕ
  checked : ℕ
  dst : List UInt8

abbrev Unpacked := Option (ℕ × List UInt8)

def unpackLabel (msg : List UInt8) (n : UInt8) (s : Unpacking) : Run (Unpacking ⊕ Unpacked) := do
  match ← labellen msg s.srcp with
  | none => .ok (.inr none)
  | some l =>
    if s.dst.length ≤ s.dstp + l + 1 ∨ msg.length ≤ s.srcp + 1 + l then .ok (.inr none)
    else
      let checked ← addInt s.checked (l + 1)
      let dst ← store s.dst s.dstp n
      let label ← loadRange msg (s.srcp + 1) l
      let dst ← storeRange dst (s.dstp + 1) label
      .ok (.inl { s with
        srcp := s.srcp + 1 + l, dstp := s.dstp + 1 + l, checked := checked, dst := dst })

def unpackPointer (msg : List UInt8) (src : ℕ) (n : UInt8) (s : Unpacking) :
    Run (Unpacking ⊕ Unpacked) := do
  if msg.length ≤ s.srcp + 1 then .ok (.inr none)
  else
    let low ← load msg (s.srcp + 1)
    let target := pointerOffset n low
    if msg.length ≤ target then .ok (.inr none)
    else
      let checked ← addInt s.checked 2
      if msg.length ≤ checked then .ok (.inr none)
      else .ok (.inl { s with
        srcp := target
        len := some (s.len.getD (s.srcp + 1 - src + 1))
        checked := checked })

/-- `return (len)`. The one length that an `int` cannot hold, `2 ^ 31`, becomes negative,
which is a failure to the caller. -/
def unpackEnd (len : ℕ) (dst : List UInt8) : Unpacked := if len < 2 ^ 31 then some (len, dst) else none

def unpackBody (msg : List UInt8) (src : ℕ) (s : Unpacking) : Run (Unpacking ⊕ Unpacked) := do
  let n ← load msg s.srcp
  if n = 0 then
    let dst ← store s.dst s.dstp 0
    .ok (.inr (unpackEnd (s.len.getD (s.srcp + 1 - src)) dst))
  else if n &&& 0xc0 = 0 ∨ n &&& 0xc0 = 0x40 then unpackLabel msg n s
  else if n &&& 0xc0 = 0xc0 then unpackPointer msg src n s
  else .ok (.inr none)

/-- A label moves `dstp` on and a pointer adds to `checked`, and both are limited. -/
def unpackBudget (msg dst : List UInt8) : ℕ := msg.length + dst.length + 1

def nsNameUnpack (msg : List UInt8) (src : ℕ) (dst : List UInt8) : Run Unpacked :=
  if msg.length ≤ src then .ok none
  else iterate (unpackBody msg src) (unpackBudget msg dst) ⟨src, 0, none, 0, dst⟩

inductive Comparison
  | same
  | next
  | illegal

def sameLabel (domain buf : List UInt8) (dn cp : ℕ) : ℕ → Run Bool
  | 0 => .ok true
  | n + 1 => do
      let a ← load domain dn
      let b ← load buf cp
      if mklower a ≠ mklower b then .ok false else sameLabel domain buf (dn + 1) (cp + 1) n

def compareLabel (domain buf : List UInt8) (dn cp n : ℕ) : Run (ℕ × ℕ ⊕ Comparison) := do
  let d ← load domain dn
  if n ≠ d.toNat then .ok (.inr .next)
  else
    let same ← sameLabel domain buf (dn + 1) (cp + 1) n
    if same then
      let d' ← load domain (dn + 1 + n)
      if d' = 0 then
        let c ← load buf (cp + 1 + n)
        if c = 0 then .ok (.inr .same) else .ok (.inr .next)
      else .ok (.inl (dn + 1 + n, cp + 1 + n))
    else .ok (.inr .next)

def compareBody (domain buf : List UInt8) (s : ℕ × ℕ) : Run (ℕ × ℕ ⊕ Comparison) := do
  let n ← load buf s.2
  if n = 0 then .ok (.inr .next)
  else if n &&& 0xc0 = 0 then
    match ← labellen buf s.2 with
    | none => .ok (.inr .next)
    | some l => compareLabel domain buf s.1 s.2 l
  else if n &&& 0xc0 = 0xc0 then
    let low ← load buf (s.2 + 1)
    .ok (.inl (s.1, pointerOffset n low))
  else .ok (.inr .illegal)

inductive Search
  | found (offset : ℕ)
  | next
  | illegal

def suffixBody (domain buf : List UInt8) (dn sp : ℕ) : Run (ℕ ⊕ Search) := do
  let c ← load buf sp
  if c ≠ 0 ∧ c &&& 0xc0 = 0 ∧ sp < 0x4000 then
    match ← iterate (compareBody domain buf) (2 * domain.length + 2) (dn, sp) with
    | .same => .ok (.inr (.found sp))
    | .next => .ok (.inl (sp + c.toNat + 1))
    | .illegal => .ok (.inr .illegal)
  else .ok (.inr .next)

/-- The search through the names at `dnptrs[cpp ..]`, as many as the last argument says. -/
def dnFind (domain buf : List UInt8) (dn : ℕ) (dnptrs : List (Option ℕ)) (cpp : ℕ) :
    ℕ → Run (Option ℕ)
  | 0 => .ok none
  | n + 1 => do
      match ← load dnptrs cpp with
      | none => .error (.read cpp)
      | some sp =>
        match ← iterate (suffixBody domain buf dn) (buf.length + 1) sp with
        | .found offset => .ok (some offset)
        | .illegal => .ok none
        | .next => dnFind domain buf dn dnptrs (cpp + 1) n

def listEnd (dnptrs : List (Option ℕ)) : Run ℕ :=
  iterate (fun cpp => do
    match ← load dnptrs cpp with
    | none => .ok (.inr cpp)
    | some _ => .ok (.inl (cpp + 1))) dnptrs.length 1

structure Packing where
  srcp : ℕ
  dstp : ℕ
  cpp : ℕ
  first : Bool
  buf : List UInt8
  dnptrs : List (Option ℕ)

structure Packed where
  ret : Option ℕ
  buf : List UInt8
  dnptrs : List (Option ℕ)

/-- What a call of `ns_name_pack` does not change. `lpp` is `none` when `msg` is `NULL`. -/
structure PackCall where
  src : List UInt8
  dst : ℕ
  eob : ℕ
  lpp : Option ℕ
  lastdnptr : Option ℕ

def legalBody (src : List UInt8) (s : ℕ × ℕ) : Run (ℕ × ℕ ⊕ Bool) := do
  let n ← load src s.1
  if n &&& 0xc0 = 0xc0 then .ok (.inr false)
  else
    match ← labellen src s.1 with
    | none => .ok (.inr false)
    | some l0 =>
      if maxCdName < s.2 + (l0 + 1) then .ok (.inr false)
      else if n = 0 then .ok (.inr true)
      else .ok (.inl (s.1 + (l0 + 1), s.2 + (l0 + 1)))

def legal (src : List UInt8) : Run Bool := iterate (legalBody src) (maxCdName + 1) (0, 0)

namespace PackCall
variable (c : PackCall)

def cleanup (p : Packing) : Run Packed := do
  match c.lpp with
  | none => .ok ⟨none, p.buf, p.dnptrs⟩
  | some lpp =>
    let dnptrs ← store p.dnptrs lpp none
    .ok ⟨none, p.buf, dnptrs⟩

def find (n : UInt8) (p : Packing) : Run (Option ℕ) :=
  match c.lpp with
  | none => .ok none
  | some lpp => if n = 0 then .ok none else dnFind c.src p.buf p.srcp p.dnptrs 1 (lpp - 1)

def save (n : UInt8) (p : Packing) : Run Packing := do
  match c.lpp, c.lastdnptr with
  | some _, some last =>
    if n ≠ 0 ∧ p.cpp + 1 < last ∧ p.dstp < 0x4000 ∧ p.first then
      let dnptrs ← store p.dnptrs p.cpp (some p.dstp)
      let dnptrs ← store dnptrs (p.cpp + 1) none
      .ok { p with cpp := p.cpp + 1, first := false, dnptrs := dnptrs }
    else .ok p
  | _, _ => .ok p

def writePointer (l : ℕ) (p : Packing) : Run Packed := do
  if c.eob ≤ p.dstp + 1 then c.cleanup p
  else
    let buf ← store p.buf p.dstp (UInt8.ofNat (l / 256) ||| 0xc0)
    let buf ← store buf (p.dstp + 1) (UInt8.ofNat (l % 256))
    .ok ⟨some (p.dstp + 2 - c.dst), buf, p.dnptrs⟩

def finish (p : Packing) : Run Packed :=
  if c.eob < p.dstp then c.cleanup p else .ok ⟨some (p.dstp - c.dst), p.buf, p.dnptrs⟩

def copyLabel (n : UInt8) (p : Packing) : Run (Packing ⊕ Packed) := do
  if n &&& 0xc0 = 0xc0 then .ok (.inr (← c.cleanup p))
  else
    match ← labellen c.src p.srcp with
    | none => .error .wrap
    | some l =>
      if c.eob ≤ p.dstp + 1 + l then .ok (.inr (← c.cleanup p))
      else
        let label ← loadRange c.src p.srcp (l + 1)
        let buf ← storeRange p.buf p.dstp label
        let p := { p with srcp := p.srcp + (l + 1), dstp := p.dstp + (l + 1), buf := buf }
        if l = 0 then .ok (.inr (← c.finish p)) else .ok (.inl p)

def body (p : Packing) : Run (Packing ⊕ Packed) := do
  let n ← load c.src p.srcp
  match ← c.find n p with
  | some l => .ok (.inr (← c.writePointer l p))
  | none => c.copyLabel n (← c.save n p)

end PackCall

def searchEnd : List (Option ℕ) → Run (Option ℕ)
  | some msg :: dnptrs => do .ok (some (← listEnd (some msg :: dnptrs)))
  | _ => .ok none

/-- `dnptrs` is the whole array, with `msg` in its first slot; no array at all is `[]`. -/
def nsNamePack (src buf : List UInt8) (dst dstsiz : ℕ) (dnptrs : List (Option ℕ))
    (lastdnptr : Option ℕ) : Run Packed := do
  let lpp ← searchEnd dnptrs
  let ok ← legal src
  if ok then
    iterate (PackCall.body ⟨src, dst, dst + dstsiz, lpp, lastdnptr⟩) (maxCdName + 1)
      ⟨0, dst, lpp.getD 0, true, buf, dnptrs⟩
  else .ok ⟨none, buf, dnptrs⟩

end Eglibc.NsName
