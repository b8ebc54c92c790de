import Eglibc.Checked
import Eglibc.BigEndian

/-!
# Record marking streams

The stream of `xdr_rec.c`. Both buffers lie in the object `the_buffer`; pointers into it
are indices. The transport takes all it is given to write, and a read gets between one
byte and as many as are asked for and not yet delivered; at the end of the stream it fails.
-/
namespace Eglibc.XdrRec
open Checked BigEndian

/-- The connection: what has been written to it, what can still be read from it, and
how the coming reads cut that up. -/
structure Tcp where
  sent : List UInt8
  incoming : List UInt8
  chunks : List ℕ

def Tcp.writeit (t : Tcp) (bs : List UInt8) (len : ℤ) : ℤ × Tcp :=
  if len < 0 then (-1, t) else (len, { t with sent := t.sent ++ bs })

def Tcp.readit (t : Tcp) (len : ℤ) : Option (List UInt8 × Tcp) :=
  if len ≤ 0 ∨ t.incoming = [] then none
  else
    let n := min (max 1 (t.chunks.headD len.toNat)) len.toNat
    some (t.incoming.take n, { t with incoming := t.incoming.drop n, chunks := t.chunks.tail })

structure RecStream where
  tcp : Tcp
  buffer : List UInt8
  outBase : ℕ
  outFinger : ℕ
  outBoundry : ℕ
  fragHeader : ℕ
  fragSent : Bool
  inSize : ℕ
  inBase : ℕ
  inFinger : ℕ
  inBoundry : ℕ
  fbtbc : ℕ
  lastFrag : Bool

def rndup (s : ℕ) : ℕ := (s + 3) % 2 ^ 32 / 4 * 4

def fixBufSize (s : ℕ) : ℕ := rndup (if s < 100 then 4000 else s)

/-- `align` is the distance of the first aligned address from the start of the object. -/
def xdrrecCreate (sendsize recvsize : ℕ) (align : Fin 4) (tcp : Tcp) : RecStream :=
  let send := fixBufSize sendsize
  let recv := fixBufSize recvsize
  let base := align.val
  { tcp := tcp
    buffer := List.replicate ((send + recv + 4) % 2 ^ 32) 0
    outBase := base
    outFinger := base + 4
    outBoundry := base + send
    fragHeader := base
    fragSent := false
    inSize := recv
    inBase := base + send
    inFinger := base + send + recv
    inBoundry := base + send + recv
    fbtbc := 0
    lastFrag := true }

def lastFragBit : ℕ := 2 ^ 31

def flushOut (r : RecStream) (eor : Bool) : Run (Bool × RecStream) := do
  let len := r.outFinger - r.fragHeader - 4
  let buffer ← storeRange r.buffer r.fragHeader
    (bytes32 (len ||| (if eor then lastFragBit else 0) : ℕ))
  let len := r.outFinger - r.outBase
  let bs ← loadRange buffer r.outBase len
  let wrote := r.tcp.writeit bs (signed 32 len)
  if wrote.1 ≠ signed 32 len then .ok (false, { r with buffer := buffer, tcp := wrote.2 })
  else .ok (true, { r with
    buffer := buffer, tcp := wrote.2, fragHeader := r.outBase, outFinger := r.outBase + 4 })

def storeLong (r : RecStream) (l : ℤ) : Run RecStream := do
  let buffer ← storeRange r.buffer r.outFinger (bytes32 l)
  .ok { r with buffer := buffer, outFinger := r.outFinger + 4 }

def xdrrecPutlong (r : RecStream) (l : ℤ) : Run (Bool × RecStream) := do
  if r.outBoundry < r.outFinger + 4 then
    let (ok, r) ← flushOut { r with fragSent := true } false
    if ok then .ok (true, ← storeLong r l) else .ok (false, r)
  else .ok (true, ← storeLong r l)

/-- The same text as `xdrrec_putlong`, for an `int32_t`. -/
def xdrrecPutint32 (r : RecStream) (i : ℤ) : Run (Bool × RecStream) := xdrrecPutlong r i

def putbytesBody (s : RecStream × List UInt8) :
    Run (RecStream × List UInt8 ⊕ Bool × RecStream) := do
  let (r, bs) := s
  if bs = [] then .ok (.inr (true, r))
  else
    let current := min bs.length (r.outBoundry - r.outFinger)
    let buffer ← storeRange r.buffer r.outFinger (bs.take current)
    let r := { r with buffer := buffer, outFinger := r.outFinger + current }
    let bs := bs.drop current
    if r.outFinger = r.outBoundry ∧ bs ≠ [] then
      let (ok, r) ← flushOut { r with fragSent := true } false
      if ok then .ok (.inl (r, bs)) else .ok (.inr (false, r))
    else .ok (.inl (r, bs))

def xdrrecPutbytes (r : RecStream) (bs : List UInt8) : Run (Bool × RecStream) :=
  iterate putbytesBody (2 * bs.length + 2) (r, bs)

/-- An inline request of an encoder, which fills the space if it is granted. -/
def xdrrecInlineEncode (r : RecStream) (bs : List UInt8) : Run (Bool × RecStream) := do
  if r.outFinger + bs.length ≤ r.outBoundry then
    let buffer ← storeRange r.buffer r.outFinger bs
    .ok (true, { r with buffer := buffer, outFinger := r.outFinger + bs.length })
  else .ok (false, r)

def xdrrecEndofrecord (r : RecStream) (sendnow : Bool) : Run (Bool × RecStream) := do
  if sendnow ∨ r.fragSent ∨ r.outBoundry ≤ r.outFinger + 4 then
    flushOut { r with fragSent := false } true
  else
    let len := r.outFinger - r.fragHeader - 4
    let buffer ← storeRange r.buffer r.fragHeader (bytes32 (len ||| lastFragBit : ℕ))
    .ok (true, { r with
      buffer := buffer, fragHeader := r.outFinger, outFinger := r.outFinger + 4 })

def filled (r : RecStream) (start : ℕ) : Option (List UInt8 × Tcp) → Run (Option RecStream)
  | none => .ok none
  | some (bs, tcp) => do
    let buffer ← storeRange r.buffer start bs
    .ok (some { r with
      tcp := tcp, buffer := buffer, inFinger := start, inBoundry := start + bs.length })

def fillInputBuf (r : RecStream) : Run (Option RecStream) :=
  let i := (r.inBoundry - r.outBase) % 4
  filled r (r.inBase + i) (r.tcp.readit (signed 32 (r.inSize - i : ℕ)))

def inputBody (s : RecStream × ℕ × List UInt8) :
    Run (RecStream × ℕ × List UInt8 ⊕ Option (List UInt8) × RecStream) := do
  let (r, len, got) := s
  if len = 0 then .ok (.inr (some got, r))
  else if r.inBoundry - r.inFinger = 0 then
    match ← fillInputBuf r with
    | none => .ok (.inr (none, r))
    | some r => .ok (.inl (r, len, got))
  else
    let current := min len (r.inBoundry - r.inFinger)
    let bs ← loadRange r.buffer r.inFinger current
    .ok (.inl ({ r with inFinger := r.inFinger + current }, len - current, got ++ bs))

def getInputBytes (r : RecStream) (len : ℕ) : Run (Option (List UInt8) × RecStream) :=
  iterate inputBody (2 * len + 2) (r, len, [])

def skipBody (s : RecStream × ℕ) : Run (RecStream × ℕ ⊕ Bool × RecStream) := do
  let (r, cnt) := s
  if cnt = 0 then .ok (.inr (true, r))
  else if r.inBoundry - r.inFinger = 0 then
    match ← fillInputBuf r with
    | none => .ok (.inr (false, r))
    | some r => .ok (.inl (r, cnt))
  else
    let current := min cnt (r.inBoundry - r.inFinger)
    .ok (.inl ({ r with inFinger := r.inFinger + current }, cnt - current))

def skipInputBytes (r : RecStream) (cnt : ℕ) : Run (Bool × RecStream) :=
  iterate skipBody (2 * cnt + 2) (r, cnt)

def setInputFragment (r : RecStream) : Run (Bool × RecStream) := do
  let (got, r) ← getInputBytes r 4
  match got with
  | none => .ok (false, r)
  | some bs =>
    let header := number bs
    let r := { r with lastFrag := header &&& lastFragBit != 0 }
    if header = 0 then .ok (false, r)
    else .ok (true, { r with fbtbc := header % lastFragBit })

def getbytesBody (s : RecStream × ℕ × List UInt8) :
    Run (RecStream × ℕ × List UInt8 ⊕ Option (List UInt8) × RecStream) := do
  let (r, len, got) := s
  if len = 0 then .ok (.inr (some got, r))
  else if r.fbtbc = 0 then
    if r.lastFrag then .ok (.inr (none, r))
    else
      let (ok, r) ← setInputFragment r
      if ok then .ok (.inl (r, len, got)) else .ok (.inr (none, r))
  else
    let current := min len r.fbtbc
    let (bs, r) ← getInputBytes r current
    match bs with
    | none => .ok (.inr (none, r))
    | some bs => .ok (.inl ({ r with fbtbc := r.fbtbc - current }, len - current, got ++ bs))

def xdrrecGetbytes (r : RecStream) (len : ℕ) : Run (Option (List UInt8) × RecStream) :=
  iterate getbytesBody (2 * len + 2) (r, len, [])

def xdrrecGetlong (r : RecStream) : Run (Option ℤ × RecStream) := do
  if 4 ≤ r.fbtbc ∧ 4 ≤ r.inBoundry - r.inFinger then
    let bs ← loadRange r.buffer r.inFinger 4
    .ok (some (signed 32 (number bs)), { r with fbtbc := r.fbtbc - 4, inFinger := r.inFinger + 4 })
  else
    let (bs, r) ← xdrrecGetbytes r 4
    .ok (bs.map fun bs => signed 32 (number bs), r)

/-- The same text as `xdrrec_getlong`, for an `int32_t`. -/
def xdrrecGetint32 (r : RecStream) : Run (Option ℤ × RecStream) := xdrrecGetlong r

/-- An inline request of a decoder, with the bytes of the space it is granted. -/
def xdrrecInlineDecode (r : RecStream) (len : ℕ) : Run (Option (List UInt8) × RecStream) := do
  if len ≤ r.fbtbc ∧ r.inFinger + len ≤ r.inBoundry then
    let bs ← loadRange r.buffer r.inFinger len
    .ok (some bs, { r with fbtbc := r.fbtbc - len, inFinger := r.inFinger + len })
  else .ok (none, r)

def skiprecordBody (r : RecStream) : Run (RecStream ⊕ Bool × RecStream) := do
  if 0 < r.fbtbc ∨ r.lastFrag = false then
    let (ok, r) ← skipInputBytes r r.fbtbc
    if ok then
      let r := { r with fbtbc := 0 }
      if r.lastFrag then .ok (.inl r)
      else
        let (ok, r) ← setInputFragment r
        if ok then .ok (.inl r) else .ok (.inr (false, r))
    else .ok (.inr (false, r))
  else .ok (.inr (true, { r with lastFrag := false }))

/-- Every pass but two reads a fragment header. -/
def xdrrecSkiprecord (r : RecStream) : Run (Bool × RecStream) :=
  iterate skiprecordBody (r.tcp.incoming.length + (r.inBoundry - r.inFinger) + 3) r

end Eglibc.XdrRec
