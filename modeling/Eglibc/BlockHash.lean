import Eglibc.Checked

/-!
# Hashing a message in pieces

The functions that `crypt/md5.c`, `crypt/sha256.c` and `crypt/sha512.c` share but for
their constants.
-/
namespace Eglibc.BlockHash
open Checked

variable {n : ℕ} {x message : List UInt8}

/-- A function that compresses blocks into a chaining value: the bytes of a block and of
the length field at the end of the last one, and what happens to the value. -/
structure HashFunction (σ : Type) where
  block : ℕ
  field : ℕ
  init : σ
  compress : σ → List UInt8 → σ
  digest : σ → List UInt8

/-- What the three algorithms differ in besides: the alignment of a word and the counter
of bytes. -/
structure Algorithm (σ κ : Type) extends HashFunction σ where
  align : ℕ
  zero : κ
  /-- counting in `process_block` and in `finish_ctx` -/
  add : κ → ℕ → κ
  addRest : κ → ℕ → κ
  /-- store the number of bits at a position of the buffer -/
  storeLength : κ → ℕ → List UInt8 → Run (List UInt8)

structure Ctx (σ κ : Type) where
  h : σ
  total : κ
  buflen : ℕ
  buffer : List UInt8

variable {σ κ : Type}

namespace HashFunction
variable (f : HashFunction σ)

def absorb : ℕ → List UInt8 → σ → σ
  | 0, _, h => h
  | n + 1, bytes, h => absorb n (bytes.drop f.block) (f.compress h (bytes.take f.block))

def absorbAll (bytes : List UInt8) (h : σ) : σ := f.absorb (bytes.length / f.block) bytes h

/-- The message as the standards pad it: a one bit, zeros up to the length field, and the
number of bits. -/
def padded (lengthBytes : ℕ → List UInt8) (message : List UInt8) : List UInt8 :=
  message ++ 0x80 :: List.replicate
    ((f.block - (message.length + 1 + f.field) % f.block) % f.block) 0 ++
    lengthBytes (8 * message.length)

def standardDigest (lengthBytes : ℕ → List UInt8) (message : List UInt8) : List UInt8 :=
  f.digest (f.absorbAll (f.padded lengthBytes message) f.init)

end HashFunction

variable (a : Algorithm σ κ)

/-- `n & ~63`. -/
def whole (n : ℕ) : ℕ := n / a.block * a.block

/-- `process_block`: it is assumed that `len` is a multiple of the block size. -/
def processBlock (buffer : List UInt8) (len : ℕ) (ctx : Ctx σ κ) : Run (Ctx σ κ) := do
  ensure (len % a.block = 0)
  let bytes ← loadRange buffer 0 len
  .ok { ctx with h := a.absorb (len / a.block) bytes ctx.h, total := a.add ctx.total len }

def initCtx (junk : List UInt8) : Ctx σ κ := ⟨a.init, a.zero, 0, junk⟩

/-- The buffer holds more than a block: process it and move the rest to the front. -/
def drain (ctx : Ctx σ κ) : Run (Ctx σ κ) :=
  if ctx.buflen > a.block then do
    let done ← processBlock a ctx.buffer (whole a ctx.buflen) ctx
    let rest ← loadRange done.buffer (whole a ctx.buflen) (ctx.buflen % a.block)
    let buffer ← storeRange done.buffer 0 rest
    .ok { done with buflen := ctx.buflen % a.block, buffer := buffer }
  else .ok ctx

/-- When we already have some bits in our internal buffer concatenate both inputs
first. Gives the rest of the input. -/
def fillBuffer (input : List UInt8) (ctx : Ctx σ κ) : Run (List UInt8 × Ctx σ κ) :=
  if ctx.buflen ≠ 0 then do
    let room := 2 * a.block - ctx.buflen
    let add := if room > input.length then input.length else room
    let bytes ← loadRange input 0 add
    let buffer ← storeRange ctx.buffer ctx.buflen bytes
    let ctx' ← drain a { ctx with buflen := ctx.buflen + add, buffer := buffer }
    .ok (input.drop add, ctx')
  else .ok (input, ctx)

/-- The loop for input that is not aligned: block by block through the buffer. -/
def copyBody (s : List UInt8 × Ctx σ κ) :
    Run (List UInt8 × Ctx σ κ ⊕ List UInt8 × Ctx σ κ) :=
  if s.1.length > a.block then do
    let bytes ← loadRange s.1 0 a.block
    let buffer ← storeRange s.2.buffer 0 bytes
    let ctx ← processBlock a buffer a.block { s.2 with buffer := buffer }
    .ok (.inl (s.1.drop a.block, ctx))
  else .ok (.inr s)

/-- Process available complete blocks. `direct` is set where unaligned words can be read
(`_STRING_ARCH_unaligned`). -/
def wholeBlocks (direct : Bool) (addr : ℕ) (input : List UInt8) (ctx : Ctx σ κ) :
    Run (List UInt8 × Ctx σ κ) :=
  if input.length ≥ a.block then
    if direct = false ∧ addr % a.align ≠ 0 then
      iterate (copyBody a) (input.length + 1) (input, ctx)
    else do
      let ctx' ← processBlock a input (whole a input.length) ctx
      .ok (input.drop (whole a input.length), ctx')
  else .ok (input, ctx)

def keepRest (input : List UInt8) (ctx : Ctx σ κ) : Run (Ctx σ κ) :=
  if input.length > 0 then do
    let buffer ← storeRange ctx.buffer ctx.buflen input
    let leftOver := ctx.buflen + input.length
    if leftOver ≥ a.block then do
      let ctx' ← processBlock a buffer a.block { ctx with buffer := buffer }
      let rest ← loadRange ctx'.buffer a.block (leftOver - a.block)
      let buffer' ← storeRange ctx'.buffer 0 rest
      .ok { ctx' with buflen := leftOver - a.block, buffer := buffer' }
    else .ok { ctx with buflen := leftOver, buffer := buffer }
  else .ok ctx

/-- `process_bytes`, for input at the address `addr`. -/
def processBytes (direct : Bool) (addr : ℕ) (input : List UInt8) (ctx : Ctx σ κ) :
    Run (Ctx σ κ) := do
  let filled ← fillBuffer a input ctx
  let (rest, ctx') ←
    wholeBlocks a direct (addr + (input.length - filled.1.length)) filled.1 filled.2
  keepRest a rest ctx'

def fillbuf : List UInt8 := 0x80 :: List.replicate (a.block - 1) 0

def finishCtx (ctx : Ctx σ κ) : Run (List UInt8) := do
  let bytes := ctx.buflen
  let total := a.addRest ctx.total bytes
  let pad := if bytes ≥ a.block - a.field then a.block + (a.block - a.field) - bytes
    else a.block - a.field - bytes
  let fill ← loadRange (fillbuf a) 0 pad
  let padded ← storeRange ctx.buffer bytes fill
  let buffer ← a.storeLength total (bytes + pad) padded
  let ctx' ← processBlock a buffer (bytes + pad + a.field)
    { ctx with total := total, buffer := buffer }
  .ok (a.digest ctx'.h)

structure Piece where
  addr : ℕ
  bytes : List UInt8

def processPieces (direct : Bool) : List Piece → Ctx σ κ → Run (Ctx σ κ)
  | [], ctx => .ok ctx
  | p :: ps, ctx => do
    let ctx' ← processBytes a direct p.addr p.bytes ctx
    processPieces direct ps ctx'

/-- The digest of a message that is handed over in pieces; the buffer of the context is
not initialized. -/
def hashPieces (direct : Bool) (junk : List UInt8) (pieces : List Piece) : Run (List UInt8) := do
  let ctx ← processPieces a direct pieces (initCtx a junk)
  finishCtx a ctx

structure Lawful (value : κ → ℕ) (lengthBytes : ℕ → List UInt8) : Prop where
  field_lt : a.field + 1 < a.block
  value_zero : value a.zero = 0
  value_add : ∀ k n, value (a.add k n) = (value k + n) % 2 ^ (8 * a.field)
  value_addRest : ∀ k n, n ≤ 2 * a.block →
    value (a.addRest k n) = (value k + n) % 2 ^ (8 * a.field)
  length_lengthBytes : ∀ n, (lengthBytes n).length = a.field
  stores : ∀ {k x y z}, (x.length + a.field) % a.block = 0 → y.length = a.field →
    8 * value k < 2 ^ (8 * a.field) →
    a.storeLength k x.length (x ++ y ++ z) = .ok (x ++ lengthBytes (8 * value k) ++ z)

section
variable {a} {x y : List UInt8} {h : σ} {ctx : Ctx σ κ}

lemma absorb_append (hx : x.length = n * a.block) (m : ℕ) :
    a.absorb (n + m) (x ++ y) h = a.absorb m y (a.absorb n x h) := by
  induction n generalizing x h with
  | zero =>
    rw [Nat.zero_mul, List.length_eq_zero_iff] at hx
    rw [Nat.zero_add, hx]
    rfl
  | succ n ih =>
    rw [Nat.succ_mul] at hx
    have hdrop : (x.drop a.block).length = n * a.block := by
      simp
      omega
    rw [Nat.succ_add, HashFunction.absorb, HashFunction.absorb,
      List.drop_append_of_le_length (by omega),
      List.take_append_of_le_length (by omega), ih hdrop]

lemma absorbAll_append (hblock : 0 < a.block) (hx : x.length % a.block = 0) (y : List UInt8) :
    a.absorbAll (x ++ y) h = a.absorbAll y (a.absorbAll x h) := by
  obtain ⟨n, hn⟩ := Nat.dvd_of_mod_eq_zero hx
  rw [Nat.mul_comm] at hn
  unfold HashFunction.absorbAll
  rw [List.length_append, hn, Nat.add_comm (n * a.block), Nat.add_mul_div_right _ _ hblock,
    Nat.mul_div_cancel _ hblock, Nat.add_comm _ n, absorb_append hn]

lemma processBlock_eq (hx : x.length % a.block = 0) (y : List UInt8) (ctx : Ctx σ κ) :
    processBlock a (x ++ y) x.length ctx =
      .ok { ctx with h := a.absorbAll x ctx.h, total := a.add ctx.total x.length } := by
  have hload : loadRange (x ++ y) 0 x.length = .ok x := loadRange_eq (u := []) rfl rfl
  rw [processBlock, ensure, if_pos hx, ok_bind, hload, ok_bind]
  rfl

end

structure Chained (value : κ → ℕ) (done : List UInt8) (ctx : Ctx σ κ) : Prop where
  whole : done.length % a.block = 0
  h : ctx.h = a.absorbAll done a.init
  total : value ctx.total = done.length % 2 ^ (8 * a.field)

structure Buffered (rest : List UInt8) (ctx : Ctx σ κ) : Prop where
  buflen : ctx.buflen = rest.length
  buffer : ∃ junk, ctx.buffer = rest ++ junk
  size : ctx.buffer.length = 2 * a.block

section
variable {a} {value : κ → ℕ} {lengthBytes : ℕ → List UInt8} {done rest input : List UInt8}
  {ctx : Ctx σ κ}

lemma mod_add_mod_zero (hm : m % b = 0) (hn : n % b = 0) : (m + n) % b = 0 := by
  rw [Nat.add_mod, hm, hn]
  exact Nat.zero_mod b

section
variable (law : Lawful a value lengthBytes)
include law

lemma Lawful.block_pos : 0 < a.block :=
  Nat.lt_of_le_of_lt (Nat.zero_le _) law.field_lt

omit law in
lemma whole_mod (n : ℕ) : whole a n % a.block = 0 := Nat.mul_mod_left _ _

omit law in
lemma whole_add_mod (n : ℕ) : whole a n + n % a.block = n := Nat.div_add_mod' n a.block

lemma Chained.process (hc : Chained a value done ctx)
    (hx : x.length % a.block = 0) (y : List UInt8) :
    ∃ h total, processBlock a (x ++ y) x.length ctx = .ok { ctx with h := h, total := total } ∧
      ∀ buflen buffer, Chained a value (done ++ x) ⟨h, total, buflen, buffer⟩ := by
  refine ⟨_, _, processBlock_eq hx y ctx, fun buflen buffer => ⟨?_, ?_, ?_⟩⟩
  · simpa using mod_add_mod_zero hc.whole hx
  · rw [hc.h, absorbAll_append law.block_pos hc.whole]
  · simp [law.value_add, hc.total]

omit law in
lemma Buffered.extend (hb : Buffered a rest ctx) (hx : rest.length + x.length ≤ 2 * a.block) :
    ∃ junk, storeRange ctx.buffer ctx.buflen x = .ok (rest ++ x ++ junk) ∧
      (rest ++ x ++ junk).length = 2 * a.block := by
  obtain ⟨junk, hjunk⟩ := hb.buffer
  have hsize := hb.size
  rw [hjunk, List.length_append] at hsize
  have htake : (junk.take x.length).length = x.length := by
    simp
    omega
  have hsplit : ctx.buffer = rest ++ junk.take x.length ++ junk.drop x.length := by
    simp [hjunk]
  refine ⟨junk.drop x.length, ?_, ?_⟩
  · rw [hsplit, hb.buflen]
    exact storeRange_eq rfl htake
  · rw [List.length_append, List.length_append, List.length_drop]
    omega

omit law in
lemma moveFront (x r junk : List UInt8) (hr : r.length ≤ x.length) :
    loadRange (x ++ r ++ junk) x.length r.length = .ok r ∧
      ∃ junk', storeRange (x ++ r ++ junk) 0 r = .ok (r ++ junk') ∧
        (r ++ junk').length = (x ++ r ++ junk).length := by
  have hsplit : x ++ r ++ junk = [] ++ x.take r.length ++ (x.drop r.length ++ r ++ junk) := by
    rw [List.nil_append, List.append_assoc, List.append_assoc, ← List.append_assoc (x.take _),
      List.take_append_drop]
  have htake : (x.take r.length).length = r.length := by
    simp
    omega
  refine ⟨loadRange_eq rfl rfl, x.drop r.length ++ r ++ junk, ?_, ?_⟩
  · rw [hsplit]
    exact storeRange_eq (u := []) rfl htake
  · simp only [List.length_append, List.length_drop]
    omega

def Taken (a : Algorithm σ κ) (value : κ → ℕ) (message : List UInt8) (input : List UInt8)
    (ctx : Ctx σ κ) : Prop :=
  ∃ done rest, Chained a value done ctx ∧ Buffered a rest ctx ∧ rest.length ≤ a.block ∧
    message = done ++ rest ++ input ∧ (input ≠ [] → rest = [])

lemma drain_returns (hc : Chained a value done ctx)
    (hb : Buffered a rest ctx) (hlen : rest.length ≤ 2 * a.block) :
    Returns (drain a ctx) fun ctx' => ∃ done' rest', Chained a value done' ctx' ∧
      Buffered a rest' ctx' ∧ rest'.length ≤ a.block ∧ done ++ rest = done' ++ rest' ∧
      (rest.length = 2 * a.block → rest' = []) := by
  have hpos := law.block_pos
  unfold drain
  split_ifs with hmore
  · have hbuflen := hb.buflen
    obtain ⟨junk, hjunk⟩ := hb.buffer
    -- the whole blocks `x` and the rest `r` of what is in the buffer
    have hsum := whole_add_mod (a := a) rest.length
    have hwhole : a.block ≤ whole a rest.length :=
      Nat.le_mul_of_pos_left _ (Nat.div_pos (by omega) hpos)
    obtain ⟨x, r, rfl, hx⟩ := exists_split (show whole a rest.length ≤ rest.length by omega)
    have hxr : (x ++ r).length = x.length + r.length := List.length_append
    have hr : r.length = (x ++ r).length % a.block := by omega
    have hxmod : x.length % a.block = 0 := by
      rw [hx]
      exact whole_mod _
    obtain ⟨h, total, hprocess, hchained⟩ := hc.process law hxmod (r ++ junk)
    obtain ⟨hload, junk', hstore, hsize⟩ := moveFront x r junk (by omega)
    rw [hbuflen, ← hx, ← hr, hjunk, List.append_assoc, hprocess, ok_bind]
    rw [hjunk, hload, ok_bind, hstore, ok_bind]
    refine returns_ok ⟨done ++ x, r, hchained _ _, ⟨rfl, ⟨junk', rfl⟩, ?_⟩, by omega, by simp, ?_⟩
    · rw [hsize, ← hjunk, hb.size]
    intro hfull
    have hzero : r.length = 0 := by
      rw [hr, hfull]
      exact Nat.mul_mod_left _ _
    exact List.length_eq_zero_iff.mp hzero
  · have hbuflen := hb.buflen
    exact returns_ok ⟨done, rest, hc, hb, by omega, rfl, by omega⟩

lemma fillBuffer_returns (hc : Chained a value done ctx)
    (hb : Buffered a rest ctx) (hlen : rest.length ≤ a.block) (input : List UInt8) :
    Returns (fillBuffer a input ctx) fun r =>
      Taken a value (done ++ rest ++ input) r.1 r.2 := by
  unfold fillBuffer
  by_cases hempty : ctx.buflen = 0
  · rw [if_neg (not_not.mpr hempty)]
    rw [hb.buflen, List.length_eq_zero_iff] at hempty
    exact returns_ok ⟨done, rest, hc, hb, hlen, rfl, fun _ => hempty⟩
  rw [if_pos hempty]
  have hbuflen := hb.buflen
  generalize hadd : (if 2 * a.block - ctx.buflen > input.length then input.length
    else 2 * a.block - ctx.buflen) = add
  have hle : add ≤ input.length ∧ rest.length + add ≤ 2 * a.block ∧
      (add < input.length → rest.length + add = 2 * a.block) := by
    split_ifs at hadd <;> omega
  obtain ⟨x, y, rfl, hx⟩ := exists_split (show add ≤ input.length by omega)
  have hload : loadRange (x ++ y) 0 add = .ok x := loadRange_eq (u := []) rfl hx
  obtain ⟨junk, hstore, hsize⟩ := hb.extend (x := x) (by omega)
  dsimp only
  rw [hadd, hload, ok_bind, hstore, ok_bind, ← hx, List.drop_left]
  have hc' : Chained a value done ⟨ctx.h, ctx.total, ctx.buflen + x.length, rest ++ x ++ junk⟩ :=
    ⟨hc.whole, hc.h, hc.total⟩
  have hb' : Buffered a (rest ++ x)
      ⟨ctx.h, ctx.total, ctx.buflen + x.length, rest ++ x ++ junk⟩ :=
    ⟨by rw [List.length_append, hbuflen], ⟨junk, rfl⟩, hsize⟩
  apply (drain_returns law hc' hb' (by simp; omega)).bind
  rintro ctx' ⟨done', rest', hc'', hb'', hlen', hsplit, hfull⟩
  refine returns_ok ⟨done', rest', hc'', hb'', hlen', ?_, ?_⟩
  · rw [← hsplit]
    simp
  intro hy
  apply hfull
  have hy : 0 < y.length := List.length_pos_of_ne_nil hy
  have hxy : (x ++ y).length = x.length + y.length := List.length_append
  have hfit := hle.2.2 (by omega)
  simp [hx, hfit]

lemma wholeBlocks_returns (direct : Bool) (addr : ℕ) (h : Taken a value message input ctx) :
    Returns (wholeBlocks a direct addr input ctx) fun r =>
      Taken a value message r.1 r.2 ∧ r.1.length ≤ a.block := by
  have hpos := law.block_pos
  unfold wholeBlocks
  by_cases hmany : input.length ≥ a.block
  · split_ifs with hcopy
    · refine iterate_returns (I := fun s => Taken a value message s.1 s.2)
        (fun s => s.1.length) ?_ h (Nat.lt_succ_self _)
      rintro ⟨input, ctx⟩ hs
      unfold copyBody
      by_cases hmore : input.length > a.block
      · rw [if_pos hmore]
        obtain ⟨done, rest, hc, hb, hlen, rfl, hnil⟩ := hs
        have hne : input ≠ [] := List.ne_nil_of_length_pos (by omega)
        obtain rfl := hnil hne
        obtain ⟨x, y, rfl, hx⟩ := exists_split (show a.block ≤ input.length by omega)
        have hload : loadRange (x ++ y) 0 a.block = .ok x := loadRange_eq (u := []) rfl hx
        have hbuflen : ctx.buflen = 0 := hb.buflen
        obtain ⟨junk, hstore, hsize⟩ := hb.extend (x := x) (by omega)
        rw [hbuflen, List.nil_append] at hstore
        have hc' : Chained a value done { ctx with buffer := x ++ junk } :=
          ⟨hc.whole, hc.h, hc.total⟩
        have hxmod : x.length % a.block = 0 := by
          rw [hx]
          exact Nat.mod_self _
        obtain ⟨h, total, hprocess, hchained⟩ := hc'.process law hxmod junk
        rw [hx] at hprocess
        rw [hload, ok_bind, hstore, ok_bind, hprocess, ok_bind, ← hx, List.drop_left]
        refine returns_ok ⟨⟨done ++ x, [], hchained _ _, ⟨hbuflen, ⟨x ++ junk, rfl⟩, hsize⟩,
          Nat.zero_le _, by simp, fun _ => rfl⟩, ?_⟩
        simp
        omega
      · rw [if_neg hmore]
        exact returns_ok ⟨hs, by dsimp only; omega⟩
    obtain ⟨done, rest, hc, hb, hlen, rfl, hnil⟩ := h
    have hne : input ≠ [] := List.ne_nil_of_length_pos (by omega)
    obtain rfl := hnil hne
    have hsum := whole_add_mod (a := a) input.length
    have hmod := Nat.mod_lt input.length hpos
    obtain ⟨x, y, rfl, hx⟩ := exists_split (show whole a input.length ≤ input.length by omega)
    have hxmod : x.length % a.block = 0 := by
      rw [hx]
      exact whole_mod _
    have hxy : (x ++ y).length = x.length + y.length := List.length_append
    obtain ⟨h, total, hprocess, hchained⟩ := hc.process law hxmod y
    rw [← hx, hprocess, ok_bind, List.drop_left]
    exact returns_ok ⟨⟨done ++ x, [], hchained _ _, ⟨hb.buflen, hb.buffer, hb.size⟩,
      Nat.zero_le _, by simp, fun _ => rfl⟩, by dsimp only; omega⟩
  · rw [if_neg hmany]
    exact returns_ok ⟨h, by dsimp only; omega⟩

lemma keepRest_returns (h : Taken a value message input ctx) (hshort : input.length ≤ a.block) :
    Returns (keepRest a input ctx) fun ctx' => Taken a value message [] ctx' := by
  obtain ⟨done, rest, hc, hb, hlen, rfl, hnil⟩ := h
  unfold keepRest
  split_ifs with hsome
  · obtain rfl := hnil (List.ne_nil_of_length_pos hsome)
    have hbuflen : ctx.buflen = 0 := hb.buflen
    obtain ⟨junk, hstore, hsize⟩ := hb.extend (x := input) (by omega)
    rw [List.nil_append] at hstore hsize
    rw [hstore, ok_bind, hbuflen, Nat.zero_add]
    by_cases hfull : input.length ≥ a.block
    · have hblock : input.length = a.block := le_antisymm hshort hfull
      have hc' : Chained a value done ⟨ctx.h, ctx.total, 0, input ++ junk⟩ :=
        ⟨hc.whole, hc.h, hc.total⟩
      have hmod : input.length % a.block = 0 := by
        rw [hblock]
        exact Nat.mod_self _
      obtain ⟨h, total, hprocess, hchained⟩ := hc'.process law hmod junk
      obtain ⟨hload, junk', hstore', hsize'⟩ := moveFront input [] junk (Nat.zero_le _)
      rw [List.append_nil] at hload hstore' hsize'
      rw [List.length_nil] at hload
      rw [if_pos hfull, ← hblock, hprocess, ok_bind, Nat.sub_self]
      rw [hload, ok_bind, hstore', ok_bind]
      exact returns_ok ⟨done ++ input, [], hchained _ _, ⟨rfl, ⟨junk', rfl⟩, hsize'.trans hsize⟩,
        Nat.zero_le _, by simp, fun _ => rfl⟩
    · rw [if_neg hfull]
      exact returns_ok ⟨done, input, ⟨hc.whole, hc.h, hc.total⟩, ⟨rfl, ⟨junk, rfl⟩, hsize⟩, hshort,
        by simp, fun hne => absurd rfl hne⟩
  · obtain rfl : input = [] := List.length_eq_zero_iff.mp (by omega)
    exact returns_ok ⟨done, rest, hc, hb, hlen, rfl, fun hne => absurd rfl hne⟩

lemma processBytes_returns (h : Taken a value message [] ctx) (direct : Bool) (addr : ℕ) (input : List UInt8) :
    Returns (processBytes a direct addr input ctx) fun ctx' =>
      Taken a value (message ++ input) [] ctx' := by
  obtain ⟨done, rest, hc, hb, hlen, rfl, -⟩ := h
  rw [List.append_nil]
  apply (fillBuffer_returns law hc hb hlen input).bind
  intro filled hfilled
  apply (wholeBlocks_returns law direct _ hfilled).bind
  intro r hr
  exact keepRest_returns law hr.1 hr.2

lemma processPieces_returns (direct : Bool)
    (pieces : List Piece) (h : Taken a value message [] ctx) :
    Returns (processPieces a direct pieces ctx) fun ctx' =>
      Taken a value (message ++ pieces.flatMap Piece.bytes) [] ctx' := by
  induction pieces generalizing message ctx with
  | nil =>
    rw [List.flatMap_nil, List.append_nil]
    exact returns_ok h
  | cons p ps ih =>
    apply (processBytes_returns law h direct p.addr p.bytes).bind
    intro ctx' h'
    simpa using ih h'

theorem padded_rest (hdone : done.length % a.block = 0) (hrest : rest.length ≤ a.block)
    (hpad : pad = if rest.length ≥ a.block - a.field then a.block + (a.block - a.field) - rest.length
      else a.block - a.field - rest.length) :
    0 < pad ∧ pad ≤ a.block ∧ rest.length + pad + a.field ≤ 2 * a.block ∧
      (rest.length + pad + a.field) % a.block = 0 ∧
      a.padded lengthBytes (done ++ rest) = done ++ (rest ++ (0x80 :: List.replicate (pad - 1) 0) ++
        lengthBytes (8 * (done ++ rest).length)) := by
  have hfield := law.field_lt
  have hmod : ((done ++ rest).length + 1 + a.field) % a.block =
      (rest.length + 1 + a.field) % a.block := by
    rw [List.length_append, Nat.add_assoc, Nat.add_assoc, Nat.add_mod, hdone, Nat.zero_add,
      Nat.mod_mod, Nat.add_assoc]
  have hzeros : (a.block - (rest.length + 1 + a.field) % a.block) % a.block = pad - 1 := by
    by_cases hlong : rest.length ≥ a.block - a.field
    · rw [if_pos hlong] at hpad
      have hover : (rest.length + 1 + a.field) % a.block = rest.length + 1 + a.field - a.block := by
        rw [Nat.mod_eq_sub_mod (by omega), Nat.mod_eq_of_lt (by omega)]
      rw [hover, Nat.mod_eq_of_lt (by omega)]
      omega
    rw [if_neg hlong] at hpad
    by_cases hexact : rest.length + 1 + a.field = a.block
    · rw [hexact, Nat.mod_self, Nat.sub_zero, Nat.mod_self]
      omega
    · rw [Nat.mod_eq_of_lt (by omega : rest.length + 1 + a.field < a.block),
        Nat.mod_eq_of_lt (by omega)]
      omega
  refine ⟨?_, ?_, ?_, ?_, ?_⟩
  · split_ifs at hpad <;> omega
  · split_ifs at hpad <;> omega
  · split_ifs at hpad <;> omega
  · by_cases hlong : rest.length ≥ a.block - a.field
    · rw [if_pos hlong] at hpad
      rw [show rest.length + pad + a.field = 2 * a.block by omega]
      exact Nat.mul_mod_left _ _
    · rw [if_neg hlong] at hpad
      rw [show rest.length + pad + a.field = a.block by omega]
      exact Nat.mod_self _
  · rw [HashFunction.padded, hmod, hzeros]
    simp

lemma finishCtx_returns (h : Taken a value message [] ctx) (hcount : 8 * message.length < 2 ^ (8 * a.field)) :
    finishCtx a ctx = .ok (a.standardDigest lengthBytes message) := by
  obtain ⟨done, rest, hc, hb, hlen, rfl, -⟩ := h
  rw [List.append_nil] at hcount ⊢
  have hbuflen := hb.buflen
  generalize hpad : (if rest.length ≥ a.block - a.field then a.block + (a.block - a.field) - rest.length
    else a.block - a.field - rest.length) = pad
  obtain ⟨hpos, hle, hroom, hmod, hpadded⟩ :=
    padded_rest law hc.whole hlen hpad.symm
  have hfill : loadRange (fillbuf a) 0 pad = .ok (0x80 :: List.replicate (pad - 1) 0) := by
    have hsplit : fillbuf a = [] ++ (0x80 :: List.replicate (pad - 1) 0) ++
        List.replicate (a.block - pad) 0 := by
      simp [fillbuf, show pad - 1 + (a.block - pad) = a.block - 1 by omega]
    rw [hsplit]
    exact loadRange_eq rfl (by simp; omega)
  obtain ⟨junk, hstore, hsize⟩ := hb.extend (x := 0x80 :: List.replicate (pad - 1) 0)
    (by simp; omega)
  generalize hx : rest ++ (0x80 :: List.replicate (pad - 1) 0) = x at *
  have hxlen : x.length = rest.length + pad := by
    rw [← hx]
    simp
    omega
  rw [← hxlen] at hroom hmod
  -- the length field and what is left of the buffer behind it
  obtain ⟨y, z, rfl, hy⟩ := exists_split (show a.field ≤ junk.length by
    rw [List.length_append] at hsize
    omega)
  have hvalue : value (a.addRest ctx.total rest.length) = (done ++ rest).length := by
    rw [law.value_addRest _ _ (by omega), hc.total, Nat.mod_add_mod, ← List.length_append,
      Nat.mod_eq_of_lt (by omega)]
  have hlength := law.stores (k := a.addRest ctx.total rest.length) (z := z) hmod hy
    (by rw [hvalue]; exact hcount)
  rw [hvalue, List.append_assoc x] at hlength
  have hblocks : (x ++ lengthBytes (8 * (done ++ rest).length)).length = x.length + a.field := by
    simp [law.length_lengthBytes]
  have hprocess := processBlock_eq (x := x ++ lengthBytes (8 * (done ++ rest).length))
    (by rwa [hblocks]) z
  rw [hblocks] at hprocess
  unfold finishCtx HashFunction.standardDigest
  rw [hbuflen] at hstore ⊢
  dsimp only
  rw [hpad, hfill, ok_bind, hstore, ok_bind, ← hxlen, hlength, ok_bind, hprocess, ok_bind, hpadded]
  rw [hc.h, ← absorbAll_append law.block_pos hc.whole]

theorem hashPieces_eq (direct : Bool) (hjunk : junk.length = 2 * a.block) (pieces : List Piece)
    (hcount : 8 * (pieces.flatMap Piece.bytes).length < 2 ^ (8 * a.field)) :
    hashPieces a direct junk pieces =
      .ok (a.standardDigest lengthBytes (pieces.flatMap Piece.bytes)) := by
  have hstart : Taken a value [] [] (initCtx a junk) := by
    refine ⟨[], [], ⟨Nat.zero_mod _, ?_, ?_⟩, ⟨rfl, ⟨junk, rfl⟩, hjunk⟩, Nat.zero_le _, rfl,
      fun _ => rfl⟩
    · rw [HashFunction.absorbAll, List.length_nil, Nat.zero_div]
      rfl
    · exact law.value_zero.trans (Nat.zero_mod _).symm
  obtain ⟨ctx, hctx, htaken⟩ := processPieces_returns law direct pieces hstart
  rw [hashPieces, hctx, ok_bind]
  exact finishCtx_returns law htaken hcount

end

end

structure HashFunction.Agrees (f g : HashFunction σ) : Prop where
  block : f.block = g.block
  field : f.field = g.field
  init : f.init = g.init
  compress : ∀ {h x}, x.length = g.block → f.compress h x = g.compress h x
  digest : f.digest = g.digest

section
variable {f g : HashFunction σ}

lemma HashFunction.Agrees.absorb (h : f.Agrees g) (hx : x.length = n * g.block) (v : σ) :
    f.absorb n x v = g.absorb n x v := by
  induction n generalizing x v with
  | zero => rfl
  | succ n ih =>
    rw [Nat.succ_mul] at hx
    rw [HashFunction.absorb, HashFunction.absorb, h.block, h.compress, ih]
    · simp
      omega
    · rw [List.length_take]
      omega

lemma HashFunction.Agrees.absorbAll (h : f.Agrees g) (hx : x.length % g.block = 0) (v : σ) :
    f.absorbAll x v = g.absorbAll x v := by
  rw [HashFunction.absorbAll, h.block]
  exact h.absorb (Nat.div_mul_cancel (Nat.dvd_of_mod_eq_zero hx)).symm v

lemma HashFunction.Agrees.standardDigest (h : f.Agrees g)
    (hwhole : (g.padded lengthBytes message).length % g.block = 0) :
    f.standardDigest lengthBytes message = g.standardDigest lengthBytes message := by
  have hpadded : f.padded lengthBytes message = g.padded lengthBytes message := by
    unfold HashFunction.padded
    rw [h.block, h.field]
  unfold HashFunction.standardDigest
  rw [hpadded, h.absorbAll hwhole, h.digest, h.init]

lemma HashFunction.padded_mod (hfield : g.field + 1 < g.block)
    (hlength : ∀ n, (lengthBytes n).length = g.field) (message : List UInt8) :
    (g.padded lengthBytes message).length % g.block = 0 := by
  have hlt := Nat.mod_lt (message.length + 1 + g.field) (by omega : 0 < g.block)
  have hsplit := Nat.div_add_mod (message.length + 1 + g.field) g.block
  have hlen : (g.padded lengthBytes message).length = message.length + 1 + g.field +
      (g.block - (message.length + 1 + g.field) % g.block) % g.block := by
    unfold HashFunction.padded
    simp [hlength]
    omega
  have hwhole : message.length + 1 + g.field +
      (g.block - (message.length + 1 + g.field) % g.block) =
        g.block * ((message.length + 1 + g.field) / g.block + 1) := by
    rw [Nat.mul_succ]
    omega
  rw [hlen, Nat.add_mod_mod, hwhole]
  exact Nat.mul_mod_right _ _

end

end Eglibc.BlockHash
