import Eglibc.XdrFilters

/-!
# Call messages with and without inline buffers

Where the stream grants a buffer, `xdr_callmsg` stores and loads the words in it directly;
otherwise the message goes through the filters field by field. The memory stream grants
inline buffers by any policy. Allocations succeed.
-/
namespace Eglibc.Xdr
open Checked BigEndian

variable {bs : List UInt8} {n : ℕ} {z : ℤ}

/-- An `opaque_auth`. The pointer stands with its count, as in `xdr_bytes`; before a
decoding it is the storage, if there is any. -/
structure OpaqueAuth where
  flavor : ℤ
  base : Option (List UInt8)

def OpaqueAuth.length (oa : OpaqueAuth) : ℕ := (oa.base.getD []).length

structure RpcMsg where
  xid : ℤ
  direction : ℤ
  rpcvers : ℤ
  prog : ℤ
  vers : ℤ
  proc : ℤ
  cred : OpaqueAuth
  verf : OpaqueAuth

def maxAuthBytes : ℕ := 400
def call : ℤ := 0
def rpcMsgVersion : ℤ := 2

def rndupUnits (x : ℕ) : ℕ := (x + 3) / 4 * 4

/-! ## Field by field -/

section
variable {σ : Type} (ops : XdrOps σ) (op : XdrOp)

def toValue (base : Option (List UInt8)) : Value :=
  match base with
  | some bs => .bytes bs
  | none => .null

def xdrOpaqueAuth (s : σ) (ap : OpaqueAuth) : Run (Option (σ × OpaqueAuth)) :=
  orFalse (xdrEnum ops op s (.num ap.flavor)) fun (s, flavor) =>
    orFalse (xdrBytes ops op maxAuthBytes s (toValue ap.base)) fun (s, base) => do
      .ok (some (s, ⟨← flavor.toNum, ← base.toBytes⟩))

def callmsgFields (s : σ) (cmsg : RpcMsg) : Run (Option (σ × RpcMsg)) :=
  orFalse (xdrULong ops op s (.num cmsg.xid)) fun (s, xid) =>
    orFalse (xdrEnum ops op s (.num cmsg.direction)) fun (s, direction) => do
      let direction ← direction.toNum
      if direction ≠ call then .ok none
      else
        orFalse (xdrULong ops op s (.num cmsg.rpcvers)) fun (s, rpcvers) => do
          let rpcvers ← rpcvers.toNum
          if rpcvers ≠ rpcMsgVersion then .ok none
          else
            orFalse (xdrULong ops op s (.num cmsg.prog)) fun (s, prog) =>
              orFalse (xdrULong ops op s (.num cmsg.vers)) fun (s, vers) =>
                orFalse (xdrULong ops op s (.num cmsg.proc)) fun (s, proc) =>
                  orFalse (xdrOpaqueAuth ops op s cmsg.cred) fun (s, cred) =>
                    orFalse (xdrOpaqueAuth ops op s cmsg.verf) fun (s, verf) => do
                      .ok (some (s, ⟨← xid.toNum, direction, rpcvers, ← prog.toNum, ← vers.toNum,
                        ← proc.toNum, cred, verf⟩))

end

/-! ## In an inline buffer -/

structure Cursor where
  mem : List UInt8
  addr : ℕ

/-- `IXDR_PUT_LONG`, `IXDR_PUT_ENUM` and `IXDR_PUT_INT32`. -/
def Cursor.put (c : Cursor) (v : ℤ) : Run Cursor := do
  let mem ← storeRange c.mem c.addr (bytes32 v)
  .ok ⟨mem, c.addr + 4⟩

def Cursor.get (c : Cursor) : Run (ℕ × Cursor) := do
  let bs ← loadRange c.mem c.addr 4
  .ok (number bs, ⟨c.mem, c.addr + 4⟩)

def ixdrLong (n : ℕ) : ℤ := unsigned 32 n

def ixdrEnum (n : ℕ) : ℤ := signed 32 n

/-- The bytes of an authenticator are copied, and the pointer moved past their padding. -/
def Cursor.copy (c : Cursor) (bs : List UInt8) : Run Cursor :=
  if bs.length = 0 then .ok c
  else do
    let mem ← storeRange c.mem c.addr bs
    .ok ⟨mem, c.addr + rndupUnits bs.length⟩

def Cursor.putAuth (c : Cursor) (oa : OpaqueAuth) : Run Cursor := do
  let c ← c.put oa.flavor
  let c ← c.put oa.length
  c.copy (oa.base.getD [])

/-- Which inline buffers a stream grants, by its position and the length. -/
abbrev Policy := ℕ → ℕ → Bool

def xdrmemInline (grants : Policy) (len : ℕ) (m : Mem) : Option (Cursor × Mem) :=
  if len ≤ m.handy ∧ grants m.pos len then some (⟨m.buf, m.pos⟩, m.skip len) else none

def callmsgPut (buf : Cursor) (m : Mem) (cmsg : RpcMsg) : Run (Option (Mem × RpcMsg)) := do
  let buf ← buf.put cmsg.xid
  let buf ← buf.put cmsg.direction
  if cmsg.direction ≠ call then .ok none
  else do
    let buf ← buf.put cmsg.rpcvers
    if cmsg.rpcvers ≠ rpcMsgVersion then .ok none
    else do
      let buf ← buf.put cmsg.prog
      let buf ← buf.put cmsg.vers
      let buf ← buf.put cmsg.proc
      let buf ← buf.putAuth cmsg.cred
      let buf ← buf.putAuth cmsg.verf
      .ok (some ({ m with buf := buf.mem }, cmsg))

section
variable (grants : Policy)

/-- The bytes of an authenticator, in a second inline buffer or by `xdr_opaque`. -/
def authBody (m : Mem) (storage : Option (List UInt8)) (length : ℕ) :
    Run (Option (Mem × List UInt8)) :=
  if length = 0 then .ok (some (m, []))
  else if length > maxAuthBytes then .ok none
  else do
    checkStorage (storage.map List.length) length
    match xdrmemInline grants (rndupUnits length) m with
    | none => xdrOpaque xdrmemOps .decode length m []
    | some (buf, m) => do
      let bs ← loadRange buf.mem buf.addr length
      .ok (some (m, bs))

def verfHead (m : Mem) (verf : OpaqueAuth) : Run (Option (Mem × ℤ × ℕ)) :=
  match xdrmemInline grants 8 m with
  | none =>
    orFalse (xdrEnum xdrmemOps .decode m (.num verf.flavor)) fun (m, flavor) =>
      orFalse (xdrUInt xdrmemOps .decode m (.num verf.length)) fun (m, length) => do
        .ok (some (m, ← flavor.toNum, (← length.toNum).toNat))
  | some (buf, m) => do
    let (flavor, buf) ← buf.get
    let (length, _) ← buf.get
    .ok (some (m, ixdrEnum flavor, (ixdrLong length).toNat))

def callmsgGet (buf : Cursor) (m : Mem) (cmsg : RpcMsg) : Run (Option (Mem × RpcMsg)) := do
  let (xid, buf) ← buf.get
  let (direction, buf) ← buf.get
  if ixdrEnum direction ≠ call then .ok none
  else do
    let (rpcvers, buf) ← buf.get
    if ixdrLong rpcvers ≠ rpcMsgVersion then .ok none
    else do
      let (prog, buf) ← buf.get
      let (vers, buf) ← buf.get
      let (proc, buf) ← buf.get
      let (credFlavor, buf) ← buf.get
      let (credLength, _) ← buf.get
      orFalse (authBody grants m cmsg.cred.base (ixdrLong credLength).toNat) fun (m, cred) =>
        orFalse (verfHead grants m cmsg.verf) fun (m, verfFlavor, verfLength) =>
          orFalse (authBody grants m cmsg.verf.base verfLength) fun (m, verf) =>
            .ok (some (m, ⟨ixdrLong xid, ixdrEnum direction, ixdrLong rpcvers, ixdrLong prog,
              ixdrLong vers, ixdrLong proc, ⟨ixdrEnum credFlavor, some cred⟩,
              ⟨verfFlavor, some verf⟩⟩))

end

def callmsgLength (cmsg : RpcMsg) : ℕ :=
  8 * 4 + rndupUnits cmsg.cred.length + 2 * 4 + rndupUnits cmsg.verf.length

def xdrCallmsg (grants : Policy) (op : XdrOp) (m : Mem) (cmsg : RpcMsg) :
    Run (Option (Mem × RpcMsg)) :=
  match op with
  | .encode =>
    if cmsg.cred.length > maxAuthBytes then .ok none
    else if cmsg.verf.length > maxAuthBytes then .ok none
    else
      match xdrmemInline grants (callmsgLength cmsg) m with
      | some (buf, m) => callmsgPut buf m cmsg
      | none => callmsgFields xdrmemOps .encode m cmsg
  | .decode =>
    match xdrmemInline grants (8 * 4) m with
    | some (buf, m) => callmsgGet grants buf m cmsg
    | none => callmsgFields xdrmemOps .decode m cmsg
  | .free => callmsgFields xdrmemOps .free m cmsg

def refuse : Policy := fun _ _ => false

structure MemStream extends Mem where
  fits : pos + handy ≤ buf.length

/-! ## Decoding -/

lemma rndupUnits_eq (n : ℕ) : rndupUnits n = n + rndup n := by
  unfold rndupUnits rndup
  split_ifs <;> omega

lemma orFalse_congr {α β : Type} {x : Run (Option α)} {f g : α → Run (Option β)}
    (h : ∀ a, x = .ok (some a) → f a = g a) : orFalse x f = orFalse x g := by
  match x with
  | .error e => rfl
  | .ok none => rfl
  | .ok (some a) => exact h a rfl

lemma orFalse_assoc {α β γ : Type} (x : Run (Option α)) (f : α → Run (Option β))
    (g : β → Run (Option γ)) : orFalse (orFalse x f) g = orFalse x fun a => orFalse (f a) g := by
  match x with
  | .error e => rfl
  | .ok none => rfl
  | .ok (some a) => rfl

def Mem.Sound (m : Mem) : Prop := m.pos + m.handy ≤ m.buf.length

def Mem.front (m : Mem) (n : ℕ) : List UInt8 := (m.buf.drop m.pos).take n

def Mem.cursor (m : Mem) : Cursor := ⟨m.buf, m.pos⟩

def Mem.word (m : Mem) : ℕ := number (m.front 4)

section
variable {m : Mem} {n : ℕ}

section
variable (hm : m.Sound)
include hm

lemma Mem.Sound.skip (h : n ≤ m.handy) : (m.skip n).Sound := by
  unfold Mem.Sound Mem.skip at *
  dsimp only
  omega

lemma Mem.Sound.loadRange (h : n ≤ m.handy) :
    Checked.loadRange m.buf m.pos n = .ok (m.front n) := by
  unfold Mem.Sound at hm
  exact if_pos (by omega)

lemma Mem.Sound.getlong (h : 4 ≤ m.handy) :
    xdrmemOps.getlong m = .ok (some (signed 32 m.word, m.skip 4)) := by
  simp only [xdrmemOps, xdrmemGetlong, if_neg (Nat.not_lt.mpr h), hm.loadRange h, ok_bind]
  rfl

omit hm in
lemma getlong_short (h : m.handy < 4) : xdrmemOps.getlong m = .ok none := by
  simp [xdrmemOps, xdrmemGetlong, h]

lemma Mem.Sound.get (h : 4 ≤ m.handy) : m.cursor.get = .ok (m.word, (m.skip 4).cursor) := by
  simp only [Cursor.get, Mem.cursor, hm.loadRange h, ok_bind]
  rfl

lemma Mem.Sound.uLong (h : 4 ≤ m.handy) (v : Value) :
    xdrULong xdrmemOps .decode m v = .ok (some (m.skip 4, .num (ixdrLong m.word))) := by
  simp [xdrULong, hm.getlong h, ixdrLong, unsigned_signed (le_refl 32)]

lemma Mem.Sound.uInt (h : 4 ≤ m.handy) (v : Value) :
    xdrUInt xdrmemOps .decode m v = .ok (some (m.skip 4, .num (ixdrLong m.word))) := by
  simp [xdrUInt, xdrWord, hm.getlong h, ixdrLong, unsigned_signed (le_refl 32)]

lemma Mem.Sound.enum (h : 4 ≤ m.handy) (v : Value) :
    xdrEnum xdrmemOps .decode m v = .ok (some (m.skip 4, .num (ixdrEnum m.word))) := by
  simp [xdrEnum, xdrWord, hm.getlong h, ixdrEnum, signed]

theorem Mem.Sound.opaqueBytes (hn : n ≠ 0) : xdrOpaque xdrmemOps .decode n m [] =
      if rndupUnits n ≤ m.handy then .ok (some (m.skip (rndupUnits n), m.front n)) else .ok none := by
  have hget : ∀ {m : Mem} {k : ℕ}, m.Sound → k ≤ m.handy →
      xdrmemOps.getbytes k m = .ok (some (m.front k, m.skip k)) := by
    intro m k hm hk
    simp only [xdrmemOps, xdrmemGetbytes, if_neg (Nat.not_lt.mpr hk), hm.loadRange hk, ok_bind]
  have hshort : ∀ {m : Mem} {k : ℕ}, m.handy < k → xdrmemOps.getbytes k m = .ok none := by
    intro m k hk
    simp [xdrmemOps, xdrmemGetbytes, hk]
  rw [rndupUnits_eq]
  rw [xdrOpaque, if_neg hn]
  dsimp only
  by_cases hbytes : n ≤ m.handy
  · rw [hget hm hbytes, orFalse_some]
    have hrest : (m.skip n).handy = m.handy - n := rfl
    by_cases hpad : rndup n = 0
    · simp [hpad, hbytes]
    · by_cases hall : n + rndup n ≤ m.handy
      · rw [if_neg hpad, if_pos hall, hget (hm.skip hbytes) (by omega), orFalse_some, Mem.skip_skip]
      · rw [if_neg hpad, if_neg hall, hshort (by dsimp only; omega), orFalse_none]
  · rw [hshort (by omega), orFalse_none, if_neg (by omega)]

theorem Mem.Sound.authBody (grants : Policy) (storage : Option (List UInt8)) :
    authBody grants m storage n =
      if n = 0 then .ok (some (m, []))
      else if n > maxAuthBytes then .ok none
      else checkStorage (storage.map List.length) n >>= fun _ =>
        xdrOpaque xdrmemOps .decode n m [] := by
  unfold Xdr.authBody xdrmemInline
  split_ifs with hn hmax hgrant
  · rfl
  · rfl
  · have hlen : n ≤ m.handy := by
      rw [rndupUnits_eq] at hgrant
      omega
    rw [hm.opaqueBytes hn, if_pos hgrant.1]
    dsimp only
    rw [hm.loadRange hlen, ok_bind]
  · rfl

lemma Mem.Sound.authBody_sound (h : Xdr.authBody grants m storage n = .ok (some (m', bs))) :
    m'.Sound := by
  rw [hm.authBody] at h
  split_ifs at h with hn hmax
  · cases h
    exact hm
  · cases h
  · rw [hm.opaqueBytes hn] at h
    cases hstorage : checkStorage (storage.map List.length) n with
    | error e =>
      rw [hstorage] at h
      cases h
    | ok u =>
      rw [hstorage, ok_bind] at h
      split_ifs at h with hlen
      · cases h
        exact hm.skip hlen
      · cases h

lemma Mem.Sound.verfHead (grants : Policy) (verf : OpaqueAuth) : verfHead grants m verf =
      if 8 ≤ m.handy then
        .ok (some (m.skip 8, ixdrEnum m.word, (ixdrLong (m.skip 4).word).toNat))
      else .ok none := by
  have hrest : (m.skip 4).handy = m.handy - 4 := rfl
  unfold Xdr.verfHead xdrmemInline
  by_cases hlen : 8 ≤ m.handy
  · have hsecond : (m.skip 4).Sound := hm.skip (by omega)
    split_ifs
    · dsimp only
      rw [show (⟨m.buf, m.pos⟩ : Cursor) = m.cursor from rfl, hm.get (by omega), ok_bind]
      rw [hsecond.get (by omega), ok_bind]
    dsimp only
    rw [hm.enum (by omega), orFalse_some]
    rw [hsecond.uInt (by omega), orFalse_some, Mem.skip_skip]
    rfl
  rw [if_neg hlen, if_neg (by omega)]
  by_cases hfirst : 4 ≤ m.handy
  · rw [hm.enum hfirst, orFalse_some]
    dsimp only
    rw [xdrUInt, xdrWord, getlong_short (by omega), orFalse_none, orFalse_none]
  · rw [xdrEnum, xdrWord, getlong_short (by omega), orFalse_none, orFalse_none]

omit hm in
@[simp] lemma toBytes_toValue (base : Option (List UInt8)) : (toValue base).toBytes = .ok base := by
  cases base <;> rfl

omit hm in
@[simp] lemma checkStorage_zero (storage : Option ℕ) : checkStorage storage 0 = .ok () := by
  cases storage with
  | none => rfl
  | some size => simp [checkStorage]

theorem Mem.Sound.bytes (h : 4 ≤ m.handy) (grants : Policy) (base : Option (List UInt8)) :
    xdrBytes xdrmemOps .decode maxAuthBytes m (toValue base) =
      orFalse (Xdr.authBody grants (m.skip 4) base (ixdrLong m.word).toNat) fun (m, bs) =>
        .ok (some (m, .bytes bs)) := by
  have hskip : (m.skip 4).Sound := hm.skip h
  rw [xdrBytes, toBytes_toValue, ok_bind, hm.uInt h, orFalse_some, hskip.authBody]
  dsimp only [Value.toNum]
  rw [ok_bind]
  by_cases hzero : (ixdrLong m.word).toNat = 0
  · rw [hzero, if_neg (by simp), if_pos rfl, checkStorage_zero]
    rfl
  by_cases hmax : maxAuthBytes < (ixdrLong m.word).toNat
  · rw [if_pos ⟨hmax, by decide⟩, if_neg hzero, if_pos hmax, orFalse_none]
  · rw [if_neg (fun h => hmax h.1), if_neg hzero, if_neg hmax]
    cases checkStorage (base.map List.length) (ixdrLong m.word).toNat <;> rfl

omit hm in
lemma bytes_short (h : m.handy < 4) (v : Value) (hv : ∃ base, v.toBytes = .ok base) :
    xdrBytes xdrmemOps .decode maxAuthBytes m v = .ok none := by
  obtain ⟨base, hv⟩ := hv
  simp [xdrBytes, hv, ok_bind, xdrUInt, xdrWord, getlong_short h, orFalse_none]

theorem Mem.Sound.opaqueAuth (grants : Policy) (ap : OpaqueAuth) :
    xdrOpaqueAuth xdrmemOps .decode m ap =
      orFalse (Xdr.verfHead grants m ap) fun (m, flavor, length) =>
        orFalse (Xdr.authBody grants m ap.base length) fun (m, bs) =>
          .ok (some (m, ⟨flavor, some bs⟩)) := by
  have hrest : (m.skip 4).handy = m.handy - 4 := rfl
  rw [hm.verfHead]
  unfold xdrOpaqueAuth
  by_cases hlen : 8 ≤ m.handy
  · have hsecond : (m.skip 4).Sound := hm.skip (by omega)
    rw [if_pos hlen, orFalse_some, hm.enum (by omega), orFalse_some]
    dsimp only
    rw [hsecond.bytes (by omega) grants, Mem.skip_skip]
    match Xdr.authBody grants (m.skip 8) ap.base (ixdrLong (m.skip 4).word).toNat with
    | .error e => rfl
    | .ok none => rfl
    | .ok (some (m', bs)) => rfl
  rw [if_neg hlen, orFalse_none]
  by_cases hfirst : 4 ≤ m.handy
  · rw [hm.enum hfirst, orFalse_some]
    dsimp only
    rw [bytes_short (by omega) _ ⟨_, toBytes_toValue _⟩, orFalse_none]
  · rw [xdrEnum, xdrWord, getlong_short (by omega), orFalse_none, orFalse_none]

lemma Mem.Sound.callmsgGet (h : 8 * 4 ≤ m.handy) (grants : Policy) (cmsg : RpcMsg) :
    callmsgGet grants m.cursor (m.skip 32) cmsg = callmsgFields xdrmemOps .decode m cmsg := by
  have hword : ∀ k, k ≤ 28 → (m.skip k).Sound ∧ 4 ≤ (m.skip k).handy := by
    intro k hk
    refine ⟨hm.skip (by omega), ?_⟩
    simp only [Mem.skip]
    omega
  have hget : ∀ k l, k ≤ 28 → k + 4 = l →
      (m.skip k).cursor.get = .ok ((m.skip k).word, (m.skip l).cursor) := by
    intro k l hk hl
    rw [(hword k hk).1.get (hword k hk).2, Mem.skip_skip, hl]
  have hulong : ∀ k l, k ≤ 28 → k + 4 = l → ∀ v, xdrULong xdrmemOps .decode (m.skip k) v =
      .ok (some (m.skip l, .num (ixdrLong (m.skip k).word))) := by
    intro k l hk hl v
    rw [(hword k hk).1.uLong (hword k hk).2, Mem.skip_skip, hl]
  have henum : ∀ v, xdrEnum xdrmemOps .decode (m.skip 4) v =
      .ok (some (m.skip 8, .num (ixdrEnum (m.skip 4).word))) := by
    intro v
    rw [(hword 4 (by omega)).1.enum (hword 4 (by omega)).2, Mem.skip_skip]
  have hhead : (m.skip 24).Sound := (hword 24 (by omega)).1
  have hlen : 8 ≤ (m.skip 24).handy := by
    simp only [Mem.skip]
    omega
  unfold Xdr.callmsgGet callmsgFields
  rw [hm.get (by omega), ok_bind, hm.uLong (by omega), orFalse_some]
  dsimp only
  rw [hget 4 8 (by omega) rfl, ok_bind, henum, orFalse_some]
  dsimp only [Value.toNum]
  rw [ok_bind]
  by_cases hcall : ixdrEnum (m.skip 4).word = call
  · rw [if_neg (not_not.mpr hcall), if_neg (not_not.mpr hcall), hget 8 12 (by omega) rfl, ok_bind,
      hulong 8 12 (by omega) rfl, orFalse_some]
    rw [ok_bind]
    by_cases hversion : ixdrLong (m.skip 8).word = rpcMsgVersion
    · rw [if_neg (not_not.mpr hversion), if_neg (not_not.mpr hversion),
        hget 12 16 (by omega) rfl, ok_bind, hulong 12 16 (by omega) rfl, orFalse_some]
      rw [hget 16 20 (by omega) rfl, ok_bind, hulong 16 20 (by omega) rfl, orFalse_some]
      rw [hget 20 24 (by omega) rfl, ok_bind, hulong 20 24 (by omega) rfl, orFalse_some]
      rw [hget 24 28 (by omega) rfl, ok_bind]
      rw [hget 28 32 (by omega) rfl, ok_bind]
      rw [hhead.opaqueAuth grants, hhead.verfHead, if_pos hlen, orFalse_some]
      rw [Mem.skip_skip, Mem.skip_skip, orFalse_assoc]
      apply orFalse_congr
      rintro ⟨m', cred⟩ hcred
      have hm' : m'.Sound := (hm.skip h).authBody_sound hcred
      rw [orFalse_some]
      rw [hm'.opaqueAuth grants, orFalse_assoc]
      apply orFalse_congr
      rintro ⟨m'', flavor, length⟩ _
      rw [orFalse_assoc]
      rfl
    · simp [hversion]
  · simp [hcall]

end

end

theorem decode_refuse (grants : Policy) (m : MemStream) (cmsg : RpcMsg) :
    xdrCallmsg grants .decode m.toMem cmsg = xdrCallmsg refuse .decode m.toMem cmsg := by
  have hm : m.toMem.Sound := m.fits
  have hrefuse : xdrCallmsg refuse .decode m.toMem cmsg = callmsgFields xdrmemOps .decode m.toMem cmsg := by
    simp [xdrCallmsg, xdrmemInline, refuse]
  rw [hrefuse]
  unfold xdrCallmsg xdrmemInline
  dsimp only
  split_ifs with hgrant
  · exact hm.callmsgGet hgrant.1 grants cmsg
  · rfl

/-! ## Encoding -/

section
variable {m : Mem}

def headBytes (cmsg : RpcMsg) : List UInt8 :=
  bytes32 cmsg.xid ++ bytes32 cmsg.direction ++ bytes32 cmsg.rpcvers ++ bytes32 cmsg.prog ++
    bytes32 cmsg.vers ++ bytes32 cmsg.proc

def authBytes (oa : OpaqueAuth) (pad : List UInt8) : List UInt8 :=
  bytes32 oa.flavor ++ bytes32 oa.length ++ (oa.base.getD [] ++ pad)

def messageBytes (cmsg : RpcMsg) (credPad verfPad : List UInt8) : List UInt8 :=
  headBytes cmsg ++ authBytes cmsg.cred credPad ++ authBytes cmsg.verf verfPad

lemma Mem.write_nil (m : Mem) : m.write [] = m := by
  simp [Mem.write]

lemma Mem.Sound.room (hm : m.Sound) (h : n ≤ m.handy) : m.Room n := by
  unfold Mem.Sound at hm
  exact ⟨h, by omega⟩

lemma Mem.Room.mono (h : m.Room n) (hk : k ≤ n) : m.Room k := by
  obtain ⟨h1, h2⟩ := h
  exact ⟨by omega, by omega⟩

lemma Mem.room_after (h : m.Room n) (hk : bs.length + k = n) : (m.write bs).Room k := by
  have hbs : m.Room bs.length := h.mono (by omega)
  obtain ⟨h1, h2⟩ := h
  constructor
  · simp only [Mem.write]
    omega
  · rw [Mem.length_buf_write hbs]
    simp only [Mem.write]
    omega

def Mem.stale (m : Mem) (i n : ℕ) : List UInt8 := (m.buf.drop (m.pos + i)).take n

lemma Mem.length_stale (h : m.Room (i + n)) : (m.stale i n).length = n := by
  have := h.2
  simp only [Mem.stale, List.length_take, List.length_drop]
  omega

lemma Mem.stale_write (h : m.Room bs.length) (i n : ℕ) :
    (m.write bs).stale i n = m.stale (bs.length + i) n := by
  have hlen : (m.buf.take m.pos ++ bs).length = m.pos + bs.length := by
    have := h.2
    simp
    omega
  unfold Mem.stale Mem.write
  rw [← List.drop_drop, List.drop_left' hlen, List.drop_drop, Nat.add_assoc]

lemma Mem.write_inj (hlen : as.length = bs.length) (heq : m.write as = m.write bs) : as = bs := by
  have hbuf := congrArg Mem.buf heq
  simp only [Mem.write, hlen, List.append_assoc] at hbuf
  have htail := List.append_cancel_left hbuf
  exact (List.append_inj htail hlen).1

lemma cursor_put (h : m.Room 4) (v : ℤ) : m.cursor.put v = .ok (m.write (bytes32 v)).cursor := by
  have hfits : m.pos + (bytes32 v).length ≤ m.buf.length := h.2
  unfold Cursor.put storeRange Mem.cursor
  rw [if_pos hfits]
  rfl

theorem cursor_copy (bs : List UInt8) (h : m.Room (rndupUnits bs.length)) :
    m.cursor.copy bs = .ok (m.write (bs ++ m.stale bs.length (rndup bs.length))).cursor := by
  have hunits := rndupUnits_eq bs.length
  have hstale : (m.stale bs.length (rndup bs.length)).length = rndup bs.length := by
    apply Mem.length_stale
    rwa [← hunits]
  by_cases hbs : bs.length = 0
  · have hnil := List.length_eq_zero_iff.mp hbs
    subst hnil
    simp [Cursor.copy, Mem.stale, rndup, Mem.write_nil]
  have hroom : m.pos + bs.length ≤ m.buf.length := by
    have := h.2
    omega
  have hsplit : m.stale bs.length (rndup bs.length) ++
      m.buf.drop (m.pos + (bs.length + rndup bs.length)) = m.buf.drop (m.pos + bs.length) := by
    rw [Mem.stale, ← Nat.add_assoc, ← List.drop_drop (l := m.buf) (j := m.pos + bs.length),
      List.take_append_drop]
  simp [Cursor.copy, hbs, Mem.cursor, storeRange, hroom, ok_bind, Mem.write, hstale, hunits, hsplit]

lemma length_authBytes (oa : OpaqueAuth) (pad : List UInt8) :
    (authBytes oa pad).length = 8 + (oa.length + pad.length) := by
  simp only [authBytes, OpaqueAuth.length, List.length_append, length_bytes32]

section
variable {bs : List UInt8}

lemma put_next (h : m.Room (bs ++ bytes32 v).length) :
    (m.write bs).cursor.put v = .ok (m.write (bs ++ bytes32 v)).cursor := by
  rw [cursor_put (Mem.room_write h), Mem.write_append h]

lemma room_words (oa : OpaqueAuth) (h : m.Room (bs.length + (8 + n))) :
    m.Room (bs ++ bytes32 oa.flavor).length ∧
      m.Room (bs ++ bytes32 oa.flavor ++ bytes32 oa.length).length := by
  constructor
  · apply h.mono
    simp
    omega
  · apply h.mono
    simp only [List.length_append, length_bytes32]
    omega

lemma append_authBytes (oa : OpaqueAuth) (pad : List UInt8) : bs ++ authBytes oa pad =
    bs ++ bytes32 oa.flavor ++ bytes32 oa.length ++ (oa.base.getD [] ++ pad) := by
  simp [authBytes]

theorem putAuth_next (oa : OpaqueAuth) (h : m.Room (bs.length + (8 + rndupUnits oa.length))) :
    (m.write bs).cursor.putAuth oa = .ok (m.write (bs ++
      authBytes oa (m.stale (bs.length + 8 + oa.length) (rndup oa.length)))).cursor := by
  have hunits := rndupUnits_eq oa.length
  obtain ⟨hflavor, hwords⟩ := room_words oa h
  have hbody : (m.write (bs ++ bytes32 oa.flavor ++ bytes32 oa.length)).Room (rndupUnits oa.length) :=
    Mem.room_after h (by simp; omega)
  have hstale : (m.stale (bs.length + 8 + oa.length) (rndup oa.length)).length = rndup oa.length :=
    Mem.length_stale (h.mono (by omega))
  have hall : m.Room (bs ++ bytes32 oa.flavor ++ bytes32 oa.length ++
      (oa.base.getD [] ++ m.stale (bs.length + 8 + oa.length) (rndup oa.length))).length := by
    apply h.mono
    have hbase : (oa.base.getD []).length = oa.length := rfl
    simp [length_bytes32, hstale, hunits, hbase]
    omega
  rw [Cursor.putAuth, put_next hflavor, ok_bind, put_next hwords, ok_bind, cursor_copy _ hbody,
    Mem.stale_write hwords]
  have hoffset : (bs ++ bytes32 oa.flavor ++ bytes32 oa.length).length + oa.length =
      bs.length + 8 + oa.length := by simp
  rw [append_authBytes, Mem.write_append hall, ← hoffset]
  rfl

lemma enum_next (h : m.Room (bs ++ bytes32 z).length) :
    xdrEnum xdrmemOps .encode (m.write bs) (.num z) =
      .ok (some (m.write (bs ++ bytes32 z), .num z)) := by
  have hput := memSink.putlong (s := m.write bs) (l := z) ⟨Mem.room_write h, rfl⟩
  rw [Mem.write_append h]
  simp only [xdrEnum, xdrWord, Value.toNum, ok_bind, id]
  rw [show xdrmemOps.putlong z (m.write bs) = _ from hput, orFalse_some]

lemma uInt_next (h : m.Room (bs ++ bytes32 z).length) :
    xdrUInt xdrmemOps .encode (m.write bs) (.num z) =
      .ok (some (m.write (bs ++ bytes32 z), .num z)) := enum_next h

lemma uLong_start (h : m.Room (bytes32 z).length) (hz : unsigned 32 z = z) :
    xdrULong xdrmemOps .encode m (.num z) = .ok (some (m.write (bytes32 z), .num z)) := by
  have hput := memSink.putlong (s := m) (l := z) ⟨h, rfl⟩
  simp [xdrULong, Value.toNum, ok_bind, hz]
  rw [show xdrmemOps.putlong z m = _ from hput, orFalse_some]

lemma uLong_next (h : m.Room (bs ++ bytes32 z).length) (hz : unsigned 32 z = z) :
    xdrULong xdrmemOps .encode (m.write bs) (.num z) =
      .ok (some (m.write (bs ++ bytes32 z), .num z)) := by
  rw [uLong_start (Mem.room_write h) hz, Mem.write_append h]

lemma uLong_refused (m : Mem) (hz : unsigned 32 z ≠ z) :
    xdrULong xdrmemOps .encode m (.num z) = .ok none := by
  simp [xdrULong, Value.toNum, hz]

theorem opaqueAuth_next (oa : OpaqueAuth) (hmax : oa.length ≤ maxAuthBytes)
    (h : m.Room (bs.length + (8 + rndupUnits oa.length))) :
    xdrOpaqueAuth xdrmemOps .encode (m.write bs) oa =
      .ok (some (m.write (bs ++ authBytes oa (List.replicate (rndup oa.length) 0)), oa)) := by
  have hunits := rndupUnits_eq oa.length
  have hbase : (oa.base.getD []).length = oa.length := rfl
  obtain ⟨hflavor, hwords⟩ := room_words oa h
  have hall : m.Room (bs ++ bytes32 oa.flavor ++ bytes32 oa.length ++ padded (oa.base.getD [])).length := by
    apply h.mono
    simp [length_bytes32, length_padded, hunits, hbase]
    omega
  have hopaque := xdrOpaque_encode (oa.base.getD []) memSink
    (s := m.write (bs ++ bytes32 oa.flavor ++ bytes32 oa.length)) ⟨Mem.room_write hall, rfl⟩
  rw [append_authBytes]
  unfold xdrOpaqueAuth xdrBytes
  rw [enum_next hflavor, orFalse_some]
  dsimp only
  rw [toBytes_toValue, ok_bind, hbase, uInt_next hwords, orFalse_some]
  dsimp only [Value.toNum]
  rw [ok_bind, Int.toNat_natCast, if_neg (fun h => absurd h.1 (Nat.not_lt.mpr hmax))]
  rw [show xdrOpaque xdrmemOps .encode oa.length _ (oa.base.getD []) = _ from hopaque,
    orFalse_some, ← Mem.write_append hall]
  rw [orFalse_some, toBytes_toValue]
  rfl

end

def RpcMsg.Sendable (cmsg : RpcMsg) : Prop :=
  cmsg.direction = call ∧ cmsg.rpcvers = rpcMsgVersion

def RpcMsg.Fits (cmsg : RpcMsg) : Prop :=
  ∀ z ∈ [cmsg.xid, cmsg.prog, cmsg.vers, cmsg.proc], unsigned 32 z = z

instance (cmsg : RpcMsg) : Decidable cmsg.Sendable := inferInstanceAs (Decidable (_ ∧ _))

instance (cmsg : RpcMsg) : Decidable cmsg.Fits := inferInstanceAs (Decidable (∀ _ ∈ _, _))

def credPadding (m : Mem) (cmsg : RpcMsg) : List UInt8 :=
  m.stale (32 + cmsg.cred.length) (rndup cmsg.cred.length)

def verfPadding (m : Mem) (cmsg : RpcMsg) : List UInt8 :=
  m.stale (40 + rndupUnits cmsg.cred.length + cmsg.verf.length) (rndup cmsg.verf.length)

section
variable {cmsg : RpcMsg} (hroom : m.Room (callmsgLength cmsg))
include hroom

lemma room_front (h : bs.length ≤ 24) : m.Room bs.length := by
  apply hroom.mono
  unfold callmsgLength
  omega

theorem room_words_of_message : m.Room (bytes32 cmsg.xid).length ∧
    m.Room (bytes32 cmsg.xid ++ bytes32 cmsg.direction).length ∧
    m.Room (bytes32 cmsg.xid ++ bytes32 cmsg.direction ++ bytes32 cmsg.rpcvers).length ∧
    m.Room (bytes32 cmsg.xid ++ bytes32 cmsg.direction ++ bytes32 cmsg.rpcvers ++
      bytes32 cmsg.prog).length ∧
    m.Room (bytes32 cmsg.xid ++ bytes32 cmsg.direction ++ bytes32 cmsg.rpcvers ++
      bytes32 cmsg.prog ++ bytes32 cmsg.vers).length ∧ m.Room (headBytes cmsg).length :=
  ⟨room_front hroom (by simp), room_front hroom (by simp), room_front hroom (by simp),
    room_front hroom (by simp), room_front hroom (by simp), room_front hroom (by simp [headBytes])⟩

omit hroom in
lemma length_headBytes : (headBytes cmsg).length = 24 := rfl

lemma room_cred : m.Room ((headBytes cmsg).length + (8 + rndupUnits cmsg.cred.length)) := by
  apply hroom.mono
  rw [length_headBytes, callmsgLength]
  omega

lemma room_verf (hpad : pad.length = rndup cmsg.cred.length) :
    m.Room ((headBytes cmsg ++ authBytes cmsg.cred pad).length +
      (8 + rndupUnits cmsg.verf.length)) := by
  have hunits := rndupUnits_eq cmsg.cred.length
  apply hroom.mono
  simp [length_headBytes, length_authBytes, hpad, callmsgLength]
  omega

lemma length_credPadding : (credPadding m cmsg).length = rndup cmsg.cred.length := by
  have hunits := rndupUnits_eq cmsg.cred.length
  apply Mem.length_stale
  apply hroom.mono
  unfold callmsgLength
  omega

lemma length_verfPadding : (verfPadding m cmsg).length = rndup cmsg.verf.length := by
  have hunits := rndupUnits_eq cmsg.verf.length
  apply Mem.length_stale
  apply hroom.mono
  unfold callmsgLength
  omega

omit hroom in
lemma length_messageBytes (hcred : credPad.length = rndup cmsg.cred.length)
    (hverf : verfPad.length = rndup cmsg.verf.length) :
    (messageBytes cmsg credPad verfPad).length = callmsgLength cmsg := by
  have hunits := rndupUnits_eq cmsg.cred.length
  have hunits' := rndupUnits_eq cmsg.verf.length
  simp [messageBytes, length_headBytes, length_authBytes, hcred, hverf]
  unfold callmsgLength
  omega

omit hroom in
lemma messageBytes_inj (hlen : p.length = p'.length)
    (h : messageBytes cmsg p q = messageBytes cmsg p' q') : p = p' ∧ q = q' := by
  simp only [messageBytes, authBytes, List.append_assoc] at h
  have hcred := List.append_cancel_left (List.append_cancel_left (List.append_cancel_left
    (List.append_cancel_left h)))
  obtain ⟨hp, hrest⟩ := List.append_inj hcred hlen
  exact ⟨hp, List.append_cancel_left (List.append_cancel_left (List.append_cancel_left hrest))⟩

theorem callmsgPut_sends (hsend : cmsg.Sendable) :
    callmsgPut m.cursor (m.skip (callmsgLength cmsg)) cmsg =
      .ok (some (m.write (messageBytes cmsg (credPadding m cmsg) (verfPadding m cmsg)), cmsg)) := by
  obtain ⟨hxid, hdirection, hrpcvers, hprog, hvers, hproc⟩ := room_words_of_message hroom
  have hcredPad := length_credPadding hroom
  have hlen := length_messageBytes hcredPad (length_verfPadding hroom)
  have hunits := rndupUnits_eq cmsg.cred.length
  have hcred : m.stale ((headBytes cmsg).length + 8 + cmsg.cred.length) (rndup cmsg.cred.length) =
      credPadding m cmsg := rfl
  have hverf : m.stale ((headBytes cmsg ++ authBytes cmsg.cred (credPadding m cmsg)).length + 8 +
      cmsg.verf.length) (rndup cmsg.verf.length) = verfPadding m cmsg := by
    rw [List.length_append, length_headBytes, length_authBytes, hcredPad, verfPadding, hunits]
    congr 1
    omega
  rw [callmsgPut, cursor_put hxid, ok_bind, put_next hdirection, ok_bind, if_neg (not_not.mpr hsend.1),
    put_next hrpcvers, ok_bind, if_neg (not_not.mpr hsend.2), put_next hprog, ok_bind,
    put_next hvers, ok_bind, put_next hproc, ok_bind]
  rw [show bytes32 cmsg.xid ++ bytes32 cmsg.direction ++ bytes32 cmsg.rpcvers ++ bytes32 cmsg.prog ++
    bytes32 cmsg.vers ++ bytes32 cmsg.proc = headBytes cmsg from rfl,
    putAuth_next _ (room_cred hroom), ok_bind, hcred, putAuth_next _ (room_verf hroom hcredPad),
    ok_bind, hverf]
  simp only [Mem.cursor, Mem.skip, Mem.write, messageBytes] at hlen ⊢
  rw [hlen]

lemma callmsgPut_refuses (hsend : ¬ cmsg.Sendable) :
    callmsgPut m.cursor (m.skip (callmsgLength cmsg)) cmsg = .ok none := by
  obtain ⟨hxid, hdirection, hrpcvers, -⟩ := room_words_of_message hroom
  rw [callmsgPut, cursor_put hxid, ok_bind, put_next hdirection, ok_bind]
  by_cases hcall : cmsg.direction = call
  · have hversion : cmsg.rpcvers ≠ rpcMsgVersion := fun h => hsend ⟨hcall, h⟩
    rw [if_neg (not_not.mpr hcall), put_next hrpcvers, ok_bind, if_pos hversion]
  · rw [if_pos hcall]

theorem callmsgFields_sends (hsend : cmsg.Sendable) (hfits : cmsg.Fits)
    (hcred : cmsg.cred.length ≤ maxAuthBytes) (hverf : cmsg.verf.length ≤ maxAuthBytes) :
    callmsgFields xdrmemOps .encode m cmsg =
      .ok (some (m.write (messageBytes cmsg (List.replicate (rndup cmsg.cred.length) 0)
        (List.replicate (rndup cmsg.verf.length) 0)), cmsg)) := by
  obtain ⟨hxid, hdirection, hrpcvers, hprog, hvers, hproc⟩ := room_words_of_message hroom
  have hzeros : (List.replicate (rndup cmsg.cred.length) (0 : UInt8)).length =
      rndup cmsg.cred.length := List.length_replicate
  have hversion : unsigned 32 cmsg.rpcvers = cmsg.rpcvers := by
    rw [hsend.2]
    rfl
  rw [callmsgFields, uLong_start hxid (hfits cmsg.xid (by simp)), orFalse_some]
  dsimp only
  rw [enum_next hdirection, orFalse_some]
  dsimp only [Value.toNum]
  rw [ok_bind, if_neg (not_not.mpr hsend.1), uLong_next hrpcvers hversion, orFalse_some]
  rw [ok_bind, if_neg (not_not.mpr hsend.2), uLong_next hprog (hfits cmsg.prog (by simp)),
    orFalse_some]
  rw [uLong_next hvers (hfits cmsg.vers (by simp)), orFalse_some]
  rw [uLong_next hproc (hfits cmsg.proc (by simp)), orFalse_some]
  rw [show bytes32 cmsg.xid ++ bytes32 cmsg.direction ++ bytes32 cmsg.rpcvers ++ bytes32 cmsg.prog ++
    bytes32 cmsg.vers ++ bytes32 cmsg.proc = headBytes cmsg from rfl,
    opaqueAuth_next _ hcred (room_cred hroom), orFalse_some]
  rw [opaqueAuth_next _ hverf (room_verf hroom hzeros), orFalse_some]
  rfl

theorem callmsgFields_refuses (hsend : ¬ (cmsg.Sendable ∧ cmsg.Fits)) :
    callmsgFields xdrmemOps .encode m cmsg = .ok none := by
  obtain ⟨hxid, hdirection, hrpcvers, hprog, hvers, hproc⟩ := room_words_of_message hroom
  unfold callmsgFields
  by_cases hxid' : unsigned 32 cmsg.xid = cmsg.xid
  swap
  · rw [uLong_refused _ hxid', orFalse_none]
  rw [uLong_start hxid hxid', orFalse_some]
  dsimp only
  rw [enum_next hdirection, orFalse_some]
  dsimp only [Value.toNum]
  rw [ok_bind]
  by_cases hcall : cmsg.direction = call
  swap
  · rw [if_pos hcall]
  rw [if_neg (not_not.mpr hcall)]
  by_cases hversion : unsigned 32 cmsg.rpcvers = cmsg.rpcvers
  swap
  · rw [uLong_refused _ hversion, orFalse_none]
  rw [uLong_next hrpcvers hversion, orFalse_some]
  rw [ok_bind]
  by_cases htwo : cmsg.rpcvers = rpcMsgVersion
  swap
  · rw [if_pos htwo]
  rw [if_neg (not_not.mpr htwo)]
  by_cases hprog' : unsigned 32 cmsg.prog = cmsg.prog
  swap
  · rw [uLong_refused _ hprog', orFalse_none]
  rw [uLong_next hprog hprog', orFalse_some]
  by_cases hvers' : unsigned 32 cmsg.vers = cmsg.vers
  swap
  · rw [uLong_refused _ hvers', orFalse_none]
  rw [uLong_next hvers hvers', orFalse_some]
  by_cases hproc' : unsigned 32 cmsg.proc = cmsg.proc
  swap
  · rw [uLong_refused _ hproc', orFalse_none]
  -- every test has been passed
  have hfits : cmsg.Fits := by
    simp [RpcMsg.Fits, hxid', hprog', hvers', hproc']
  exact absurd ⟨⟨hcall, htwo⟩, hfits⟩ hsend

end

end

def Granted (grants : Policy) (m : Mem) (cmsg : RpcMsg) : Prop :=
  callmsgLength cmsg ≤ m.handy ∧ grants m.pos (callmsgLength cmsg) = true

instance (grants : Policy) (m : Mem) (cmsg : RpcMsg) : Decidable (Granted grants m cmsg) :=
  inferInstanceAs (Decidable (_ ∧ _))

/-- The message is refused anyway, or its words have 32 bits and there are zeros in the
buffer where the padding will be. -/
def EncodesAlike (grants : Policy) (m : Mem) (cmsg : RpcMsg) : Prop :=
  Granted grants m cmsg → cmsg.Sendable → cmsg.Fits ∧
    credPadding m cmsg = List.replicate (rndup cmsg.cred.length) 0 ∧
    verfPadding m cmsg = List.replicate (rndup cmsg.verf.length) 0

lemma encode_refuse_iff (grants : Policy) (m : MemStream) (cmsg : RpcMsg)
    (hcred : cmsg.cred.length ≤ maxAuthBytes) (hverf : cmsg.verf.length ≤ maxAuthBytes) :
    xdrCallmsg grants .encode m.toMem cmsg = xdrCallmsg refuse .encode m.toMem cmsg ↔
      EncodesAlike grants m.toMem cmsg := by
  have hm : m.toMem.Sound := m.fits
  have hrefuse : xdrCallmsg refuse .encode m.toMem cmsg = callmsgFields xdrmemOps .encode m.toMem cmsg := by
    simp [xdrCallmsg, xdrmemInline, refuse, Nat.not_lt.mpr hcred, Nat.not_lt.mpr hverf]
  rw [hrefuse]
  rw [xdrCallmsg, if_neg (Nat.not_lt.mpr hcred), if_neg (Nat.not_lt.mpr hverf)]
  by_cases hgrant : Granted grants m.toMem cmsg
  swap
  · have hnone : xdrmemInline grants (callmsgLength cmsg) m.toMem = none := if_neg hgrant
    rw [hnone]
    exact ⟨fun _ h => absurd h hgrant, fun _ => rfl⟩
  have hsome : xdrmemInline grants (callmsgLength cmsg) m.toMem =
    some (m.toMem.cursor, m.toMem.skip (callmsgLength cmsg)) := if_pos hgrant
  have hroom : m.toMem.Room (callmsgLength cmsg) := hm.room hgrant.1
  rw [hsome]
  dsimp only
  by_cases hsend : cmsg.Sendable
  swap
  · rw [callmsgPut_refuses hroom hsend, callmsgFields_refuses hroom fun h => hsend h.1]
    exact ⟨fun _ _ h => absurd h hsend, fun _ => rfl⟩
  rw [callmsgPut_sends hroom hsend]
  by_cases hfits : cmsg.Fits
  swap
  · rw [callmsgFields_refuses hroom fun h => hfits h.2]
    constructor
    · intro h
      cases h
    · intro h
      exact absurd (h hgrant hsend).1 hfits
  rw [callmsgFields_sends hroom hsend hfits hcred hverf]
  have hcredPad := length_credPadding hroom
  have hverfPad := length_verfPadding hroom
  constructor
  · intro h _ _
    simp at h
    have hbytes := Mem.write_inj (by
      rw [length_messageBytes hcredPad hverfPad,
        length_messageBytes List.length_replicate List.length_replicate]) h
    obtain ⟨hpad, hpad'⟩ := messageBytes_inj (by simp [hcredPad]) hbytes
    exact ⟨hfits, hpad, hpad'⟩
  · intro h
    obtain ⟨-, hcredPad, hverfPad⟩ := h hgrant hsend
    rw [hcredPad, hverfPad]

/-- With inline buffers and without, every message with small enough authenticators is
encoded alike exactly under the condition above, and every buffer is decoded alike:
both fail, or the messages and the streams after them are the same. -/
theorem callmsg_bodies_agree_iff (grants : Policy) (m : MemStream) (cmsg : RpcMsg)
    (hcred : cmsg.cred.length ≤ maxAuthBytes) (hverf : cmsg.verf.length ≤ maxAuthBytes) :
    (xdrCallmsg grants .encode m.toMem cmsg = xdrCallmsg refuse .encode m.toMem cmsg ↔
      EncodesAlike grants m.toMem cmsg) ∧ ∀ storage : RpcMsg,
      xdrCallmsg grants .decode m.toMem storage = xdrCallmsg refuse .decode m.toMem storage :=
  ⟨encode_refuse_iff grants m cmsg hcred hverf, decode_refuse grants m⟩

def oldStream (b : UInt8) : MemStream := ⟨⟨List.replicate 44 b, 0, 44⟩, by simp⟩

def oneByteCall (xid : ℤ) : RpcMsg := ⟨xid, call, rpcMsgVersion, 1, 1, 1, ⟨0, some [7]⟩, ⟨0, none⟩⟩

/-- In a buffer of zeros, a message with small numbers is encoded alike. -/
theorem callmsg_bodies_agree_zeros :
    xdrCallmsg (fun _ _ => true) .encode (oldStream 0).toMem (oneByteCall 1) =
      xdrCallmsg refuse .encode (oldStream 0).toMem (oneByteCall 1) :=
  (callmsg_bodies_agree_iff (fun _ _ => true) (oldStream 0) (oneByteCall 1) (by decide)
    (by decide)).1.mpr fun _ _ => ⟨by decide, rfl, rfl⟩

/-- The old bytes of the buffer go out as padding, and a transaction number of more
than 32 bits is cut, where the filters write zeros and refuse the number. -/
theorem inline_sends_old_bytes :
    (xdrCallmsg (fun _ _ => true) .encode (oldStream 255).toMem (oneByteCall 1)).map
        (Option.map fun out => (out.1.buf.drop 33).take 3) = .ok (some [255, 255, 255]) ∧
    (xdrCallmsg refuse .encode (oldStream 255).toMem (oneByteCall 1)).map
        (Option.map fun out => (out.1.buf.drop 33).take 3) = .ok (some [0, 0, 0]) ∧
    (xdrCallmsg (fun _ _ => true) .encode (oldStream 255).toMem (oneByteCall (2 ^ 32))).map
        (Option.map fun out => out.1.buf.take 4) = .ok (some [0, 0, 0, 0]) ∧
    (xdrCallmsg refuse .encode (oldStream 255).toMem (oneByteCall (2 ^ 32))).map
        (Option.map fun out => out.1.buf.take 4) = .ok none := by
  refine ⟨?_, ?_, ?_, ?_⟩ <;> rfl

end Eglibc.Xdr
