import Eglibc.BlockHash
import Eglibc.Endian

/-!
# SHA-256, SHA-512 and MD5

The compression functions of `crypt/sha256-block.c`, `crypt/sha512-block.c` and
`crypt/md5-block.c`, and the constants and counters around them, on a host of either byte
order.
-/
namespace Eglibc.Digests
open Checked BlockHash Endian

/-- What the code is compiled for: the byte order, `_STRING_ARCH_unaligned` and
`USE_TOTAL128`. -/
structure Host where
  big : Bool
  direct : Bool
  total128 : Bool

/-- `SWAP` of the SHA functions for words of `n` bytes. -/
def Host.swap (host : Host) (n v : ℕ) : ℕ := if host.big then v else bswap n v

def words (n : ℕ) (read : List UInt8 → ℕ) : ℕ → List UInt8 → List ℕ
  | 0, _ => []
  | k + 1, bytes => read (bytes.take n) :: words n read k (bytes.drop n)

structure Regs (ω : Type) where
  a : ω
  b : ω
  c : ω
  d : ω
  e : ω
  f : ω
  g : ω
  h : ω
  deriving DecidableEq

def Regs.toList {ω : Type} (r : Regs ω) : List ω := [r.a, r.b, r.c, r.d, r.e, r.f, r.g, r.h]

/-- What the two members of the SHA-2 family differ in: `S0`, `S1`, `R0`, `R1` and `K`. -/
structure Sha2 (ω : Type) where
  s0 : ω → ω
  s1 : ω → ω
  r0 : ω → ω
  r1 : ω → ω
  k : List ω

section
variable {ω : Type} [Add ω] [AndOp ω] [XorOp ω] [Complement ω] [OfNat ω 0] (p : Sha2 ω)

/-- `Ch`. -/
def choose (x y z : ω) : ω := (x &&& y) ^^^ (~~~x &&& z)

/-- `Maj`. -/
def majority (x y z : ω) : ω := (x &&& y) ^^^ (x &&& z) ^^^ (y &&& z)

def schedule : ℕ → List ω → List ω
  | 0, w => w
  | n + 1, w =>
    let t := w.length
    schedule n (w ++ [p.r1 (w.getD (t - 2) 0) + w.getD (t - 7) 0 + p.r0 (w.getD (t - 15) 0) +
      w.getD (t - 16) 0])

def shaRound (r : Regs ω) (kw : ω × ω) : Regs ω :=
  let t1 := r.h + p.s1 r.e + choose r.e r.f r.g + kw.1 + kw.2
  let t2 := p.s0 r.a + majority r.a r.b r.c
  ⟨t1 + t2, r.a, r.b, r.c, r.d + t1, r.e, r.f, r.g⟩

def shaBlock (r : Regs ω) (block : List ω) : Regs ω :=
  let s := (p.k.zip (schedule p (p.k.length - 16) block)).foldl (shaRound p) r
  ⟨s.a + r.a, s.b + r.b, s.c + r.c, s.d + r.d, s.e + r.e, s.f + r.f, s.g + r.g, s.h + r.h⟩

end

/-- `CYCLIC` for words of 32 and of 64 bits. -/
def cyclic32 (w s : UInt32) : UInt32 := w >>> s ||| w <<< (32 - s)

def cyclic64 (w s : UInt64) : UInt64 := w >>> s ||| w <<< (64 - s)

def sha256Params : Sha2 UInt32 where
  s0 x := cyclic32 x 2 ^^^ cyclic32 x 13 ^^^ cyclic32 x 22
  s1 x := cyclic32 x 6 ^^^ cyclic32 x 11 ^^^ cyclic32 x 25
  r0 x := cyclic32 x 7 ^^^ cyclic32 x 18 ^^^ x >>> 3
  r1 x := cyclic32 x 17 ^^^ cyclic32 x 19 ^^^ x >>> 10
  k := [0x428a2f98, 0x71374491, 0xb5c0fbcf, 0xe9b5dba5, 0x3956c25b, 0x59f111f1, 0x923f82a4, 0xab1c5ed5,
   0xd807aa98, 0x12835b01, 0x243185be, 0x550c7dc3, 0x72be5d74, 0x80deb1fe, 0x9bdc06a7, 0xc19bf174,
   0xe49b69c1, 0xefbe4786, 0x0fc19dc6, 0x240ca1cc, 0x2de92c6f, 0x4a7484aa, 0x5cb0a9dc, 0x76f988da,
   0x983e5152, 0xa831c66d, 0xb00327c8, 0xbf597fc7, 0xc6e00bf3, 0xd5a79147, 0x06ca6351, 0x14292967,
   0x27b70a85, 0x2e1b2138, 0x4d2c6dfc, 0x53380d13, 0x650a7354, 0x766a0abb, 0x81c2c92e, 0x92722c85,
   0xa2bfe8a1, 0xa81a664b, 0xc24b8b70, 0xc76c51a3, 0xd192e819, 0xd6990624, 0xf40e3585, 0x106aa070,
   0x19a4c116, 0x1e376c08, 0x2748774c, 0x34b0bcb5, 0x391c0cb3, 0x4ed8aa4a, 0x5b9cca4f, 0x682e6ff3,
   0x748f82ee, 0x78a5636f, 0x84c87814, 0x8cc70208, 0x90befffa, 0xa4506ceb, 0xbef9a3f7, 0xc67178f2]

def sha512Params : Sha2 UInt64 where
  s0 x := cyclic64 x 28 ^^^ cyclic64 x 34 ^^^ cyclic64 x 39
  s1 x := cyclic64 x 14 ^^^ cyclic64 x 18 ^^^ cyclic64 x 41
  r0 x := cyclic64 x 1 ^^^ cyclic64 x 8 ^^^ x >>> 7
  r1 x := cyclic64 x 19 ^^^ cyclic64 x 61 ^^^ x >>> 6
  k := [0x428a2f98d728ae22, 0x7137449123ef65cd, 0xb5c0fbcfec4d3b2f, 0xe9b5dba58189dbbc,
   0x3956c25bf348b538, 0x59f111f1b605d019, 0x923f82a4af194f9b, 0xab1c5ed5da6d8118,
   0xd807aa98a3030242, 0x12835b0145706fbe, 0x243185be4ee4b28c, 0x550c7dc3d5ffb4e2,
   0x72be5d74f27b896f, 0x80deb1fe3b1696b1, 0x9bdc06a725c71235, 0xc19bf174cf692694,
   0xe49b69c19ef14ad2, 0xefbe4786384f25e3, 0x0fc19dc68b8cd5b5, 0x240ca1cc77ac9c65,
   0x2de92c6f592b0275, 0x4a7484aa6ea6e483, 0x5cb0a9dcbd41fbd4, 0x76f988da831153b5,
   0x983e5152ee66dfab, 0xa831c66d2db43210, 0xb00327c898fb213f, 0xbf597fc7beef0ee4,
   0xc6e00bf33da88fc2, 0xd5a79147930aa725, 0x06ca6351e003826f, 0x142929670a0e6e70,
   0x27b70a8546d22ffc, 0x2e1b21385c26c926, 0x4d2c6dfc5ac42aed, 0x53380d139d95b3df,
   0x650a73548baf63de, 0x766a0abb3c77b2a8, 0x81c2c92e47edaee6, 0x92722c851482353b,
   0xa2bfe8a14cf10364, 0xa81a664bbc423001, 0xc24b8b70d0f89791, 0xc76c51a30654be30,
   0xd192e819d6ef5218, 0xd69906245565a910, 0xf40e35855771202a, 0x106aa07032bbd1b8,
   0x19a4c116b8d2d0c8, 0x1e376c085141ab53, 0x2748774cdf8eeb99, 0x34b0bcb5e19b48a8,
   0x391c0cb3c5c95a63, 0x4ed8aa4ae3418acb, 0x5b9cca4f7763e373, 0x682e6ff3d6b2b8a3,
   0x748f82ee5defb2fc, 0x78a5636f43172f60, 0x84c87814a1f0ab72, 0x8cc702081a6439ec,
   0x90befffa23631e28, 0xa4506cebde82bde9, 0xbef9a3f7b2c67915, 0xc67178f2e372532b,
   0xca273eceea26619c, 0xd186b8c721c0c207, 0xeada7dd6cde0eb1e, 0xf57d4f7fee6ed178,
   0x06f067aa72176fba, 0x0a637dc5a2c898a6, 0x113f9804bef90dae, 0x1b710b35131c471b,
   0x28db77f523047d84, 0x32caab7b40c72493, 0x3c9ebe0a15c9bebc, 0x431d67c49c100d4c,
   0x4cc5d4becb3e42b6, 0x597f299cfc657e2a, 0x5fcb6fab3ad6faec, 0x6c44198c4a475817]

def sha256With (read : List UInt8 → ℕ) (write : ℕ → List UInt8) : HashFunction (Regs UInt32) where
  block := 64
  field := 8
  init := ⟨0x6a09e667, 0xbb67ae85, 0x3c6ef372, 0xa54ff53a, 0x510e527f, 0x9b05688c, 0x1f83d9ab, 0x5be0cd19⟩
  compress r bytes := shaBlock sha256Params r ((words 4 read 16 bytes).map UInt32.ofNat)
  digest r := r.toList.flatMap fun w => write w.toNat

def sha512With (read : List UInt8 → ℕ) (write : ℕ → List UInt8) : HashFunction (Regs UInt64) where
  block := 128
  field := 16
  init := ⟨0x6a09e667f3bcc908, 0xbb67ae8584caa73b, 0x3c6ef372fe94f82b, 0xa54ff53a5f1d36f1,
    0x510e527fade682d1, 0x9b05688c2b3e6c1f, 0x1f83d9abfb41bd6b, 0x5be0cd19137e2179⟩
  compress r bytes := shaBlock sha512Params r ((words 8 read 16 bytes).map UInt64.ofNat)
  digest r := r.toList.flatMap fun w => write w.toNat

def sha256Standard : HashFunction (Regs UInt32) := sha256With beNumber (beBytes 4)

def sha512Standard : HashFunction (Regs UInt64) := sha512With beNumber (beBytes 8)

def sha256StoreLength (host : Host) (total64 pos : ℕ) (buffer : List UInt8) : Run (List UInt8) :=
  if host.direct then
    storeRange buffer (pos / 8 * 8) (stored host.big 8 (host.swap 8 (total64 <<< 3 % 2 ^ 64)))
  else do
    let low := total64 % 2 ^ 32
    let high := total64 / 2 ^ 32
    let buffer' ← storeRange buffer ((pos + 4) / 4 * 4)
      (stored host.big 4 (host.swap 4 (low <<< 3 % 2 ^ 32)))
    storeRange buffer' (pos / 4 * 4)
      (stored host.big 4 (host.swap 4 (high <<< 3 % 2 ^ 32 ||| low >>> 29)))

/-- The functions of `crypt/sha256.c`. -/
def sha256 (host : Host) : Algorithm (Regs UInt32) ℕ where
  toHashFunction := sha256With (fun bytes => host.swap 4 (fetched host.big bytes))
    (fun w => stored host.big 4 (host.swap 4 w))
  align := 4
  zero := 0
  add total64 len := (total64 + len) % 2 ^ 64
  addRest total64 bytes := (total64 + bytes) % 2 ^ 64
  storeLength := sha256StoreLength host

structure Total (ω : Type) where
  low : ω
  high : ω

def sha512Add (host : Host) (total : Total UInt64) (len : ℕ) : Total UInt64 :=
  if host.total128 then
    let total128 := total.low.toNat + 2 ^ 64 * total.high.toNat + len
    ⟨UInt64.ofNat total128, UInt64.ofNat (total128 / 2 ^ 64)⟩
  else
    let lolen := UInt64.ofNat len
    let low := total.low + lolen
    ⟨low, total.high + UInt64.ofNat (len >>> 31 >>> 31 >>> 2 + if low < lolen then 1 else 0)⟩

def sha512AddRest (host : Host) (total : Total UInt64) (bytes : ℕ) : Total UInt64 :=
  if host.total128 then sha512Add host total bytes
  else
    let low := total.low + UInt64.ofNat bytes
    ⟨low, if low < UInt64.ofNat bytes then total.high + 1 else total.high⟩

def sha512StoreLength (host : Host) (total : Total UInt64) (pos : ℕ) (buffer : List UInt8) :
    Run (List UInt8) := do
  let buffer' ← storeRange buffer ((pos + 8) / 8 * 8)
    (stored host.big 8 (host.swap 8 (total.low <<< 3).toNat))
  storeRange buffer' (pos / 8 * 8)
    (stored host.big 8 (host.swap 8 (total.high <<< 3 ||| total.low >>> 61).toNat))

/-- The functions of `crypt/sha512.c`. -/
def sha512 (host : Host) : Algorithm (Regs UInt64) (Total UInt64) where
  toHashFunction := sha512With (fun bytes => host.swap 8 (fetched host.big bytes))
    (fun w => stored host.big 8 (host.swap 8 w))
  align := 8
  zero := ⟨0, 0⟩
  add := sha512Add host
  addRest := sha512AddRest host
  storeLength := sha512StoreLength host

/-- The variables `A` to `D`, in the order in which the next operation takes them. -/
structure Md5Regs where
  a : UInt32
  b : UInt32
  c : UInt32
  d : UInt32
  deriving DecidableEq

/-- `FF`, `FG`, `FH` and `FI`. -/
def fF (b c d : UInt32) : UInt32 := d ^^^ (b &&& (c ^^^ d))
def fG (b c d : UInt32) : UInt32 := fF d b c
def fH (b c d : UInt32) : UInt32 := b ^^^ c ^^^ d
def fI (b c d : UInt32) : UInt32 := c ^^^ (b ||| ~~~d)

/-- `OP (f, a, b, c, d, k, s, T)`: the next operation changes what was `d`. -/
def md5Op (f : UInt32 → UInt32 → UInt32 → UInt32) (correctWords : List UInt32) (r : Md5Regs)
    (op : ℕ × UInt32 × UInt32) : Md5Regs :=
  let a := r.a + (f r.b r.c r.d + correctWords.getD op.1 0 + op.2.2)
  ⟨r.d, (a <<< op.2.1 ||| a >>> (32 - op.2.1)) + r.b, r.b, r.c⟩

def round1 : List (ℕ × UInt32 × UInt32) :=
  [(0, 7, 0xd76aa478), (1, 12, 0xe8c7b756), (2, 17, 0x242070db),
   (3, 22, 0xc1bdceee), (4, 7, 0xf57c0faf), (5, 12, 0x4787c62a),
   (6, 17, 0xa8304613), (7, 22, 0xfd469501), (8, 7, 0x698098d8),
   (9, 12, 0x8b44f7af), (10, 17, 0xffff5bb1), (11, 22, 0x895cd7be),
   (12, 7, 0x6b901122), (13, 12, 0xfd987193), (14, 17, 0xa679438e), (15, 22, 0x49b40821)]

def round2 : List (ℕ × UInt32 × UInt32) :=
  [(1, 5, 0xf61e2562), (6, 9, 0xc040b340), (11, 14, 0x265e5a51),
   (0, 20, 0xe9b6c7aa), (5, 5, 0xd62f105d), (10, 9, 0x02441453),
   (15, 14, 0xd8a1e681), (4, 20, 0xe7d3fbc8), (9, 5, 0x21e1cde6),
   (14, 9, 0xc33707d6), (3, 14, 0xf4d50d87), (8, 20, 0x455a14ed),
   (13, 5, 0xa9e3e905), (2, 9, 0xfcefa3f8), (7, 14, 0x676f02d9), (12, 20, 0x8d2a4c8a)]

def round3 : List (ℕ × UInt32 × UInt32) :=
  [(5, 4, 0xfffa3942), (8, 11, 0x8771f681), (11, 16, 0x6d9d6122),
   (14, 23, 0xfde5380c), (1, 4, 0xa4beea44), (4, 11, 0x4bdecfa9),
   (7, 16, 0xf6bb4b60), (10, 23, 0xbebfbc70), (13, 4, 0x289b7ec6),
   (0, 11, 0xeaa127fa), (3, 16, 0xd4ef3085), (6, 23, 0x04881d05),
   (9, 4, 0xd9d4d039), (12, 11, 0xe6db99e5), (15, 16, 0x1fa27cf8), (2, 23, 0xc4ac5665)]

def round4 : List (ℕ × UInt32 × UInt32) :=
  [(0, 6, 0xf4292244), (7, 10, 0x432aff97), (14, 15, 0xab9423a7),
   (5, 21, 0xfc93a039), (12, 6, 0x655b59c3), (3, 10, 0x8f0ccc92),
   (10, 15, 0xffeff47d), (1, 21, 0x85845dd1), (8, 6, 0x6fa87e4f),
   (15, 10, 0xfe2ce6e0), (6, 15, 0xa3014314), (13, 21, 0x4e0811a1),
   (4, 6, 0xf7537e82), (11, 10, 0xbd3af235), (2, 15, 0x2ad7d2bb), (9, 21, 0xeb86d391)]

def md5Block (r : Md5Regs) (correctWords : List UInt32) : Md5Regs :=
  let r₁ := round1.foldl (md5Op fF correctWords) r
  let r₂ := round2.foldl (md5Op fG correctWords) r₁
  let r₃ := round3.foldl (md5Op fH correctWords) r₂
  let r₄ := round4.foldl (md5Op fI correctWords) r₃
  ⟨r₄.a + r.a, r₄.b + r.b, r₄.c + r.c, r₄.d + r.d⟩

def md5With (read : List UInt8 → ℕ) (write : ℕ → List UInt8) : HashFunction Md5Regs where
  block := 64
  field := 8
  init := ⟨0x67452301, 0xefcdab89, 0x98badcfe, 0x10325476⟩
  compress r bytes := md5Block r ((words 4 read 16 bytes).map UInt32.ofNat)
  digest r := [r.a, r.b, r.c, r.d].flatMap fun w => write w.toNat

def md5Standard : HashFunction Md5Regs := md5With leNumber (leBytes 4)

/-- `SWAP` of MD5. -/
def Host.md5Swap (host : Host) (n : ℕ) : ℕ :=
  if host.big then
    n <<< 24 % 2 ^ 32 ||| (n &&& 0xff00) <<< 8 ||| (n >>> 8 &&& 0xff00) ||| n >>> 24
  else n

def md5Add (total : Total UInt32) (len : ℕ) : Total UInt32 :=
  let lolen := UInt32.ofNat len
  let low := total.low + lolen
  ⟨low, total.high + UInt32.ofNat (len >>> 31 >>> 1 + if low < lolen then 1 else 0)⟩

def md5AddRest (total : Total UInt32) (bytes : ℕ) : Total UInt32 :=
  let low := total.low + UInt32.ofNat bytes
  ⟨low, if low < UInt32.ofNat bytes then total.high + 1 else total.high⟩

def md5StoreLength (host : Host) (total : Total UInt32) (pos : ℕ) (buffer : List UInt8) :
    Run (List UInt8) := do
  let buffer' ← storeRange buffer (pos / 4 * 4)
    (stored host.big 4 (host.md5Swap (total.low <<< 3).toNat))
  storeRange buffer' ((pos + 4) / 4 * 4)
    (stored host.big 4 (host.md5Swap (total.high <<< 3 ||| total.low >>> 29).toNat))

/-- The functions of `crypt/md5.c`. -/
def md5 (host : Host) : Algorithm Md5Regs (Total UInt32) where
  toHashFunction := md5With (fun bytes => host.md5Swap (fetched host.big bytes))
    (fun w => stored host.big 4 (host.md5Swap w))
  align := 4
  zero := ⟨0, 0⟩
  add := md5Add
  addRest := md5AddRest
  storeLength := md5StoreLength host

section
variable {host : Host}

lemma stored_swap (n v : ℕ) : stored host.big n (host.swap n v) = beBytes n v := by
  unfold stored Host.swap
  cases host.big
  · exact leBytes_bswap n v
  · rfl

lemma swap_fetched (bytes : List UInt8) :
    host.swap bytes.length (fetched host.big bytes) = beNumber bytes := by
  unfold Host.swap fetched
  cases host.big
  · exact bswap_leNumber bytes
  · rfl

theorem words_congr {n : ℕ} {read read' : List UInt8 → ℕ}
    (h : ∀ bytes : List UInt8, bytes.length = n → read bytes = read' bytes) {k : ℕ}
    {bytes : List UInt8} (hlen : bytes.length = n * k) : words n read k bytes = words n read' k bytes := by
  induction k generalizing bytes with
  | zero => rfl
  | succ k ih =>
    rw [Nat.mul_succ] at hlen
    rw [words, words, h _ (by simp; omega), ih (by simp; omega)]

section
variable {read read' : List UInt8 → ℕ} {write write' : ℕ → List UInt8}

lemma sha256With_agrees (hread : ∀ bytes : List UInt8, bytes.length = 4 → read bytes = read' bytes)
    (hwrite : ∀ w, write w = write' w) :
    (sha256With read write).Agrees (sha256With read' write') where
  block := rfl
  field := rfl
  init := rfl
  compress {h x} hx := by
    simp only [sha256With, words_congr (k := 16) hread hx]
  digest := by
    rw [funext hwrite]
    rfl

lemma sha512With_agrees (hread : ∀ bytes : List UInt8, bytes.length = 8 → read bytes = read' bytes)
    (hwrite : ∀ w, write w = write' w) :
    (sha512With read write).Agrees (sha512With read' write') where
  block := rfl
  field := rfl
  init := rfl
  compress {h x} hx := by
    simp only [sha512With, words_congr (k := 16) hread hx]
  digest := by
    rw [funext hwrite]
    rfl

lemma md5With_agrees (hread : ∀ bytes : List UInt8, bytes.length = 4 → read bytes = read' bytes)
    (hwrite : ∀ w < 2 ^ 32, write w = write' w) :
    (md5With read write).Agrees (md5With read' write') where
  block := rfl
  field := rfl
  init := rfl
  compress {h x} hx := by
    simp only [md5With, words_congr (k := 16) hread hx]
  digest := by
    funext r
    simp only [md5With, hwrite _ (UInt32.toNat_lt _)]

end

lemma storeTwo (hu : u.length = n) (hv : v.length = n) (hy : y.length = n + n) :
    (storeRange (x ++ y ++ z) (x.length + n) v >>= fun buffer =>
      storeRange buffer x.length u) = .ok (x ++ (u ++ v) ++ z) ∧
    (storeRange (x ++ y ++ z) x.length u >>= fun buffer =>
      storeRange buffer (x.length + n) v) = .ok (x ++ (u ++ v) ++ z) := by
  obtain ⟨y1, y2, rfl, hy1⟩ := exists_split (show n ≤ y.length by omega)
  rw [List.length_append] at hy
  constructor
  · have hfirst : storeRange (x ++ (y1 ++ y2) ++ z) (x.length + n) v = .ok (x ++ y1 ++ v ++ z) := by
      rw [← List.append_assoc x]
      exact storeRange_eq (by simp [hy1]) (by omega)
    have hsecond : storeRange (x ++ y1 ++ v ++ z) x.length u = .ok (x ++ u ++ (v ++ z)) := by
      simpa using storeRange_eq rfl (by omega)
    rw [hfirst, ok_bind, hsecond]
    simp
  · have hfirst : storeRange (x ++ (y1 ++ y2) ++ z) x.length u = .ok (x ++ u ++ (y2 ++ z)) := by
      simpa using storeRange_eq rfl (by omega)
    have hsecond : storeRange (x ++ u ++ y2 ++ z) (x.length + n) v = .ok (x ++ u ++ v ++ z) :=
      storeRange_eq (by simp [hu]) (by omega)
    rw [hfirst, ok_bind, ← List.append_assoc (x ++ u), hsecond]
    simp

lemma highBits (hk : 3 ≤ k) (hlow : low < 2 ^ k) (hlt : high < 2 ^ (k - 3)) :
    high <<< 3 % 2 ^ k ||| low >>> (k - 3) = 8 * (low + 2 ^ k * high) / 2 ^ k := by
  obtain ⟨j, rfl⟩ : ∃ j, k = j + 3 := ⟨k - 3, by omega⟩
  have hpow : 2 ^ (j + 3) = 2 ^ j * 8 := Nat.pow_add 2 j 3
  have hpos := Nat.two_pow_pos j
  rw [Nat.add_sub_cancel] at hlt ⊢
  have hsmall : high * 2 ^ 3 < 2 ^ (j + 3) := by
    omega
  have hquot : low / 2 ^ j < 2 ^ 3 := by
    rw [Nat.div_lt_iff_lt_mul hpos, Nat.mul_comm]
    rwa [hpow] at hlow
  have hdiv : 8 * (low + 2 ^ (j + 3) * high) / 2 ^ (j + 3) = low / 2 ^ j + 8 * high := by
    rw [hpow, Nat.mul_comm (2 ^ j) 8, ← Nat.div_div_eq_div_mul, Nat.mul_div_cancel_left _ (by decide),
      Nat.mul_comm 8, Nat.mul_assoc, Nat.add_mul_div_left _ _ hpos]
  rw [Nat.shiftLeft_eq, Nat.mod_eq_of_lt hsmall, Nat.shiftRight_eq_div_pow, or_low hquot, hdiv]
  omega

lemma sha256_lawful (host : Host) : Lawful (sha256 host) id (beBytes 8) where
  field_lt := (by decide : 8 + 1 < 64)
  value_zero := rfl
  value_add _ _ := rfl
  value_addRest _ _ _ := rfl
  length_lengthBytes := length_beBytes 8
  stores {k x y z} hx hy hk := by
    have hx : (x.length + 8) % 64 = 0 := hx
    have hk : 8 * k < 2 ^ 64 := hk
    show sha256StoreLength host k x.length (x ++ y ++ z) = .ok (x ++ beBytes 8 (8 * k) ++ z)
    unfold sha256StoreLength
    split_ifs
    · rw [stored_swap, Nat.shiftLeft_eq, Nat.mod_eq_of_lt (by omega), Nat.mul_comm k,
        show x.length / 8 * 8 = x.length by omega]
      exact storeRange_eq rfl (by exact hy)
    have hlow : (k % 2 ^ 32) <<< 3 % 2 ^ 32 = 8 * k % 256 ^ 4 := by
      omega
    have hhigh := highBits (k := 32) (by decide) (Nat.mod_lt k (by decide))
      (show k / 2 ^ 32 < 2 ^ 29 by omega)
    rw [Nat.mod_add_div] at hhigh
    dsimp only
    rw [stored_swap, stored_swap, hlow, hhigh, beBytes_mod, show x.length / 4 * 4 = x.length by omega,
      show (x.length + 4) / 4 * 4 = x.length + 4 by omega,
      (storeTwo (length_beBytes 4 _) (length_beBytes 4 _) hy).1]
    exact congrArg (fun b => Except.ok (x ++ b ++ z)) (beBytes_append 4 (8 * k)).symm

def Total.value64 (total : Total UInt64) : ℕ := total.low.toNat + 2 ^ 64 * total.high.toNat

def Total.value32 (total : Total UInt32) : ℕ := total.low.toNat + 2 ^ 32 * total.high.toNat

theorem add_carry (hlow : low < 2 ^ w) : (low + n % 2 ^ w) % 2 ^ w + 2 ^ w * ((high + (n / 2 ^ w +
      if (low + n % 2 ^ w) % 2 ^ w < n % 2 ^ w then 1 else 0) % 2 ^ w) % 2 ^ w) =
      (low + 2 ^ w * high + n) % (2 ^ w * 2 ^ w) := by
  have hpos := Nat.two_pow_pos w
  generalize 2 ^ w = m at *
  have hr := Nat.mod_lt n hpos
  have hn := Nat.div_add_mod n m
  generalize n % m = r at *
  generalize n / m = q at *
  subst hn
  by_cases hwrap : low + r < m
  · rw [Nat.mod_eq_of_lt hwrap, if_neg (by omega), Nat.add_zero, Nat.add_mod_mod,
      show low + m * high + (m * q + r) = low + r + m * (high + q) by ring, Nat.mod_mul,
      Nat.add_mul_mod_self_left, Nat.mod_eq_of_lt hwrap, Nat.add_mul_div_left _ _ hpos,
      Nat.div_eq_of_lt hwrap, Nat.zero_add]
  have hsub : (low + r) % m = low + r - m := by
    rw [Nat.mod_eq_sub_mod (by omega), Nat.mod_eq_of_lt (by omega)]
  have hdiv : (low + r) / m = 1 := Nat.div_eq_of_lt_le (by omega) (by omega)
  rw [hsub, if_pos (by omega), Nat.add_mod_mod,
    show low + m * high + (m * q + r) = low + r + m * (high + q) by ring, Nat.mod_mul,
    Nat.add_mul_mod_self_left, hsub, Nat.add_mul_div_left _ _ hpos, hdiv,
    show 1 + (high + q) = high + (q + 1) by ring]

lemma sha512Add_value (host : Host) (total : Total UInt64) (n : ℕ) :
    (sha512Add host total n).value64 = (total.value64 + n) % 2 ^ 128 := by
  have hlow := total.low.toNat_lt
  unfold sha512Add Total.value64
  split_ifs
  · rw [UInt64.toNat_ofNat', UInt64.toNat_ofNat', show (2 : ℕ) ^ 128 = 2 ^ 64 * 2 ^ 64 from rfl,
      Nat.mod_mul]
  have hshift : n >>> 31 >>> 31 >>> 2 = n / 2 ^ 64 := by
    rw [← Nat.shiftRight_add, ← Nat.shiftRight_add, Nat.shiftRight_eq_div_pow]
  rw [UInt64.toNat_add, UInt64.toNat_add, UInt64.toNat_ofNat', UInt64.toNat_ofNat', hshift]
  exact add_carry hlow

lemma sha512AddRest_value (host : Host) (total : Total UInt64) (hn : n ≤ 256) :
    (sha512AddRest host total n).value64 = (total.value64 + n) % 2 ^ 128 := by
  have hlow := total.low.toNat_lt
  have hhigh := total.high.toNat_lt
  unfold sha512AddRest
  split_ifs
  · exact sha512Add_value host total n
  unfold Total.value64
  simp only [UInt64.lt_iff_toNat_lt]
  rw [UInt64.toNat_add, UInt64.toNat_ofNat']
  split_ifs
  · simp
    omega
  · omega

lemma md5Add_value (total : Total UInt32) (n : ℕ) :
    (md5Add total n).value32 = (total.value32 + n) % 2 ^ 64 := by
  have hlow := total.low.toNat_lt
  have hshift : n >>> 31 >>> 1 = n / 2 ^ 32 := by
    rw [← Nat.shiftRight_add, Nat.shiftRight_eq_div_pow]
  unfold md5Add Total.value32
  rw [UInt32.toNat_add, UInt32.toNat_add, UInt32.toNat_ofNat', UInt32.toNat_ofNat', hshift]
  exact add_carry hlow

lemma md5AddRest_value (total : Total UInt32) (hn : n ≤ 128) :
    (md5AddRest total n).value32 = (total.value32 + n) % 2 ^ 64 := by
  have hlow := total.low.toNat_lt
  have hhigh := total.high.toNat_lt
  unfold md5AddRest Total.value32
  simp only [UInt32.lt_iff_toNat_lt]
  rw [UInt32.toNat_add, UInt32.toNat_ofNat']
  split_ifs
  · simp
    omega
  · omega

lemma sha512_lawful (host : Host) : Lawful (sha512 host) Total.value64 (beBytes 16) where
  field_lt := (by decide : 16 + 1 < 128)
  value_zero := rfl
  value_add := sha512Add_value host
  value_addRest k _ hn := sha512AddRest_value host k hn
  length_lengthBytes := length_beBytes 16
  stores {k x y z} hx hy hk := by
    have hx : (x.length + 16) % 128 = 0 := hx
    have hk : 8 * k.value64 < 2 ^ 128 := hk
    have hlow := k.low.toNat_lt
    have hhigh : k.high.toNat < 2 ^ 61 := by
      unfold Total.value64 at hk
      omega
    have hbelow : (k.low <<< 3).toNat = 8 * k.value64 % 256 ^ 8 := by
      simp [Total.value64]
      omega
    have habove : (k.high <<< 3 ||| k.low >>> 61).toNat = 8 * k.value64 / 256 ^ 8 := by
      exact highBits (k := 64) (by decide) hlow hhigh
    show sha512StoreLength host k x.length (x ++ y ++ z) =
      .ok (x ++ beBytes 16 (8 * k.value64) ++ z)
    rw [sha512StoreLength, stored_swap, stored_swap, hbelow, habove, beBytes_mod,
      show x.length / 8 * 8 = x.length by omega,
      show (x.length + 8) / 8 * 8 = x.length + 8 by omega,
      (storeTwo (length_beBytes 8 _) (length_beBytes 8 _) hy).1]
    exact congrArg (fun b => Except.ok (x ++ b ++ z)) (beBytes_append 8 (8 * k.value64)).symm

lemma and_ff00 (n : ℕ) : n &&& 0xff00 = n / 2 ^ 8 % 2 ^ 8 * 2 ^ 8 := by
  have hmask : (0xff00 : ℕ) = (2 ^ 8 - 1) * 2 ^ 8 := rfl
  apply Nat.eq_of_testBit_eq
  intro i
  rw [hmask, Nat.testBit_and, Nat.testBit_mul_two_pow, Nat.testBit_mul_two_pow,
    Nat.testBit_two_pow_sub_one, Nat.testBit_mod_two_pow, Nat.testBit_div_two_pow]
  by_cases h : 8 ≤ i
  · simp [h, Nat.sub_add_cancel h]
    rw [Bool.and_comm]
  · simp [h]

lemma md5Swap_eq (hn : n < 2 ^ 32) : host.md5Swap n = if host.big then bswap 4 n else n := by
  unfold Host.md5Swap
  split_ifs
  · have htop : n <<< 24 % 2 ^ 32 = n % 2 ^ 8 * 2 ^ 24 := by
      omega
    have hhigh : (n &&& 0xff00) <<< 8 = n / 2 ^ 8 % 2 ^ 8 * 2 ^ 16 := by
      rw [and_ff00, Nat.shiftLeft_eq, Nat.mul_assoc, ← Nat.pow_add]
    have hmid : n >>> 8 &&& 0xff00 = n / 2 ^ 16 % 2 ^ 8 * 2 ^ 8 := by
      rw [and_ff00, Nat.shiftRight_eq_div_pow, Nat.div_div_eq_div_mul, ← Nat.pow_add]
    have hlow : n >>> 24 = n / 2 ^ 24 := Nat.shiftRight_eq_div_pow n 24
    have hfirst : n % 2 ^ 8 * 2 ^ 24 + n / 2 ^ 8 % 2 ^ 8 * 2 ^ 16 =
        (n % 2 ^ 8 * 2 ^ 8 + n / 2 ^ 8 % 2 ^ 8) * 2 ^ 16 := by
      ring
    have hsecond : (n % 2 ^ 8 * 2 ^ 8 + n / 2 ^ 8 % 2 ^ 8) * 2 ^ 16 + n / 2 ^ 16 % 2 ^ 8 * 2 ^ 8 =
        (n % 2 ^ 8 * 2 ^ 16 + n / 2 ^ 8 % 2 ^ 8 * 2 ^ 8 + n / 2 ^ 16 % 2 ^ 8) * 2 ^ 8 := by
      ring
    have hbytes : bswap 4 n = (n % 2 ^ 8 * 2 ^ 16 + n / 2 ^ 8 % 2 ^ 8 * 2 ^ 8 +
        n / 2 ^ 16 % 2 ^ 8) * 2 ^ 8 + n / 2 ^ 24 := by
      simp only [bswap, beBytes, leBytes, List.reverse_cons, List.reverse_nil, List.nil_append,
        List.cons_append, leNumber, UInt8.toNat_ofNat', Nat.div_div_eq_div_mul]
      norm_num
      omega
    rw [htop, hhigh, hmid, hlow, or_low (by omega : n / 2 ^ 8 % 2 ^ 8 * 2 ^ 16 < 2 ^ 24), hfirst,
      or_low (by omega : n / 2 ^ 16 % 2 ^ 8 * 2 ^ 8 < 2 ^ 16), hsecond,
      or_low (by omega : n / 2 ^ 24 < 2 ^ 8), hbytes]
  · rfl

lemma stored_md5Swap {v : ℕ} (hv : v < 2 ^ 32) :
    stored host.big 4 (host.md5Swap v) = leBytes 4 v := by
  rw [md5Swap_eq hv]
  cases host.big
  · rfl
  · exact beBytes_bswap 4 v

lemma leNumber_lt (bytes : List UInt8) : leNumber bytes < 256 ^ bytes.length := by
  rw [← leBytes_leNumber bytes, leNumber_leBytes, length_leBytes]
  exact Nat.mod_lt _ (Nat.pow_pos (by decide))

lemma md5Swap_fetched {bytes : List UInt8} (hlen : bytes.length = 4) :
    host.md5Swap (fetched host.big bytes) = leNumber bytes := by
  have hbig : beNumber bytes < 2 ^ 32 := by
    have h := leNumber_lt bytes.reverse
    rwa [List.length_reverse, hlen] at h
  have hlittle : leNumber bytes < 2 ^ 32 := by
    have h := leNumber_lt bytes
    rwa [hlen] at h
  unfold fetched
  cases hhost : host.big
  · simp [md5Swap_eq hlittle, hhost]
  · rw [if_pos rfl, md5Swap_eq hbig, hhost, if_pos rfl, beNumber, ← hlen, ← List.length_reverse,
      bswap_leNumber, beNumber, List.reverse_reverse]

lemma md5_lawful (host : Host) : Lawful (md5 host) Total.value32 (leBytes 8) where
  field_lt := (by decide : 8 + 1 < 64)
  value_zero := rfl
  value_add := md5Add_value
  value_addRest k _ hn := md5AddRest_value k hn
  length_lengthBytes := length_leBytes 8
  stores {k x y z} hx hy hk := by
    have hx : (x.length + 8) % 64 = 0 := hx
    have hk : 8 * k.value32 < 2 ^ 64 := hk
    have hlow := k.low.toNat_lt
    have hhigh : k.high.toNat < 2 ^ 29 := by
      unfold Total.value32 at hk
      omega
    have hbelow : (k.low <<< 3).toNat = 8 * k.value32 % 256 ^ 4 := by
      simp [Total.value32]
      omega
    have habove : (k.high <<< 3 ||| k.low >>> 29).toNat = 8 * k.value32 / 256 ^ 4 := by
      exact highBits (k := 32) (by decide) hlow hhigh
    show md5StoreLength host k x.length (x ++ y ++ z) = .ok (x ++ leBytes 8 (8 * k.value32) ++ z)
    rw [md5StoreLength, stored_md5Swap (UInt32.toNat_lt _), stored_md5Swap (UInt32.toNat_lt _), hbelow, habove,
      leBytes_mod, show x.length / 4 * 4 = x.length by omega,
      show (x.length + 4) / 4 * 4 = x.length + 4 by omega,
      (storeTwo (length_leBytes 4 _) (length_leBytes 4 _) hy).2]
    exact congrArg (fun b => Except.ok (x ++ b ++ z)) (leBytes_append 4 4 (8 * k.value32)).symm

end

theorem hashPieces_standard {σ κ : Type} {a : Algorithm σ κ} {std : HashFunction σ}
    {value : κ → ℕ} {lengthBytes : ℕ → List UInt8} (law : Lawful a value lengthBytes)
    (hagrees : a.Agrees std) (direct : Bool) {junk : List UInt8}
    (hjunk : junk.length = 2 * a.block) (pieces : List Piece)
    (hcount : 8 * (pieces.flatMap Piece.bytes).length < 2 ^ (8 * a.field)) :
    hashPieces a direct junk pieces =
      .ok (std.standardDigest lengthBytes (pieces.flatMap Piece.bytes)) := by
  rw [hashPieces_eq law direct hjunk pieces hcount, hagrees.standardDigest]
  apply HashFunction.padded_mod
  · rw [← hagrees.field, ← hagrees.block]
    exact law.field_lt
  · intro n
    rw [law.length_lengthBytes, hagrees.field]

/-- The digest does not depend on how the message is cut, where its pieces lie, what the
buffer held before and what host the code runs on: it is that of the padded message. -/
theorem digests_standard (host : Host) (pieces : List Piece) :
    (∀ junk : List UInt8, junk.length = 128 →
      8 * (pieces.flatMap Piece.bytes).length < 2 ^ 64 →
      hashPieces (sha256 host) host.direct junk pieces =
        .ok (sha256Standard.standardDigest (beBytes 8) (pieces.flatMap Piece.bytes))) ∧
    (∀ junk : List UInt8, junk.length = 256 →
      8 * (pieces.flatMap Piece.bytes).length < 2 ^ 128 →
      hashPieces (sha512 host) host.direct junk pieces =
        .ok (sha512Standard.standardDigest (beBytes 16) (pieces.flatMap Piece.bytes))) ∧
    ∀ junk : List UInt8, junk.length = 128 →
      8 * (pieces.flatMap Piece.bytes).length < 2 ^ 64 →
      hashPieces (md5 host) host.direct junk pieces =
        .ok (md5Standard.standardDigest (leBytes 8) (pieces.flatMap Piece.bytes)) := by
  have hsha (n : ℕ) (bytes : List UInt8) (hlen : bytes.length = n) :
      host.swap n (fetched host.big bytes) = beNumber bytes := by
    rw [← hlen]
    exact swap_fetched bytes
  refine ⟨fun junk hjunk hcount => ?_, fun junk hjunk hcount => ?_, fun junk hjunk hcount => ?_⟩
  · exact hashPieces_standard (sha256_lawful host)
      (sha256With_agrees (hsha 4) (stored_swap 4)) host.direct hjunk pieces hcount
  · exact hashPieces_standard (sha512_lawful host)
      (sha512With_agrees (hsha 8) (stored_swap 8)) host.direct hjunk pieces hcount
  · exact hashPieces_standard (md5_lawful host)
      (md5With_agrees (fun _ => md5Swap_fetched) fun _ => stored_md5Swap) host.direct hjunk pieces
      hcount

/-- The message "abc" in two pieces, the first one at an odd address. -/
theorem digests_standard_abc :
    hashPieces (sha256 ⟨false, false, true⟩) false (List.replicate 128 0) [⟨1, [0x61, 0x62]⟩, ⟨4, [0x63]⟩] =
      .ok (sha256Standard.standardDigest (beBytes 8) [0x61, 0x62, 0x63]) :=
  (digests_standard ⟨false, false, true⟩ [⟨1, [0x61, 0x62]⟩, ⟨4, [0x63]⟩]).1 (List.replicate 128 0)
    List.length_replicate (by decide)

-- a test vector of `crypt/sha256test.c`
example : sha256Standard.standardDigest (beBytes 8) [0x61, 0x62, 0x63] =
    [0xba, 0x78, 0x16, 0xbf, 0x8f, 0x01, 0xcf, 0xea, 0x41, 0x41, 0x40, 0xde, 0x5d, 0xae, 0x22, 0x23,
      0xb0, 0x03, 0x61, 0xa3, 0x96, 0x17, 0x7a, 0x9c, 0xb4, 0x10, 0xff, 0x61, 0xf2, 0x00, 0x15,
      0xad] := by
  decide +kernel

end Eglibc.Digests
