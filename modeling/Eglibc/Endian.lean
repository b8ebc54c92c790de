import Mathlib.Data.Nat.Bitwise
import Mathlib.Tactic.Ring

/-!
# Words in memory

The bytes of a number in little-endian and big-endian order, and the words of a host of
either byte order.
-/
namespace Eglibc.Endian

/-- The lowest `n` bytes of a number, the lowest one first. -/
def leBytes : ℕ → ℕ → List UInt8
  | 0, _ => []
  | n + 1, v => UInt8.ofNat v :: leBytes n (v / 256)

/-- The lowest `n` bytes of a number, the highest one first. -/
def beBytes (n v : ℕ) : List UInt8 := (leBytes n v).reverse

def leNumber : List UInt8 → ℕ
  | [] => 0
  | b :: bs => b.toNat + 256 * leNumber bs

def beNumber (bs : List UInt8) : ℕ := leNumber bs.reverse

/-- The bytes in which a host stores a word, and the word it reads from bytes. -/
def stored (big : Bool) (n v : ℕ) : List UInt8 := if big then beBytes n v else leBytes n v

def fetched (big : Bool) (bs : List UInt8) : ℕ := if big then beNumber bs else leNumber bs

def bswap (n v : ℕ) : ℕ := leNumber (beBytes n v)

lemma or_low {a b k : ℕ} (h : b < 2 ^ k) : a * 2 ^ k ||| b = a * 2 ^ k + b := by
  rw [← Nat.shiftLeft_eq, Nat.shiftLeft_add_eq_or_of_lt h]

lemma length_leBytes (n v : ℕ) : (leBytes n v).length = n := by
  induction n generalizing v with
  | zero => rfl
  | succ n ih => rw [leBytes, List.length_cons, ih]

lemma length_beBytes (n v : ℕ) : (beBytes n v).length = n := by
  simp [beBytes, length_leBytes]

lemma leBytes_leNumber (bs : List UInt8) : leBytes bs.length (leNumber bs) = bs := by
  induction bs with
  | nil => rfl
  | cons b bs ih =>
    have hlt := b.toNat_lt
    have hdiv : (b.toNat + 256 * leNumber bs) / 256 = leNumber bs := by omega
    have hbyte : UInt8.ofNat (b.toNat + 256 * leNumber bs) = b := by
      apply UInt8.toNat_inj.mp
      simp
    simp [leNumber, leBytes, hdiv, hbyte, ih]

lemma leNumber_leBytes (n v : ℕ) : leNumber (leBytes n v) = v % 256 ^ n := by
  induction n generalizing v with
  | zero => rw [leBytes, leNumber, Nat.pow_zero, Nat.mod_one]
  | succ n ih =>
    have hpow : 256 ^ (n + 1) = 256 * 256 ^ n := Nat.pow_succ'
    rw [leBytes, leNumber, ih, UInt8.toNat_ofNat', hpow, Nat.mod_mul]

lemma leBytes_mod (n v : ℕ) : leBytes n (v % 256 ^ n) = leBytes n v := by
  rw [← leNumber_leBytes]
  nth_rewrite 1 [← length_leBytes n v]
  exact leBytes_leNumber _

lemma leBytes_append (m n v : ℕ) : leBytes (m + n) v = leBytes m v ++ leBytes n (v / 256 ^ m) := by
  induction m generalizing v with
  | zero => rw [Nat.zero_add, Nat.pow_zero, Nat.div_one]; rfl
  | succ m ih =>
    rw [Nat.succ_add, leBytes, leBytes, ih, Nat.div_div_eq_div_mul, ← Nat.pow_succ',
      List.cons_append]

lemma leBytes_bswap (n v : ℕ) : leBytes n (bswap n v) = beBytes n v := by
  have h := leBytes_leNumber (beBytes n v)
  rwa [length_beBytes] at h

lemma beBytes_bswap (n v : ℕ) : beBytes n (bswap n v) = leBytes n v := by
  simp [beBytes, leBytes_bswap]

lemma bswap_leNumber (bs : List UInt8) : bswap bs.length (leNumber bs) = beNumber bs := by
  rw [bswap, beBytes, leBytes_leNumber, beNumber]

lemma length_stored (big : Bool) (n v : ℕ) : (stored big n v).length = n := by
  cases big
  · exact length_leBytes n v
  · exact length_beBytes n v

lemma beBytes_append (n v : ℕ) : beBytes (n + n) v = beBytes n (v / 256 ^ n) ++ beBytes n v := by
  simp [beBytes, leBytes_append]

lemma beBytes_mod (n v : ℕ) : beBytes n (v % 256 ^ n) = beBytes n v := by
  rw [beBytes, leBytes_mod, beBytes]

end Eglibc.Endian
