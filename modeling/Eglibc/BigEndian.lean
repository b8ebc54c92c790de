import Mathlib

/-!
# Integers in network byte order

Two's complement conversions between integer types, and the four bytes of a
32-bit word in network order.
-/
namespace Eglibc.BigEndian

/-- Conversion to a signed integer type of `w` bits. -/
def signed (w : ℕ) (z : ℤ) : ℤ := z.bmod (2 ^ w)

/-- Conversion to an unsigned integer type of `w` bits. -/
def unsigned (w : ℕ) (z : ℤ) : ℤ := z % 2 ^ w

def bytes32 (z : ℤ) : List UInt8 :=
  let n := (unsigned 32 z).toNat
  [UInt8.ofNat (n / 2 ^ 24), UInt8.ofNat (n / 2 ^ 16), UInt8.ofNat (n / 2 ^ 8), UInt8.ofNat n]

def number (bs : List UInt8) : ℕ := bs.foldl (fun n b => n * 256 + b.toNat) 0

@[simp] lemma length_bytes32 (z : ℤ) : (bytes32 z).length = 4 := rfl

@[simp] lemma bytes32_ne_nil (z : ℤ) : bytes32 z ≠ [] := by
  simp [bytes32]

lemma number_bytes32 (z : ℤ) : (number (bytes32 z) : ℤ) = unsigned 32 z := by
  simp only [number, bytes32, unsigned, List.foldl_cons, List.foldl_nil, UInt8.toNat_ofNat']
  omega

lemma signed_number_bytes32 (z : ℤ) : signed 32 (number (bytes32 z)) = signed 32 z := by
  rw [number_bytes32]
  exact Int.emod_bmod z (2 ^ 32)

section
variable {z : ℤ}

lemma signed_eq {w : ℕ} (h : -2 ^ w ≤ z) (h' : z < 2 ^ w) : signed (w + 1) z = z := by
  unfold signed
  refine Int.bmod_eq_of_le ?_ ?_
  · push_cast
    rw [pow_succ]
    omega
  · push_cast
    rw [pow_succ]
    omega

lemma unsigned_eq {w : ℕ} (h : 0 ≤ z) (h' : z < 2 ^ w) : unsigned w z = z :=
  Int.emod_eq_of_lt h h'

lemma unsigned_signed {w v : ℕ} (h : w ≤ v) : unsigned w (signed v z) = unsigned w z := by
  unfold unsigned signed
  have hdvd : ((2 : ℤ) ^ w) ∣ ((2 ^ v : ℕ) : ℤ) := by
    push_cast
    exact pow_dvd_pow 2 h
  rw [← Int.emod_emod_of_dvd (z.bmod _) hdvd, Int.bmod_emod, Int.emod_emod_of_dvd z hdvd]

end

end Eglibc.BigEndian
