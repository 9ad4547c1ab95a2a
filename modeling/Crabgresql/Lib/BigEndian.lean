import Mathlib

/-!
# Fixed-width big-endian numbers

The `w` bytes of a number, most significant first, and the number a byte string
spells. Reading back what was written gives the number modulo `256 ^ w`.
-/

namespace BigEndian

def bytes : ℕ → ℕ → List UInt8
  | 0, _ => []
  | w + 1, n => UInt8.ofNat (n / 256 ^ w) :: bytes w n

def value : List UInt8 → ℕ
  | [] => 0
  | b :: bs => b.toNat * 256 ^ bs.length + value bs

@[simp] theorem length_bytes (w n : ℕ) : (bytes w n).length = w := by
  induction w with
  | zero => rfl
  | succ w ih => simp [bytes, ih]

theorem value_lt (bs : List UInt8) : value bs < 256 ^ bs.length := by
  induction bs with
  | nil => simp [value]
  | cons b bs ih =>
    have hb : b.toNat ≤ 255 := Nat.le_of_lt_succ b.toNat_lt
    have hmul : b.toNat * 256 ^ bs.length ≤ 255 * 256 ^ bs.length := Nat.mul_le_mul_right _ hb
    rw [value, List.length_cons, pow_succ]
    omega

theorem value_bytes (w n : ℕ) : value (bytes w n) = n % 256 ^ w := by
  induction w with
  | zero => simp [bytes, value, Nat.mod_one]
  | succ w ih =>
    have hbyte : (UInt8.ofNat (n / 256 ^ w)).toNat = n / 256 ^ w % 256 := by
      simp [UInt8.toNat_ofNat']
    rw [bytes, value, length_bytes, ih, hbyte, pow_succ, Nat.mod_mul, Nat.add_comm, Nat.mul_comm]

theorem value_bytes_of_lt {w n : ℕ} (h : n < 256 ^ w) : value (bytes w n) = n := by
  rw [value_bytes, Nat.mod_eq_of_lt h]

end BigEndian
