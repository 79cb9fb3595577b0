import Mathlib.Tactic.Ring

/-! # Little-endian numbers

`encode w n` is the number `n` in `w` bytes, the lowest first, and `decode` reads it back: exactly
if it fits (`decode_encode_of_lt`). -/

namespace SshPass.Lib.LittleEndian

/-- The lowest `w` bytes of `n`. -/
def encode : ℕ → ℕ → List UInt8
  | 0, _ => []
  | w + 1, n => UInt8.ofNat n :: encode w (n / 256)

/-- The number with the bytes `bs`. -/
def decode : List UInt8 → ℕ
  | [] => 0
  | b :: bs => b.toNat + 256 * decode bs

@[simp] theorem length_encode (w n : ℕ) : (encode w n).length = w := by
  induction w generalizing n with
  | zero => rfl
  | succ w ih => rw [encode, List.length_cons, ih]

theorem decode_encode (w n : ℕ) : decode (encode w n) = n % 256 ^ w := by
  induction w generalizing n with
  | zero => exact (Nat.mod_one n).symm
  | succ w ih =>
    have hlow : (UInt8.ofNat n).toNat = n % 256 := UInt8.toNat_ofNat'
    calc decode (encode (w + 1) n) = n % 256 + 256 * (n / 256 % 256 ^ w) := by
          rw [encode, decode, hlow, ih]
      _ = n % (256 * 256 ^ w) := Nat.mod_mul.symm
      _ = n % 256 ^ (w + 1) := by rw [Nat.pow_succ']

theorem decode_encode_of_lt {w n : ℕ} (h : n < 256 ^ w) : decode (encode w n) = n := by
  rw [decode_encode, Nat.mod_eq_of_lt h]

end SshPass.Lib.LittleEndian
