import Mathlib.Data.Nat.Digits.Lemmas

/-!
# Numbers in memory

A number of a fixed size as bytes, the lowest byte first, and back.
-/
namespace LittleEndian

/-- The lowest `size` bytes of a number. -/
def bytes : Nat → Nat → List UInt8
  | 0, _ => []
  | size + 1, n => UInt8.ofNat (n % 256) :: bytes size (n / 256)

/-- The number that some bytes stand for. -/
def value (l : List UInt8) : Nat := Nat.ofDigits 256 (l.map UInt8.toNat)

@[simp] theorem length_bytes (size n : Nat) : (bytes size n).length = size := by
  induction size generalizing n with
  | zero => rfl
  | succ size ih => rw [bytes, List.length_cons, ih]

@[simp] theorem value_nil : value [] = 0 := rfl

@[simp] theorem value_cons (x : UInt8) (l : List UInt8) :
    value (x :: l) = x.toNat + 256 * value l := by
  simp [value, Nat.ofDigits_cons]

theorem value_bytes (size n : Nat) : value (bytes size n) = n % 256 ^ size := by
  induction size generalizing n with
  | zero => simp [bytes, Nat.mod_one]
  | succ size ih =>
    have hlow : (UInt8.ofNat (n % 256)).toNat = n % 256 := by
      rw [UInt8.toNat_ofNat']
      omega
    rw [bytes, value_cons, ih, hlow, pow_succ', Nat.mod_mul]

/-- A number that fits is read back. -/
theorem value_bytes_of_lt {size n : Nat} (h : n < 256 ^ size) : value (bytes size n) = n := by
  rw [value_bytes, Nat.mod_eq_of_lt h]

theorem value_lt (l : List UInt8) : value l < 256 ^ l.length := by
  induction l with
  | nil => simp
  | cons x l ih =>
    have hx := x.toNat_lt
    rw [value_cons, List.length_cons, pow_succ]
    omega

/-- The bytes that were read are written. -/
theorem bytes_value (l : List UInt8) : bytes l.length (value l) = l := by
  induction l with
  | nil => rfl
  | cons x l ih =>
    have hx := x.toNat_lt
    have hlow : (x.toNat + 256 * value l) % 256 = x.toNat := by omega
    have hhigh : (x.toNat + 256 * value l) / 256 = value l := by omega
    rw [List.length_cons, value_cons, bytes, hlow, hhigh, UInt8.ofNat_toNat, ih]

end LittleEndian
