import Mathlib.Algebra.Order.Ring.Int

/-!
Fixed-width integers of the C code. A value of a machine type is a natural
number or an integer in the range of the type, and each arithmetic step that
can leave the range names the conversion that brings it back.
-/
namespace Aesd

def uint16 (x : ℤ) : ℕ := (x % 2 ^ 16).toNat

def uint32 (x : ℤ) : ℕ := (x % 2 ^ 32).toNat

def sizeT (x : ℤ) : ℕ := (x % 2 ^ 64).toNat

/-- `loff_t`, `ssize_t` and `long`: 64-bit two's complement. -/
def loffT (x : ℤ) : ℤ := (x + 2 ^ 63) % 2 ^ 64 - 2 ^ 63

/-- `int`: 32-bit two's complement. -/
def int32 (x : ℤ) : ℤ := (x + 2 ^ 31) % 2 ^ 32 - 2 ^ 31

theorem uint32_of_lt (n : ℕ) (h : n < 2 ^ 32) : uint32 n = n := by
  unfold uint32
  omega

theorem uint32_lt (x : ℤ) : uint32 x < 2 ^ 32 := by
  unfold uint32
  omega

theorem sizeT_of_lt (n : ℕ) (h : n < 2 ^ 64) : sizeT n = n := by
  unfold sizeT
  omega

theorem sizeT_of_range (x : ℤ) (h : 0 ≤ x) (h' : x < 2 ^ 63) : sizeT x = x.toNat := by
  unfold sizeT
  omega

theorem int32_of_range (x : ℤ) (h : -2 ^ 31 ≤ x) (h' : x < 2 ^ 31) : int32 x = x := by
  unfold int32
  omega

theorem loffT_of_range (x : ℤ) (h : -2 ^ 63 ≤ x) (h' : x < 2 ^ 63) : loffT x = x := by
  unfold loffT
  omega

end Aesd
