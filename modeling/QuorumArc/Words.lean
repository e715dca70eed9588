-- Checked arithmetic on machine words: an operation that would leave the word
-- gives `none`, and every other one agrees with the natural numbers.
import Mathlib.Data.UInt
import Mathlib.Order.Defs.PartialOrder

namespace words

instance u64_preorder : Preorder UInt64 where
  le_refl := UInt64.le_refl
  le_trans _ _ _ := UInt64.le_trans
  lt_iff_le_not_ge a b := by
    rw [UInt64.lt_iff_toNat_lt, UInt64.le_iff_toNat_le, UInt64.le_iff_toNat_le]
    omega

/-- `u64::MAX`. -/
def u64_max : UInt64 := 18446744073709551615

/-- `u64::checked_add`. -/
def u64_checked_add (a b : UInt64) : Option UInt64 :=
  if a.toNat + b.toNat < UInt64.size then some (a + b) else none

/-- `u64::checked_sub`. -/
def u64_checked_sub (a b : UInt64) : Option UInt64 :=
  if b ≤ a then some (a - b) else none

/-- `u8::checked_add`. -/
def u8_checked_add (a b : UInt8) : Option UInt8 :=
  if a.toNat + b.toNat < UInt8.size then some (a + b) else none

theorem u64_checked_add_eq_some {a b c : UInt64} :
    u64_checked_add a b = some c ↔ a.toNat + b.toNat = c.toNat := by
  have hc := c.toNat_lt_size
  unfold u64_checked_add
  split
  next hlt =>
    rw [Option.some_inj, ← UInt64.toNat_inj, UInt64.toNat_add, Nat.mod_eq_of_lt hlt]
  · simp only [reduceCtorEq, false_iff]
    omega

theorem u64_checked_sub_eq_some {a b c : UInt64} :
    u64_checked_sub a b = some c ↔ a.toNat = b.toNat + c.toNat := by
  unfold u64_checked_sub
  split
  next hle =>
    have hn := UInt64.le_iff_toNat_le.mp hle
    rw [Option.some_inj, ← UInt64.toNat_inj, UInt64.toNat_sub_of_le _ _ hle]
    omega
  next hle =>
    rw [UInt64.le_iff_toNat_le] at hle
    simp only [reduceCtorEq, false_iff]
    omega

theorem u8_checked_add_eq_some {a b c : UInt8} :
    u8_checked_add a b = some c ↔ a.toNat + b.toNat = c.toNat := by
  have hc := c.toNat_lt_size
  unfold u8_checked_add
  split
  next hlt =>
    rw [Option.some_inj, ← UInt8.toNat_inj, UInt8.toNat_add, Nat.mod_eq_of_lt hlt]
  · simp only [reduceCtorEq, false_iff]
    omega

theorem u64_le_max_left (a b : UInt64) : a ≤ max a b := by
  show a ≤ if a ≤ b then b else a
  split
  next h => exact h
  next => exact UInt64.le_refl a

theorem u64_le_max_right (a b : UInt64) : b ≤ max a b := by
  show b ≤ if a ≤ b then b else a
  split
  next => exact UInt64.le_refl b
  next h => exact UInt64.le_of_lt (UInt64.not_le.mp h)

end words
