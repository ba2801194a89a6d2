import Mathlib.Data.Nat.Bitwise
import Mathlib.Tactic.Common

/-!
Bit fields as arithmetic: a field placed above the width of another is a sum,
and a low mask is a remainder. The packed words of the program become linear
arithmetic through these rules.
-/
namespace CacheEmulator.Bits

/-- A value placed above a narrower one does not overlap it. -/
theorem mul_or_add {low width : Nat} (high : Nat) (narrow : low < 2 ^ width) :
    high * 2 ^ width ||| low = high * 2 ^ width + low := by
  rw [← Nat.shiftLeft_eq,Nat.shiftLeft_add_eq_or_of_lt narrow]

/-- Two packed fields of a word, as long as the word holds both. -/
theorem toNat_shift_or {size : Nat} (high low : BitVec size) {width : Nat} (narrow : low.toNat < 2 ^ width)
    (fits : high.toNat * 2 ^ width < 2 ^ size) :
    (high <<< width ||| low).toNat = high.toNat * 2 ^ width + low.toNat := by
  rw [BitVec.toNat_or,BitVec.toNat_shiftLeft,Nat.shiftLeft_eq,Nat.mod_eq_of_lt fits]
  exact mul_or_add _ narrow

/-- Masking the low bits keeps a remainder. -/
theorem toNat_and_mask {size : Nat} (value : BitVec size) {width : Nat} (inside : width ≤ size) :
    (value &&& BitVec.ofNat size (2 ^ width - 1)).toNat = value.toNat % 2 ^ width := by
  have mask : 2 ^ width - 1 < 2 ^ size := by
    have := Nat.pow_le_pow_right (n := 2) (by omega) inside
    have := Nat.two_pow_pos width
    omega
  rw [BitVec.toNat_and,BitVec.toNat_ofNat,Nat.mod_eq_of_lt mask,Nat.and_two_pow_sub_one_eq_mod]

/-- Widening a field keeps its value. -/
theorem toNat_widen {narrow wide : Nat} (field : BitVec narrow) (le : narrow ≤ wide) :
    (field.setWidth wide).toNat = field.toNat := by
  rw [BitVec.toNat_setWidth]
  exact Nat.mod_eq_of_lt (Nat.lt_of_lt_of_le field.isLt (Nat.pow_le_pow_right (by omega) le))

theorem toNat_add_one {size : Nat} {low : BitVec size} (room : low.toNat + 1 < 2 ^ size) :
    (low + 1).toNat = low.toNat + 1 := by
  rw [BitVec.ofNat_eq_ofNat,BitVec.toNat_add,BitVec.toNat_ofNat,Nat.add_mod_mod,Nat.mod_eq_of_lt room]

/-- A field below another one has room for one more. -/
theorem toNat_succ {size : Nat} {low high : BitVec size} (less : low < high) : (low + 1).toNat = low.toNat + 1 :=
  toNat_add_one (Nat.lt_of_le_of_lt (BitVec.lt_def.mp less) high.isLt)

end CacheEmulator.Bits
