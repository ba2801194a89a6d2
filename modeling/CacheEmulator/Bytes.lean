import CacheEmulator.Bits

/-!
The bytes of a word, counted from the lowest: how they go through the bitwise
operations, and what a shift and a mask make of them.
-/
namespace CacheEmulator.Bytes
variable {size : Nat} {i : Nat}

/-- A byte of a word; past the end of the word it is zero. -/
def byte (word : BitVec size) (i : Nat) : BitVec 8 := word.extractLsb' (8 * i) 8

@[simp] theorem byte_and (x y : BitVec size) : byte (x &&& y) i = byte x i &&& byte y i := BitVec.extractLsb'_and
@[simp] theorem byte_or (x y : BitVec size) : byte (x ||| y) i = byte x i ||| byte y i := BitVec.extractLsb'_or

theorem byte_number (word : BitVec size) (i : Nat) : (byte word i).toNat = word.toNat / 2 ^ (8 * i) % 2 ^ 8 := by
  rw [byte,BitVec.extractLsb'_toNat,Nat.shiftRight_eq_div_pow]

/-- A shift by whole bytes and the mask of the lowest one take a byte out. -/
theorem byte_shift_mask (word : BitVec size) (i : Nat) (wide : 8 ≤ size) :
    ((word >>> (8 * i)) &&& BitVec.ofNat size 255).setWidth 8 = byte word i := by
  have masked := Bits.toNat_and_mask (word >>> (8 * i)) wide
  apply BitVec.eq_of_toNat_eq
  rw [BitVec.toNat_setWidth,byte_number]
  rw [BitVec.toNat_ushiftRight,Nat.shiftRight_eq_div_pow] at masked
  rw [show BitVec.ofNat size 255 = BitVec.ofNat size (2 ^ 8 - 1) from rfl,masked,Nat.mod_mod]

/-- A byte moved to a place is there, and the other bytes are zero. -/
theorem byte_placed (b : BitVec 8) {s : Nat} (inside : 8 * s + 8 ≤ size) :
    byte (b.setWidth size <<< (8 * s)) i = if i = s then b else 0 := by
  apply BitVec.eq_of_getLsbD_eq
  intro j small
  rw [byte,BitVec.getLsbD_extractLsb',BitVec.getLsbD_shiftLeft,BitVec.getLsbD_setWidth]
  rcases Nat.lt_trichotomy i s with below | rfl | above
  · have before : 8 * i + j < 8 * s := by omega
    simp [before,below.ne]
  · have there : 8 * i + j < size := by omega
    have here : j < size := by omega
    simp [small,there,here]
  · have past : ¬ 8 * i + j < 8 * s := by omega
    have none : b.getLsbD (8 * i + j - 8 * s) = false := BitVec.getLsbD_of_ge _ _ (by omega)
    simp [past,none,above.ne']

/-- A byte put into a word whose mask clears its place. -/
theorem byte_merge (x mask : BitVec size) (b : BitVec 8) {s : Nat} (inside : 8 * s + 8 ≤ size) (cleared : byte mask s = 0) :
    byte ((x &&& mask) ||| (b.setWidth size <<< (8 * s))) i = if i = s then b else byte x i &&& byte mask i := by
  rw [byte_or,byte_and,byte_placed b inside]
  by_cases here : i = s
  · simp [here,cleared]
  · simp [here]

end CacheEmulator.Bytes
