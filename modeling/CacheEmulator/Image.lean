import Mathlib.Tactic.Common

/-!
Contents of memory without bounds: what overlays leave at each address, and the
little-endian words in them.
-/
namespace CacheEmulator.Image

/-- A byte at every address. -/
abbrev Contents := Nat → BitVec 8

/-- Contents with bytes put in from an address on. -/
def overlay (image : Contents) (start : Nat) (bytes : List (BitVec 8)) : Contents := fun a =>
  if start ≤ a ∧ a < start + bytes.length then bytes.getD (a - start) 0 else image a

/-- The word at a word index, lowest byte first. -/
def word (image : Contents) (index : Nat) : BitVec 32 :=
  image (4 * index + 3) ++ image (4 * index + 2) ++ image (4 * index + 1) ++ image (4 * index)

theorem overlay_inside (image : Contents) (start : Nat) {bytes : List (BitVec 8)} {i : Nat} (inside : i < bytes.length) :
    overlay image start bytes (start + i) = bytes[i] := by
  have within : start ≤ start + i ∧ start + i < start + bytes.length := by omega
  rw [overlay,if_pos within,Nat.add_sub_cancel_left]
  simp [inside]

theorem overlay_outside (image : Contents) {start a : Nat} {bytes : List (BitVec 8)}
    (outside : a < start ∨ start + bytes.length ≤ a) : overlay image start bytes a = image a := by
  have without : ¬ (start ≤ a ∧ a < start + bytes.length) := by omega
  rw [overlay,if_neg without]

@[simp] theorem overlay_nil (image : Contents) (start : Nat) : overlay image start [] = image := by
  funext a
  apply overlay_outside
  rw [List.length_nil]
  omega

/-- A word depends on its four bytes alone. -/
theorem word_congr {left right : Contents} {index : Nat} (same : ∀ a, a / 4 = index → left a = right a) :
    word left index = word right index := by
  rw [word,word,same (4 * index + 3) (by omega),same (4 * index + 2) (by omega),same (4 * index + 1) (by omega),
    same (4 * index) (by omega)]

end CacheEmulator.Image
