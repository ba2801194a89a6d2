import CacheEmulator.Bits
import CacheEmulator.Printing
import CacheEmulator.Stdio

/-!
Positional numerals over bytes: the value of a digit string, the hexadecimal
form that a `printf` conversion writes, and the shift-and-or loop that reads a
numeral back into a machine word.
-/
namespace CacheEmulator.Numeral
open CacheEmulator.Bits CacheEmulator.Stdio CacheEmulator.Printing

/-- The value of a digit string, most significant digit first. -/
def value (base : Nat) (digits : List Nat) : Nat :=
  digits.foldl (fun n d => base * n + d) 0

/-- The value of an upper-case hexadecimal digit. -/
def hex_digit (c : byte) : Option Nat :=
  if 48 ≤ c.toNat ∧ c.toNat ≤ 57 then some (c.toNat - 48)
  else if 65 ≤ c.toNat ∧ c.toNat ≤ 70 then some (c.toNat - 55) else none

def hex_char (d : Nat) : byte := BitVec.ofNat 8 (if d < 10 then 48 + d else 55 + d)

/-- A word of upper-case hexadecimal digits for a number. -/
def Hexadecimal (word : List byte) (n : Nat) : Prop :=
  ∃ digits, word.map hex_digit = digits.map some ∧ value 16 digits = n

/-- The conversion `%0<width>X`. -/
def print_hex (width n : Nat) : List byte :=
  ((Nat.digits 16 n).reverse.leftpad width 0).map hex_char

/-! ### Values -/

theorem value_append_one (base : Nat) (digits : List Nat) (d : Nat) :
    value base (digits ++ [d]) = base * value base digits + d := by
  simp [value]

theorem value_reverse (base : Nat) (digits : List Nat) : value base digits.reverse = Nat.ofDigits base digits := by
  induction digits with
  | nil => rfl
  | cons d digits ih =>
    rw [List.reverse_cons,value_append_one,ih,Nat.ofDigits_cons]
    simp [Nat.add_comm]

/-- Leading zeros do not count. -/
theorem value_leftpad (base width : Nat) (digits : List Nat) :
    value base (digits.leftpad width 0) = value base digits := by
  have zeros : ∀ count : Nat, value base (List.replicate count 0) = 0 := by
    intro count
    induction count with
    | zero => rfl
    | succ count ih => rw [List.replicate_succ',value_append_one,ih]; rfl
  have padded := zeros (width - digits.length)
  unfold value at padded
  rw [List.leftpad,value,List.foldl_append,padded]
  rfl

/-! ### Digits -/

theorem hex_digit_lt {c : byte} {d : Nat} (digit : hex_digit c = some d) : d < 16 := by
  unfold hex_digit at digit
  split at digit
  · cases digit; omega
  · split at digit
    · cases digit; omega
    · cases digit

theorem digits_lt {word : List byte} {digits : List Nat} (all : word.map hex_digit = digits.map some) :
    ∀ d ∈ digits, d < 16 := by
  intro d member
  have mapped : some d ∈ word.map hex_digit := all ▸ List.mem_map_of_mem member
  obtain ⟨c,_,digit⟩ := List.mem_map.mp mapped
  exact hex_digit_lt digit

theorem hex_digit_char {d : Nat} (small : d < 16) : hex_digit (hex_char d) = some d := by
  interval_cases d <;> rfl

/-! ### Printing and reading -/

/-- A printed number reads as itself. -/
theorem print_hex_correct (width n : Nat) : Hexadecimal (print_hex width n) n := by
  refine ⟨(Nat.digits 16 n).reverse.leftpad width 0,?_,?_⟩
  · rw [print_hex,List.map_map]
    apply List.map_congr_left
    intro d member
    apply hex_digit_char
    rw [List.leftpad,List.mem_append,List.mem_replicate,List.mem_reverse] at member
    rcases member with ⟨_,rfl⟩ | member
    · decide
    · exact Nat.digits_lt_base (by decide) member
  · rw [value_leftpad,value_reverse,Nat.ofDigits_digits]

/-- Every byte of the word is a digit. -/
theorem hexadecimal_digit {word : List byte} {n : Nat} (hex : Hexadecimal word n) {c : byte} (member : c ∈ word) :
    ∃ d, hex_digit c = some d := by
  obtain ⟨digits,all,_⟩ := hex
  have mapped : hex_digit c ∈ digits.map some := all ▸ List.mem_map_of_mem member
  obtain ⟨d,_,digit⟩ := List.mem_map.mp mapped
  exact ⟨d,digit.symm⟩

theorem print_hex_length {width limit n : Nat} (le : width ≤ limit) (fits : n < 16 ^ limit) :
    width ≤ (print_hex width n).length ∧ (print_hex width n).length ≤ limit := by
  have short := (Nat.digits_length_le_iff (k := limit) (by decide : 1 < 16) n).mpr fits
  rw [print_hex,List.length_map,List.leftpad,List.length_append,List.length_replicate,List.length_reverse]
  omega

/-- One turn of a reading loop, on a word of any width. -/
theorem toNat_shift_or_digit {size d : Nat} (w : BitVec size) (small : d < 16) :
    (w <<< 4 ||| BitVec.ofNat size d).toNat = (16 * w.toNat + d) % 2 ^ size := by
  have four : d < 2 ^ 4 := small
  rw [BitVec.toNat_or,BitVec.toNat_shiftLeft,BitVec.toNat_ofNat,← Nat.or_mod_two_pow,Nat.shiftLeft_eq,
    mul_or_add _ four,Nat.mul_comm]
  rfl

/-- The loop as a whole reads the value modulo the size of the word. -/
theorem toNat_read_digits {size : Nat} {digits : List Nat} (small : ∀ d ∈ digits, d < 16) :
    (digits.foldl (fun (w : BitVec size) d => w <<< 4 ||| BitVec.ofNat size d) 0).toNat = value 16 digits % 2 ^ size := by
  induction digits using List.reverseRecOn with
  | nil => simp [value]
  | append_singleton digits d ih =>
    have before := ih (fun e member => small e (List.mem_append_left [d] member))
    rw [List.foldl_append,List.foldl_cons,List.foldl_nil,toNat_shift_or_digit _ (small d (by simp)),before,
      value_append_one]
    exact Nat.ModEq.add_right d ((Nat.mod_modEq _ _).mul_left 16)

/-! ### The conversions of `printf` -/

def hex_char_lower (d : Nat) : byte := BitVec.ofNat 8 (if d < 10 then 48 + d else 87 + d)
def decimal_char (d : Nat) : byte := BitVec.ofNat 8 (48 + d)

/-- The conversion `%0<width>x`. -/
def print_hex_lower (width n : Nat) : List byte := numeral hex_char_lower 16 width n
/-- The conversion `%u`. -/
def print_decimal (n : Nat) : List byte := numeral decimal_char 10 1 n

theorem hex_char_distinct : Distinct hex_char 16 := by
  unfold Distinct
  decide
theorem hex_char_lower_distinct : Distinct hex_char_lower 16 := by
  unfold Distinct
  decide
theorem decimal_char_distinct : Distinct decimal_char 10 := by
  unfold Distinct
  decide

section
variable {α : Type} {alike : α → α → Prop} {print : α → List byte} {stop : byte}

/-- A number in decimal, in front of a text that does not go on with a digit. -/
theorem decimal_after (noDigit : ∀ d < 10, decimal_char d ≠ stop) (number : α → Nat)
    (behind : Tells (fun _ _ => True) print alike) (starts : ∀ a, ∃ rest, print a = stop :: rest) :
    Tells (fun _ _ => True) (fun a => print_decimal (number a) ++ print a)
      (fun a b => number a = number b ∧ alike a b) :=
  (behind.weaken (fun _ _ _ => trivial)).after_numeral (by decide) decimal_char_distinct noDigit number 1 starts
theorem hex_after {size : Nat} (noDigit : ∀ d < 16, hex_char d ≠ stop) (number : α → BitVec size) (width : Nat)
    (behind : Tells (fun _ _ => True) print alike) (starts : ∀ a, ∃ rest, print a = stop :: rest) :
    Tells (fun _ _ => True) (fun a => print_hex width (number a).toNat ++ print a)
      (fun a b => number a = number b ∧ alike a b) := by
  simp only [← BitVec.toNat_inj]
  exact (behind.weaken (fun _ _ _ => trivial)).after_numeral (by decide) hex_char_distinct noDigit
    (fun a => (number a).toNat) width starts
theorem hex_lower_after {size : Nat} (noDigit : ∀ d < 16, hex_char_lower d ≠ stop) (number : α → BitVec size) (width : Nat)
    (behind : Tells (fun _ _ => True) print alike) (starts : ∀ a, ∃ rest, print a = stop :: rest) :
    Tells (fun _ _ => True) (fun a => print_hex_lower width (number a).toNat ++ print a)
      (fun a b => number a = number b ∧ alike a b) := by
  simp only [← BitVec.toNat_inj]
  exact (behind.weaken (fun _ _ _ => trivial)).after_numeral (by decide) hex_char_lower_distinct noDigit
    (fun a => (number a).toNat) width starts

end

section
variable {α : Type} {known : α → α → Prop} (stop : byte) (after : List byte)

/-- A bit vector is told by its hexadecimal digits with another character behind them. -/
theorem tells_hex {size : Nat} (noDigit : ∀ d < 16, hex_char d ≠ stop) (number : α → BitVec size) (width : Nat) :
    Tells known (fun a => print_hex width (number a).toNat ++ stop :: after) (fun a b => number a = number b) :=
  (tells_numeral (by decide) hex_char_distinct noDigit (fun a => (number a).toNat) width after).congr
    (fun _ _ _ => BitVec.toNat_inj)
theorem tells_hex_lower {size : Nat} (noDigit : ∀ d < 16, hex_char_lower d ≠ stop) (number : α → BitVec size)
    (width : Nat) :
    Tells known (fun a => print_hex_lower width (number a).toNat ++ stop :: after) (fun a b => number a = number b) :=
  (tells_numeral (by decide) hex_char_lower_distinct noDigit (fun a => (number a).toNat) width after).congr
    (fun _ _ _ => BitVec.toNat_inj)

end

end CacheEmulator.Numeral
