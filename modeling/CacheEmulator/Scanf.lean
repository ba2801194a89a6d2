import CacheEmulator.Numeral

/-!
The conversions of `fscanf` for numbers and words. A conversion that fails has
no result, whether it met the end of the file or a character it cannot use: the
callers treat both alike and read no further.
-/
namespace CacheEmulator.Scanf
open CacheEmulator.Stdio CacheEmulator.Numeral

/-- The stream after a conversion that looked at the first byte of the rest. At
    the end of the file the look sets the indicator. -/
def left (rest : List byte) : FILE := if rest = [] then .ended else .reading rest

/-- The value of a digit, in either case. -/
def digit_value (c : byte) : Option Nat :=
  if 97 ≤ c.toNat ∧ c.toNat ≤ 102 then some (c.toNat - 87) else hex_digit c

def is_digit (base : Nat) (c : byte) : Bool :=
  match digit_value c with
  | some d => d < base
  | none => false

/-- Drops a sign. -/
def after_sign (text : List byte) : List byte :=
  if text.head? = some (chr '-') ∨ text.head? = some (chr '+') then text.tail else text

/-- Drops the mark of a hexadecimal number. -/
def after_base (base : Nat) (text : List byte) : List byte :=
  if base = 16 ∧ text.head? = some (chr '0') ∧
      (text.tail.head? = some (chr 'x') ∨ text.tail.head? = some (chr 'X')) then text.tail.tail else text

/-- Blanks, a sign and digits, in base 16 after an optional `0x`: whether the
    number is negated, its value and what is left. A `0x` without a digit behind it
    fails to match, as in the C standard; some libraries take its 0 for the number. -/
def scan_number (base : Nat) (text : List byte) : Option (Bool × Nat × List byte) :=
  let text := text.dropWhile isspace
  let digits := after_base base (after_sign text)
  let word := digits.takeWhile (is_digit base)
  if word = [] then none
  else some (text.head? = some (chr '-'),value base (word.map (fun c => (digit_value c).getD 0)),
    digits.dropWhile (is_digit base))

/-- The value of an unsigned conversion: the largest one for a number too large. -/
def strtoul (negated : Bool) (n : Nat) : BitVec 64 :=
  if 2 ^ 64 ≤ n then BitVec.allOnes 64 else if negated then -BitVec.ofNat 64 n else BitVec.ofNat 64 n

/-- The value of a signed conversion: the nearest one for a number too large. -/
def strtol (negated : Bool) (n : Nat) : BitVec 64 :=
  if negated then if 2 ^ 63 < n then BitVec.intMin 64 else -BitVec.ofNat 64 n
  else if 2 ^ 63 ≤ n then BitVec.intMax 64 else BitVec.ofNat 64 n

/-- The conversions `%zu`, `%lx` and `%x`; the last keeps the low half. -/
def fscanf_unsigned (base : Nat) (stream : FILE) : Option (BitVec 64 × FILE) :=
  (scan_number base stream.rest).map (fun scanned => (strtoul scanned.1 scanned.2.1,left scanned.2.2))

/-- The conversion `%d`. -/
def fscanf_int (stream : FILE) : Option (BitVec 32 × FILE) :=
  (scan_number 10 stream.rest).map (fun scanned => ((strtol scanned.1 scanned.2.1).setWidth 32,left scanned.2.2))

/-- The conversion `%s`. -/
def fscanf_string (stream : FILE) : Option (List byte × FILE) :=
  let text := stream.rest.dropWhile isspace
  if text = [] then none
  else some (text.takeWhile (fun c => !isspace c),left (text.dropWhile (fun c => !isspace c)))

/-! ### What a conversion consumes -/

@[simp] theorem left_rest (rest : List byte) : (left rest).rest = rest := by
  unfold left
  split_ifs with nothing
  · rw [nothing]
    rfl
  · rfl

theorem dropWhile_length (test : byte → Bool) (text : List byte) : (text.dropWhile test).length ≤ text.length :=
  (List.dropWhile_sublist test).length_le

theorem after_sign_length (text : List byte) : (after_sign text).length ≤ text.length := by
  unfold after_sign
  split_ifs
  · rw [List.length_tail]
    exact Nat.sub_le _ _
  · exact le_rfl

theorem after_base_length (base : Nat) (text : List byte) : (after_base base text).length ≤ text.length := by
  unfold after_base
  split_ifs
  · rw [List.length_tail,List.length_tail]
    omega
  · exact le_rfl

theorem scan_number_consumes {base n : Nat} {negated : Bool} {text rest : List byte}
    (scanned : scan_number base text = some (negated,n,rest)) : rest.length < text.length := by
  unfold scan_number at scanned
  simp only at scanned
  split_ifs at scanned with no_digit
  cases scanned
  have shorter : (after_base base (after_sign (text.dropWhile isspace))).length ≤ text.length :=
    (after_base_length _ _).trans ((after_sign_length _).trans (dropWhile_length isspace text))
  generalize after_base base (after_sign (text.dropWhile isspace)) = digits at *
  have parts := congrArg List.length (List.takeWhile_append_dropWhile (p := is_digit base) (l := digits))
  rw [List.length_append] at parts
  have some_digit := List.length_pos_iff.mpr no_digit
  omega

theorem fscanf_unsigned_consumes {base : Nat} {stream after : FILE} {value : BitVec 64}
    (read : fscanf_unsigned base stream = some (value,after)) : after.rest.length < stream.rest.length := by
  obtain ⟨⟨negated,n,rest⟩,scanned,same⟩ := Option.map_eq_some_iff.mp read
  obtain ⟨_,rfl⟩ := Prod.mk.inj same
  rw [left_rest]
  exact scan_number_consumes scanned

theorem fscanf_string_consumes {stream after : FILE} {word : List byte}
    (read : fscanf_string stream = some (word,after)) : after.rest.length ≤ stream.rest.length := by
  unfold fscanf_string at read
  simp only at read
  split_ifs at read
  cases read
  rw [left_rest]
  exact (dropWhile_length _ _).trans (dropWhile_length isspace stream.rest)

end CacheEmulator.Scanf
