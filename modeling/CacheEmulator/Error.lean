import Mathlib.Tactic.Common

/-!
The error codes and the early exits of `error.h`. The debug messages that the
macros print before they return are left out.
-/
namespace CacheEmulator.Error

inductive error_code
  | ERR_NONE
  | ERR_MEM
  | ERR_IO
  | ERR_BAD_PARAMETER
  | ERR_EOF
  | ERR_ADDR
  | ERR_SIZE
  | ERR_POLICY
  | ERR_LAST
  deriving DecidableEq, Repr

open error_code ( ERR_IO)

/-- A code as the integer the functions return. -/
def error_code.value : error_code → Nat
  | .ERR_NONE => 0
  | .ERR_MEM => 1
  | ERR_IO => 2
  | .ERR_BAD_PARAMETER => 3
  | .ERR_EOF => 4
  | .ERR_ADDR => 5
  | .ERR_SIZE => 6
  | .ERR_POLICY => 7
  | .ERR_LAST => 8

variable {α : Type}

/-- The enclosing function returns `exit` unless the test holds. -/
def M_REQUIRE (test : Prop) [Decidable test] (exit rest : α) : α :=
  if test then rest else exit

/-- The macro pastes its argument into the `return` of the failing branch, so a
    call given to it runs, and its value is returned, only when `errno` is set. -/
def M_REQUIRE_NO_ERRNO (errno : Int) (exit rest : α) : α :=
  M_REQUIRE (errno = 0) exit rest

@[simp] theorem require_holds {test : Prop} [Decidable test] (holds : test) (exit rest : α) :
    M_REQUIRE test exit rest = rest := if_pos holds
@[simp] theorem require_fails {test : Prop} [Decidable test] (fails : ¬ test) (exit rest : α) :
    M_REQUIRE test exit rest = exit := if_neg fails
/-- A result other than that of the early exit comes from the rest of the function. -/
theorem require_passed {test : Prop} [Decidable test] {exit rest result : α}
    (returned : M_REQUIRE test exit rest = result) (other : ¬ test → exit ≠ result) : test ∧ rest = result := by
  by_cases holds : test
  · rw [require_holds holds] at returned
    exact ⟨holds,returned⟩
  · rw [require_fails holds] at returned
    exact absurd returned (other holds)

@[simp] theorem no_errno_clear (exit rest : α) : M_REQUIRE_NO_ERRNO 0 exit rest = rest := rfl
theorem no_errno_set {errno : Int} (set : errno ≠ 0) (exit rest : α) :
    M_REQUIRE_NO_ERRNO errno exit rest = exit := if_neg set

end CacheEmulator.Error
