import CacheEmulator.ProgramBuild

/-!
Programs over an allocator that may refuse: `commands.c` with the tests of
`M_EXIT_IF_NULL` that `Commands` leaves out. Where no request is refused the
functions are those of `Commands`; a refused one loses the block.
-/
namespace CacheEmulator.ProgramAlloc
open CacheEmulator.Error CacheEmulator.Addr
open CacheEmulator.Commands ( command_t zero_command INIT_ALLOCATED sizeof_word)
open CacheEmulator.ProgramBuild ( Acceptable)
open CacheEmulator.Machine (run)

/-- What becomes of the requests of one call: whether the request of a number is
    met with so many commands, and what new memory holds. -/
structure allocator where
  meets : Nat → Nat → Bool
  unset : Nat → command_t

/-- `listing` points to a block of commands, or is NULL. -/
structure program_t where
  listing : Option (List command_t)
  nb_lines : Nat
  allocated : Nat

variable {α β : Type}

/-- The enclosing function returns `exit` when the pointer is NULL. -/
def M_EXIT_IF_NULL (var : Option α) (exit rest : β) : β := M_REQUIRE var.isSome exit rest

def calloc (alloc : allocator) (request size : Nat) : Option (List command_t) :=
  if alloc.meets request size then some (List.replicate size zero_command) else none

/-- The block that a pointer points to is given up only for a new one. -/
def realloc (alloc : allocator) (request : Nat) (listing : Option (List command_t)) (size : Nat) :
    Option (List command_t) :=
  if alloc.meets request size then some (Commands.realloc alloc.unset (listing.getD []) size) else none

def program_init (alloc : allocator) : error_code × program_t :=
  let program : program_t := { nb_lines := 0, allocated := INIT_ALLOCATED, listing := calloc alloc 0 INIT_ALLOCATED }
  M_EXIT_IF_NULL program.listing (.ERR_MEM,program) (.ERR_NONE,program)

/-- The growth loop of `program_add_command` from a request on, for at most the
    given number of turns. -/
def grow (alloc : allocator) : Nat → Nat → program_t → Option (error_code × program_t)
  | 0, _, program => if program.nb_lines ≥ program.allocated then none else some (.ERR_NONE,program)
  | turns + 1, request, program =>
    if program.nb_lines ≥ program.allocated then
      let program := { program with allocated := program.allocated * 2 }
      let program := { program with listing := realloc alloc request program.listing program.allocated }
      M_EXIT_IF_NULL program.listing (some (.ERR_MEM,program)) (grow alloc turns (request + 1) program)
    else some (.ERR_NONE,program)

def program_add_command (alloc : allocator) (program : program_t) (command : command_t) :
    Option (error_code × program_t) :=
  M_EXIT_IF_NULL program.listing (some (.ERR_MEM,program)) <|
  M_REQUIRE (command.data_size = sizeof_word ∨ command.data_size = 1) (some (.ERR_BAD_PARAMETER,program)) <|
  M_REQUIRE (¬ (command.type = .INSTRUCTION ∧ command.data_size ≠ sizeof_word)) (some (.ERR_BAD_PARAMETER,program)) <|
  M_REQUIRE (¬ (command.order = .WRITE ∧ command.type = .INSTRUCTION)) (some (.ERR_BAD_PARAMETER,program)) <|
  M_REQUIRE (command.vaddr.page_offset.toNat % 8 = 0 ∨ command.vaddr.page_offset.toNat % 8 * sizeof_word = 0)
    (some (.ERR_BAD_PARAMETER,program)) <| do
  let (code,program) ← grow alloc program.nb_lines 0 program
  if code ≠ .ERR_NONE then some (code,program) else
  let listing ← program.listing
  if program.nb_lines < listing.length then
    some (.ERR_NONE,
      { program with
        listing := some (listing.set program.nb_lines command)
        nb_lines := program.nb_lines + 1 })
  else none

def program_shrink (alloc : allocator) (program : program_t) : error_code × program_t :=
  M_EXIT_IF_NULL program.listing (.ERR_MEM,program) <|
  if ¬ program.nb_lines ≤ 10 then
    let program := { program with allocated := program.nb_lines }
    let program := { program with listing := realloc alloc 0 program.listing program.allocated }
    M_EXIT_IF_NULL program.listing (.ERR_MEM,program) (.ERR_NONE,program)
  else (.ERR_NONE,program)

@[simp] theorem exit_if_null_some (a : α) (exit rest : β) : M_EXIT_IF_NULL (some a) exit rest = rest := rfl
@[simp] theorem exit_if_null_none (exit rest : β) : M_EXIT_IF_NULL (none : Option α) exit rest = exit := rfl

/-! ### What a call can do -/

/-- A program with a block has the room that it counts. -/
structure Holds (program : program_t) : Prop where
  some_room : 0 < program.allocated
  within : program.nb_lines ≤ program.allocated
  block : ∀ listing, program.listing = some listing → listing.length = program.allocated

/-- The ways of adding a command, each with what it answers and leaves. -/
inductive Added (alloc : allocator) (program : program_t) (command : command_t) : error_code → program_t → Prop
  | missing (null : program.listing = none) : Added alloc program command .ERR_MEM program
  | refused (unacceptable : ¬ Acceptable command) : Added alloc program command .ERR_BAD_PARAMETER program
  | stored {listing : List command_t} (block : program.listing = some listing) (room : program.nb_lines < program.allocated) :
      Added alloc program command .ERR_NONE
        { program with listing := some (listing.set program.nb_lines command), nb_lines := program.nb_lines + 1 }
  | grown {listing : List command_t} (block : program.listing = some listing) (full : program.nb_lines = program.allocated)
      (met : alloc.meets 0 (program.allocated * 2)) :
      Added alloc program command .ERR_NONE
        { listing := some ((Commands.realloc alloc.unset listing (program.allocated * 2)).set program.nb_lines command)
          nb_lines := program.nb_lines + 1
          allocated := program.allocated * 2 }
  | lost {listing : List command_t} (block : program.listing = some listing) (acceptable : Acceptable command)
      (full : program.nb_lines = program.allocated) (unmet : alloc.meets 0 (program.allocated * 2) = false) :
      Added alloc program command .ERR_MEM { program with listing := none, allocated := program.allocated * 2 }

theorem add_acceptable (alloc : allocator) {program : program_t} {command : command_t} {listing : List command_t}
    (block : program.listing = some listing) (acceptable : Acceptable command) :
    program_add_command alloc program command = (do
      let (code,program) ← grow alloc program.nb_lines 0 program
      if code ≠ .ERR_NONE then some (code,program) else
      let listing ← program.listing
      if program.nb_lines < listing.length then
        some (.ERR_NONE,
          { program with
            listing := some (listing.set program.nb_lines command)
            nb_lines := program.nb_lines + 1 })
      else none) := by
  obtain ⟨size,instruction,write,aligned⟩ := acceptable
  rw [program_add_command,block,exit_if_null_some,require_holds size,require_holds instruction,require_holds write,
    require_holds (.inl aligned)]

theorem add_refused (alloc : allocator) {program : program_t} {command : command_t} {listing : List command_t}
    (block : program.listing = some listing) (unacceptable : ¬ Acceptable command) :
    program_add_command alloc program command = some (.ERR_BAD_PARAMETER,program) := by
  rw [program_add_command,block,exit_if_null_some]
  by_cases size : command.data_size = sizeof_word ∨ command.data_size = 1
  · by_cases instruction : ¬ (command.type = .INSTRUCTION ∧ command.data_size ≠ sizeof_word)
    · by_cases write : ¬ (command.order = .WRITE ∧ command.type = .INSTRUCTION)
      · have misaligned : ¬ (command.vaddr.page_offset.toNat % 8 = 0 ∨
            command.vaddr.page_offset.toNat % 8 * sizeof_word = 0) := by
          rw [ProgramBuild.aligned_iff]
          exact fun aligned => unacceptable ⟨size,instruction,write,aligned⟩
        rw [require_holds size,require_holds instruction,require_holds write,require_fails misaligned]
      · rw [require_holds size,require_holds instruction,require_fails write]
    · rw [require_holds size,require_fails instruction]
  · rw [require_fails size]

/-- A program with room leaves the loop at once; a full one asks for twice its room, once. -/
theorem grow_room (alloc : allocator) (turns request : Nat) {program : program_t}
    (room : program.nb_lines < program.allocated) : grow alloc turns request program = some (.ERR_NONE,program) := by
  cases turns with
  | zero => exact if_neg (by omega)
  | succ turns => exact if_neg (by omega)

theorem grow_full (alloc : allocator) {turns : Nat} (some_turn : 0 < turns) {program : program_t}
    {listing : List command_t} (block : program.listing = some listing) (some_room : 0 < program.allocated)
    (full : program.nb_lines = program.allocated) :
    grow alloc turns 0 program =
      if alloc.meets 0 (program.allocated * 2) then some (.ERR_NONE,
        { program with
          allocated := program.allocated * 2
          listing := some (Commands.realloc alloc.unset listing (program.allocated * 2)) })
      else some (.ERR_MEM,{ program with allocated := program.allocated * 2, listing := none }) := by
  obtain ⟨fewer,rfl⟩ : ∃ fewer, turns = fewer + 1 := ⟨turns - 1,by omega⟩
  have no_room : program.nb_lines ≥ program.allocated := by omega
  rw [grow,if_pos no_room]
  simp only [realloc,block,Option.getD_some]
  split_ifs
  · rw [exit_if_null_some]
    exact grow_room alloc _ _ (Nat.lt_of_le_of_lt full.le (by simp only; omega))
  · rw [exit_if_null_none]

/-- Every call of `program_add_command` goes one of the ways. -/
theorem add_total (alloc : allocator) {program : program_t} (holds : Holds program) (command : command_t) :
    ∃ code after, program_add_command alloc program command = some (code,after) ∧
      Added alloc program command code after := by
  cases block : program.listing with
  | none => exact ⟨_,_,by rw [program_add_command,block,exit_if_null_none],.missing block⟩
  | some listing =>
    have length := holds.block listing block
    by_cases acceptable : Acceptable command
    · rw [add_acceptable alloc block acceptable]
      rcases Nat.lt_or_ge program.nb_lines program.allocated with room | no_room
      · have inside : program.nb_lines < listing.length := by omega
        refine ⟨_,_,?_,.stored block room⟩
        rw [grow_room alloc _ _ room]
        simp [block,inside]
      · have full : program.nb_lines = program.allocated := Nat.le_antisymm holds.within no_room
        have some_turn : 0 < program.nb_lines := by
          rw [full]
          exact holds.some_room
        rw [grow_full alloc some_turn block holds.some_room full]
        by_cases met : alloc.meets 0 (program.allocated * 2) = true
        · have inside : program.nb_lines < (Commands.realloc alloc.unset listing (program.allocated * 2)).length := by
            rw [ProgramBuild.realloc_length]
            have := holds.some_room
            omega
          refine ⟨_,_,?_,.grown block full met⟩
          rw [if_pos met]
          simp [inside]
        · refine ⟨_,_,?_,.lost block acceptable full (by simpa using met)⟩
          rw [if_neg met]
          simp
    · exact ⟨_,_,add_refused alloc block acceptable,.refused acceptable⟩

/-- The ways of shrinking a program. -/
inductive Shrunk (alloc : allocator) (program : program_t) : error_code → program_t → Prop
  | missing (null : program.listing = none) : Shrunk alloc program .ERR_MEM program
  | few (lines : program.nb_lines ≤ 10) : Shrunk alloc program .ERR_NONE program
  | shrunk {listing : List command_t} (block : program.listing = some listing) (many : 10 < program.nb_lines)
      (met : alloc.meets 0 program.nb_lines) :
      Shrunk alloc program .ERR_NONE
        { program with
          allocated := program.nb_lines
          listing := some (Commands.realloc alloc.unset listing program.nb_lines) }
  | lost {listing : List command_t} (block : program.listing = some listing) (many : 10 < program.nb_lines)
      (unmet : alloc.meets 0 program.nb_lines = false) :
      Shrunk alloc program .ERR_MEM { program with allocated := program.nb_lines, listing := none }

theorem shrink_total (alloc : allocator) (program : program_t) :
    Shrunk alloc program (program_shrink alloc program).1 (program_shrink alloc program).2 := by
  unfold program_shrink
  cases block : program.listing with
  | none =>
    rw [exit_if_null_none]
    exact .missing block
  | some listing =>
    rw [exit_if_null_some]
    by_cases few : program.nb_lines ≤ 10
    · rw [if_neg (not_not_intro few)]
      exact .few few
    · rw [if_pos few]
      simp only [realloc,Option.getD_some]
      split_ifs with met
      · exact .shrunk block (by omega) met
      · exact .lost block (by omega) (by simpa using met)

/-! ### Where every request is met -/

/-- A program with its block. -/
def with_block (program : Commands.program_t) : program_t := ⟨some program.listing,program.nb_lines,program.allocated⟩

section met
variable {alloc : allocator} (met : ∀ request size, alloc.meets request size = true)

include met

theorem init_met : program_init alloc = (Commands.program_init.1,with_block Commands.program_init.2) := by
  simp only [program_init,calloc,met,↓reduceIte]
  rfl

theorem grow_met : ∀ (turns request : Nat) (program : Commands.program_t),
    grow alloc turns request (with_block program) =
      (Commands.grow alloc.unset turns program).map (fun grown => (.ERR_NONE,with_block grown)) := by
  intro turns
  induction turns with
  | zero =>
    intro request program
    by_cases full : program.nb_lines ≥ program.allocated
    · have full' : (with_block program).nb_lines ≥ (with_block program).allocated := full
      rw [grow,Commands.grow,if_pos full,if_pos full']
      rfl
    · have room : ¬ (with_block program).nb_lines ≥ (with_block program).allocated := full
      rw [grow,Commands.grow,if_neg full,if_neg room]
      rfl
  | succ turns ih =>
    intro request program
    by_cases full : program.nb_lines ≥ program.allocated
    · have full' : (with_block program).nb_lines ≥ (with_block program).allocated := full
      rw [grow,Commands.grow,if_pos full,if_pos full',← ih (request + 1)]
      simp only [realloc,met,↓reduceIte,exit_if_null_some,with_block,Option.getD_some]
    · have room : ¬ (with_block program).nb_lines ≥ (with_block program).allocated := full
      rw [grow,Commands.grow,if_neg full,if_neg room]
      rfl

/-- The functions are those of a program whose allocations succeed. -/
theorem add_met (program : Commands.program_t) (command : command_t) :
    program_add_command alloc (with_block program) command =
      (Commands.program_add_command alloc.unset program command).map (fun added => (added.1,with_block added.2)) := by
  by_cases acceptable : Acceptable command
  · rw [add_acceptable alloc rfl acceptable]
    obtain ⟨size,instruction,write,aligned⟩ := acceptable
    rw [Commands.program_add_command,require_holds size,require_holds instruction,require_holds write,
      require_holds (.inl aligned)]
    have looped := grow_met met program.nb_lines 0 program
    rw [show (with_block program).nb_lines = program.nb_lines from rfl,looped]
    cases Commands.grow alloc.unset program.nb_lines program with
    | none => rfl
    | some grown =>
      simp only [with_block,Option.map_some,Option.bind_eq_bind,Option.bind_some,ne_eq,not_true_eq_false,↓reduceIte]
      split_ifs <;> rfl
  · rw [add_refused alloc rfl acceptable,ProgramBuild.add_rejected alloc.unset program acceptable]
    rfl

theorem shrink_met (program : Commands.program_t) :
    program_shrink alloc (with_block program) =
      ((Commands.program_shrink alloc.unset program).1,with_block (Commands.program_shrink alloc.unset program).2) := by
  simp only [program_shrink,Commands.program_shrink,with_block,realloc,met,↓reduceIte,Option.getD_some,exit_if_null_some]
  split_ifs <;> rfl

end met

/-! ### Runs of calls -/

/-- A call with the outcomes of its requests. -/
inductive call
  | add (alloc : allocator) (command : command_t)
  | shrink (alloc : allocator)

def step (program : program_t) : call → Option (error_code × program_t)
  | .add alloc command => program_add_command alloc program command
  | .shrink alloc => some (program_shrink alloc program)

theorem init_holds (alloc : allocator) : Holds (program_init alloc).2 := by
  unfold program_init calloc
  split_ifs
  · refine ⟨by simp [INIT_ALLOCATED],by simp,?_⟩
    intro listing block
    cases block
    exact List.length_replicate
  · refine ⟨by simp [INIT_ALLOCATED],by simp,?_⟩
    intro listing block
    cases block

theorem added_holds {alloc : allocator} {program after : program_t} {command : command_t} {code : error_code}
    (holds : Holds program) (added : Added alloc program command code after) : Holds after := by
  cases added with
  | missing _ => exact holds
  | refused _ => exact holds
  | @stored listing block room =>
    refine ⟨holds.some_room,room,?_⟩
    rintro _ ⟨⟩
    rw [List.length_set]
    exact holds.block listing block
  | grown _ full _ =>
    have some_room := holds.some_room
    refine ⟨by simp only; omega,by simp only; omega,?_⟩
    rintro _ ⟨⟩
    rw [List.length_set,ProgramBuild.realloc_length]
  | lost _ _ full _ =>
    have some_room := holds.some_room
    refine ⟨by simp only; omega,by simp only; omega,?_⟩
    rintro _ ⟨⟩

theorem shrunk_holds {alloc : allocator} {program after : program_t} {code : error_code} (holds : Holds program)
    (shrunk : Shrunk alloc program code after) : Holds after := by
  cases shrunk with
  | missing _ => exact holds
  | few _ => exact holds
  | shrunk _ many _ =>
    refine ⟨by simp only; omega,le_rfl,?_⟩
    rintro _ ⟨⟩
    exact ProgramBuild.realloc_length _ _ _
  | lost _ many _ =>
    refine ⟨by simp only; omega,le_rfl,?_⟩
    rintro _ ⟨⟩

/-- Whatever requests were refused, a program that a run reaches holds. -/
theorem reachable_holds {alloc : allocator} {calls : List call} {codes : List error_code} {program : program_t}
    (ran : run step (program_init alloc).2 calls = some (codes,program)) : Holds program := by
  refine Machine.run_invariant ?_ calls _ program codes (init_holds alloc) ran
  intro before c code next holds stepped
  cases c with
  | add alloc command =>
    obtain ⟨code',after,executed,added⟩ := add_total alloc holds command
    rw [step,executed] at stepped
    cases stepped
    exact added_holds holds added
  | shrink alloc =>
    have shrunk := shrink_total alloc before
    rw [Option.some.inj stepped] at shrunk
    exact shrunk_holds holds shrunk

/-! ### Failing without a trace -/

/-- An error leaves the program as it was. -/
def Atomic (program : program_t) (code : error_code) (after : program_t) : Prop := code ≠ .ERR_NONE → after = program

/-- No request of the call is refused. The first one doubles the room. -/
def AddSpared (alloc : allocator) (program : program_t) (command : command_t) : Prop :=
  program.listing = none ∨ ¬ Acceptable command ∨ program.nb_lines < program.allocated ∨
    alloc.meets 0 (program.allocated * 2) = true
def ShrinkSpared (alloc : allocator) (program : program_t) : Prop :=
  program.listing = none ∨ program.nb_lines ≤ 10 ∨ alloc.meets 0 program.nb_lines = true

/-- A call that fails and loses the block is not atomic. -/
theorem lost_not_atomic {program after : program_t} {listing : List command_t} (block : program.listing = some listing)
    (null : after.listing = none) : ¬ Atomic program .ERR_MEM after := by
  intro atomic
  have same := congrArg program_t.listing (atomic (by simp))
  rw [block,null] at same
  cases same

theorem added_atomic_iff {alloc : allocator} {program after : program_t} {command : command_t} {code : error_code}
    (added : Added alloc program command code after) : Atomic program code after ↔ AddSpared alloc program command := by
  cases added with
  | missing null => exact iff_of_true (fun _ => rfl) (.inl null)
  | refused unacceptable => exact iff_of_true (fun _ => rfl) (.inr (.inl unacceptable))
  | stored _ room => exact iff_of_true (fun failed => absurd rfl failed) (.inr (.inr (.inl room)))
  | grown _ _ met => exact iff_of_true (fun failed => absurd rfl failed) (.inr (.inr (.inr met)))
  | lost block acceptable full unmet =>
    refine iff_of_false (lost_not_atomic block rfl) ?_
    rintro (null | unacceptable | room | met)
    · rw [block] at null
      cases null
    · exact unacceptable acceptable
    · omega
    · rw [unmet] at met
      cases met

theorem shrunk_atomic_iff {alloc : allocator} {program after : program_t} {code : error_code}
    (shrunk : Shrunk alloc program code after) : Atomic program code after ↔ ShrinkSpared alloc program := by
  cases shrunk with
  | missing null => exact iff_of_true (fun _ => rfl) (.inl null)
  | few lines => exact iff_of_true (fun _ => rfl) (.inr (.inl lines))
  | shrunk _ _ met => exact iff_of_true (fun failed => absurd rfl failed) (.inr (.inr met))
  | lost block many unmet =>
    refine iff_of_false (lost_not_atomic block rfl) ?_
    rintro (null | few | met)
    · rw [block] at null
      cases null
    · omega
    · rw [unmet] at met
      cases met

/-- From every program that a run reaches, the next call fails without a trace
    just when no request of it is refused. -/
theorem call_atomic_iff {start : allocator} {calls : List call} {codes : List error_code} {program : program_t}
    (ran : run step (program_init start).2 calls = some (codes,program)) :
    (∀ (alloc : allocator) (command : command_t), ∃ code after,
      program_add_command alloc program command = some (code,after) ∧
        (Atomic program code after ↔ AddSpared alloc program command)) ∧
    ∀ alloc : allocator,
      Atomic program (program_shrink alloc program).1 (program_shrink alloc program).2 ↔ ShrinkSpared alloc program := by
  have holds := reachable_holds ran
  refine ⟨?_,fun alloc => shrunk_atomic_iff (shrink_total alloc program)⟩
  intro alloc command
  obtain ⟨code,after,executed,added⟩ := add_total alloc holds command
  exact ⟨code,after,executed,added_atomic_iff added⟩

/-- Allocators that meet every request and none. -/
def generous : allocator := ⟨fun _ _ => true,fun _ => zero_command⟩
def exhausted : allocator := ⟨fun _ _ => false,fun _ => zero_command⟩

theorem call_atomic_iff_ten_adds : ∃ codes program,
    run step (program_init generous).2 (List.replicate 10 (.add generous ProgramRead.read_zero)) = some (codes,program) ∧
      ¬ AddSpared exhausted program ProgramRead.read_zero ∧
      (∀ (alloc : allocator) (command : command_t), ∃ code after,
        program_add_command alloc program command = some (code,after) ∧
          (Atomic program code after ↔ AddSpared alloc program command)) ∧
      ∀ alloc : allocator,
        Atomic program (program_shrink alloc program).1 (program_shrink alloc program).2 ↔ ShrinkSpared alloc program := by
  have full : ∃ codes program,
      run step (program_init generous).2 (List.replicate 10 (.add generous ProgramRead.read_zero)) = some (codes,program) ∧
        program.listing ≠ none ∧ program.nb_lines = 10 ∧ program.allocated = 10 := ⟨_,_,rfl,by simp,rfl,rfl⟩
  obtain ⟨codes,program,ran,block,lines,allocated⟩ := full
  refine ⟨codes,program,ran,?_,call_atomic_iff ran⟩
  rintro (null | unacceptable | room | met)
  · exact block null
  · exact unacceptable (by unfold Acceptable; decide)
  · omega
  · cases met

/-- The eleventh command asks for memory; refused, it loses the other ten. -/
theorem eleventh_command_loses : ∃ codes program after,
    run step (program_init generous).2 (List.replicate 10 (.add generous ProgramRead.read_zero)) = some (codes,program) ∧
      program_add_command exhausted program ProgramRead.read_zero = some (.ERR_MEM,after) ∧
      ¬ Atomic program .ERR_MEM after := by
  exact ⟨_,_,_,rfl,rfl,lost_not_atomic rfl rfl⟩

end CacheEmulator.ProgramAlloc
