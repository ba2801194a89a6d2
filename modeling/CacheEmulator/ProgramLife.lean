import CacheEmulator.Blocks
import CacheEmulator.ProgramAlloc

/-!
The life of a program from `program_init` to `program_free`, with the heap that
its listing is in: the functions of `ProgramAlloc` on pointers. Every call shows
what becomes of the block, and which blocks are left in the end.
-/
namespace CacheEmulator.ProgramLife
open CacheEmulator.Error CacheEmulator.Addr
open CacheEmulator.Commands ( command_t zero_command INIT_ALLOCATED sizeof_word)
open CacheEmulator.ProgramBuild ( Acceptable)
open CacheEmulator.ProgramAlloc ( allocator M_EXIT_IF_NULL exit_if_null_some exit_if_null_none)
open CacheEmulator.Blocks ( read live allocate write)
open CacheEmulator.Machine (run)

abbrev heap_t := List (Option (List command_t))

/-- `listing` is the number of a block, or NULL. -/
structure program_t where
  listing : Option Nat
  nb_lines : Nat
  allocated : Nat

structure state where
  heap : heap_t
  program : program_t

def calloc (alloc : allocator) (request size : Nat) (heap : heap_t) : Option Nat × heap_t :=
  if alloc.meets request size then
    let new := allocate heap (List.replicate size zero_command)
    (some new.1,new.2)
  else (none,heap)

/-- A request that is met moves the block; one that is refused leaves it where it is. -/
def realloc (alloc : allocator) (request : Nat) (listing : Option Nat) (size : Nat) (heap : heap_t) :
    Option (Option Nat × heap_t) :=
  match listing with
  | none =>
    if alloc.meets request size then
      let new := allocate heap (Commands.realloc alloc.unset [] size)
      some (some new.1,new.2)
    else some (none,heap)
  | some b => do
    let block ← read heap b
    if alloc.meets request size then
      let new := allocate heap (Commands.realloc alloc.unset block size)
      let heap ← Blocks.free new.2 b
      some (some new.1,heap)
    else some (none,heap)

/-- `free` of NULL does nothing. -/
def free (listing : Option Nat) (heap : heap_t) : Option heap_t :=
  match listing with
  | none => some heap
  | some b => Blocks.free heap b

def program_init (alloc : allocator) (heap : heap_t) : error_code × state :=
  let (listing,heap) := calloc alloc 0 INIT_ALLOCATED heap
  let s : state := ⟨heap,{ nb_lines := 0, allocated := INIT_ALLOCATED, listing := listing }⟩
  M_EXIT_IF_NULL listing (.ERR_MEM,s) (.ERR_NONE,s)

/-- The growth loop of `program_add_command`, as in `ProgramAlloc`. -/
def grow (alloc : allocator) : Nat → Nat → state → Option (error_code × state)
  | 0, _, s => if s.program.nb_lines ≥ s.program.allocated then none else some (.ERR_NONE,s)
  | turns + 1, request, s =>
    if s.program.nb_lines ≥ s.program.allocated then do
      let program := { s.program with allocated := s.program.allocated * 2 }
      let (listing,heap) ← realloc alloc request program.listing program.allocated s.heap
      let s := ⟨heap,{ program with listing := listing }⟩
      M_EXIT_IF_NULL listing (some (.ERR_MEM,s)) (grow alloc turns (request + 1) s)
    else some (.ERR_NONE,s)

/-- A command stored at an index of a block; nothing stands for an index behind its end. -/
def store (heap : heap_t) (listing : Option Nat) (index : Nat) (command : command_t) : Option heap_t := do
  let b ← listing
  let block ← read heap b
  if index < block.length then write heap b (block.set index command) else none

def program_add_command (alloc : allocator) (s : state) (command : command_t) : Option (error_code × state) :=
  M_EXIT_IF_NULL s.program.listing (some (.ERR_MEM,s)) <|
  M_REQUIRE (command.data_size = sizeof_word ∨ command.data_size = 1) (some (.ERR_BAD_PARAMETER,s)) <|
  M_REQUIRE (¬ (command.type = .INSTRUCTION ∧ command.data_size ≠ sizeof_word)) (some (.ERR_BAD_PARAMETER,s)) <|
  M_REQUIRE (¬ (command.order = .WRITE ∧ command.type = .INSTRUCTION)) (some (.ERR_BAD_PARAMETER,s)) <|
  M_REQUIRE (command.vaddr.page_offset.toNat % 8 = 0 ∨ command.vaddr.page_offset.toNat % 8 * sizeof_word = 0)
    (some (.ERR_BAD_PARAMETER,s)) <| do
  let (code,s) ← grow alloc s.program.nb_lines 0 s
  if code ≠ .ERR_NONE then some (code,s) else
  let heap ← store s.heap s.program.listing s.program.nb_lines command
  some (.ERR_NONE,⟨heap,{ s.program with nb_lines := s.program.nb_lines + 1 }⟩)

def program_shrink (alloc : allocator) (s : state) : Option (error_code × state) :=
  M_EXIT_IF_NULL s.program.listing (some (.ERR_MEM,s)) <|
  if ¬ s.program.nb_lines ≤ 10 then do
    let program := { s.program with allocated := s.program.nb_lines }
    let (listing,heap) ← realloc alloc 0 program.listing program.allocated s.heap
    let s := ⟨heap,{ program with listing := listing }⟩
    M_EXIT_IF_NULL listing (some (.ERR_MEM,s)) (some (.ERR_NONE,s))
  else some (.ERR_NONE,s)

def program_free (s : state) : Option (error_code × state) := do
  let heap ← free s.program.listing s.heap
  some (.ERR_NONE,⟨heap,{ listing := none, nb_lines := 0, allocated := 0 }⟩)

/-! ### What becomes of the block -/

/-- The program with the block that its pointer leads to. -/
def view (s : state) : ProgramAlloc.program_t :=
  ⟨s.program.listing.bind (read s.heap),s.program.nb_lines,s.program.allocated⟩

/-- The program points to a block with the room that it counts, beside the other blocks. -/
structure Owns (others : Nat) (s : state) (b : Nat) (block : List command_t) : Prop where
  listing : s.program.listing = some b
  there : read s.heap b = some block
  count : live s.heap = others + 1
  length : block.length = s.program.allocated
  some_room : 0 < s.program.allocated
  within : s.program.nb_lines ≤ s.program.allocated

/-- The program has lost its block, which nothing can free any more. -/
def Lost (others : Nat) (s : state) : Prop := s.program.listing = none ∧ live s.heap = others + 1

/-- Nothing is left but the other blocks. -/
def Gone (others : Nat) (s : state) : Prop := s.program.listing = none ∧ live s.heap = others

section
variable {alloc : allocator} {others : Nat} {s : state} {b : Nat} {block : List command_t}

/-- A request for the block: it moves, or the pointer to it is gone. -/
theorem realloc_owned (alloc : allocator) (owns : Owns others s b block) (request size : Nat) :
    (alloc.meets request size = true ∧ ∃ new heap, realloc alloc request s.program.listing size s.heap = some (some new,heap) ∧
      read heap new = some (Commands.realloc alloc.unset block size) ∧ live heap = others + 1) ∨
    (alloc.meets request size = false ∧ realloc alloc request s.program.listing size s.heap = some (none,s.heap)) := by
  obtain ⟨heap,freed,count,there⟩ := Blocks.move_live owns.there (Commands.realloc alloc.unset block size)
  cases met : alloc.meets request size with
  | true =>
    refine .inl ⟨rfl,_,heap,?_,there,count.trans owns.count⟩
    simp [realloc,owns.listing,owns.there,met,freed]
  | false =>
    refine .inr ⟨rfl,?_⟩
    simp [realloc,owns.listing,owns.there,met]

theorem grow_room (alloc : allocator) (turns request : Nat) (room : s.program.nb_lines < s.program.allocated) :
    grow alloc turns request s = some (.ERR_NONE,s) := by
  cases turns with
  | zero => exact if_neg (by omega)
  | succ turns => exact if_neg (by omega)

/-- A full program asks once for twice its room. -/
theorem grow_full (alloc : allocator) (owns : Owns others s b block) (full : s.program.nb_lines = s.program.allocated) :
    (alloc.meets 0 (s.program.allocated * 2) = true ∧ ∃ new heap,
      grow alloc s.program.nb_lines 0 s =
        some (.ERR_NONE,⟨heap,{ s.program with listing := some new, allocated := s.program.allocated * 2 }⟩) ∧
      read heap new = some (Commands.realloc alloc.unset block (s.program.allocated * 2)) ∧ live heap = others + 1) ∨
    (alloc.meets 0 (s.program.allocated * 2) = false ∧
      grow alloc s.program.nb_lines 0 s =
        some (.ERR_MEM,⟨s.heap,{ s.program with listing := none, allocated := s.program.allocated * 2 }⟩)) := by
  have some_room := owns.some_room
  obtain ⟨turns,more⟩ : ∃ turns, s.program.nb_lines = turns + 1 := ⟨s.program.nb_lines - 1,by omega⟩
  have no_room : s.program.nb_lines ≥ s.program.allocated := full.ge
  rcases realloc_owned alloc owns 0 (s.program.allocated * 2) with ⟨met,new,heap,moved,there,count⟩ | ⟨unmet,kept⟩
  · refine .inl ⟨met,new,heap,?_,there,count⟩
    have room : s.program.nb_lines < s.program.allocated * 2 := by omega
    rw [more,grow,if_pos no_room]
    simp only [moved,Option.bind_eq_bind,Option.bind_some,exit_if_null_some]
    exact grow_room alloc _ _ room
  · refine .inr ⟨unmet,?_⟩
    rw [more,grow,if_pos no_room]
    simp only [kept,Option.bind_eq_bind,Option.bind_some,exit_if_null_none]

/-- The tests of a command that is acceptable let it pass. -/
theorem add_acceptable (owns : Owns others s b block) {command : command_t} (acceptable : Acceptable command) :
    program_add_command alloc s command = (do
      let (code,s) ← grow alloc s.program.nb_lines 0 s
      if code ≠ .ERR_NONE then some (code,s) else
      let heap ← store s.heap s.program.listing s.program.nb_lines command
      some (.ERR_NONE,⟨heap,{ s.program with nb_lines := s.program.nb_lines + 1 }⟩)) := by
  obtain ⟨size,instruction,write,aligned⟩ := acceptable
  rw [program_add_command,owns.listing,exit_if_null_some,require_holds size,require_holds instruction,require_holds write,
    require_holds (.inl aligned)]

theorem add_refused (owns : Owns others s b block) {command : command_t} (unacceptable : ¬ Acceptable command) :
    program_add_command alloc s command = some (.ERR_BAD_PARAMETER,s) := by
  rw [program_add_command,owns.listing,exit_if_null_some]
  by_cases size : command.data_size = sizeof_word ∨ command.data_size = 1
  · by_cases instruction : ¬ (command.type = .INSTRUCTION ∧ command.data_size ≠ sizeof_word)
    · by_cases write : ¬ (command.order = .WRITE ∧ command.type = .INSTRUCTION)
      · have misaligned : ¬ (command.vaddr.page_offset.toNat % 8 = 0 ∨
            command.vaddr.page_offset.toNat % 8 * sizeof_word = 0) := by
          rw [ProgramBuild.aligned_iff]
          exact fun aligned => unacceptable ⟨size,instruction,write,aligned⟩
        rw [require_holds size,require_holds instruction,require_holds write,require_fails misaligned]
      · rw [require_holds size,require_holds instruction,require_fails write]
    · rw [require_holds size,require_fails instruction]
  · rw [require_fails size]

end

inductive call
  | add (alloc : allocator) (command : command_t)
  | shrink (alloc : allocator)
  | free

def step (s : state) : call → Option (error_code × state)
  | .add alloc command => program_add_command alloc s command
  | .shrink alloc => program_shrink alloc s
  | .free => program_free s

/-- What the first call that takes the block has made of it. -/
def Left (others : Nat) (s : state) : Option (call × error_code) → Prop
  | none => ∃ b block, Owns others s b block
  | some (.free,_) => Gone others s
  | some _ => Lost others s

/-- Ten commands, an eleventh that finds no memory, and the destructor: the block is lost. -/
example : ∃ codes last, run step (program_init ProgramAlloc.generous []).2
    (List.replicate 10 (.add ProgramAlloc.generous ProgramRead.read_zero) ++
      [.add ProgramAlloc.exhausted ProgramRead.read_zero,.free]) =
      some (codes,last) ∧ live last.heap = 1 := ⟨_,_,rfl,rfl⟩

end CacheEmulator.ProgramLife
