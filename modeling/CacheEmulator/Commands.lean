import CacheEmulator.Addr
import CacheEmulator.Memory
import CacheEmulator.Numeral

/-!
Programs of memory accesses: `commands.h` and `commands.c`. The objects that the
functions are given exist, so their tests for NULL hold, and every allocation
succeeds. Sizes are natural numbers; the counters of the parser are machine
integers, which wrap. An access outside `listing` has no result.
-/
namespace CacheEmulator.Commands
open CacheEmulator.Error CacheEmulator.Addr CacheEmulator.Stdio CacheEmulator.Numeral
open CacheEmulator.Memory (word_t)

inductive command_word_t
  | READ
  | WRITE
  deriving DecidableEq, Repr

structure command_t where
  order : command_word_t
  type : mem_access_t
  data_size : Nat
  write_data : word_t
  vaddr : virt_addr_t
  deriving DecidableEq, Repr

/-- `listing` holds the `allocated` commands of the block, used or not. -/
structure program_t where
  listing : List command_t
  nb_lines : Nat
  allocated : Nat
  deriving DecidableEq, Repr

def INIT_ALLOCATED : Nat := 10
def sizeof_word : Nat := 4

/-- A command of zero bytes, as `calloc` leaves it. -/
def zero_command : command_t :=
  { order := .READ, type := .INSTRUCTION, data_size := 0, write_data := 0, vaddr := ⟨0,0,0,0,0,0⟩ }

/-- The commands of a program, in order. -/
def program_t.commands (program : program_t) : List command_t := program.listing.take program.nb_lines

def program_init : error_code × program_t :=
  (.ERR_NONE,
    { listing := List.replicate INIT_ALLOCATED zero_command, nb_lines := 0, allocated := INIT_ALLOCATED })

/-! ### Building a program -/

/-- Keeps the common part; the commands of new memory are whatever was there. -/
def realloc (unset : Nat → command_t) (listing : List command_t) (size : Nat) : List command_t :=
  (List.range size).map (fun i => listing.getD i (unset i))

/-- The growth loop of `program_add_command`, for at most the given number of turns. -/
def grow (unset : Nat → command_t) : Nat → program_t → Option program_t
  | 0, program => if program.nb_lines ≥ program.allocated then none else some program
  | turns + 1, program =>
    if program.nb_lines ≥ program.allocated then
      grow unset turns
        { program with
          allocated := program.allocated * 2
          listing := realloc unset program.listing (program.allocated * 2) }
    else some program

/-- No more than `nb_lines` turns can be needed, except from a block of no
    commands, which the loop doubles for ever. -/
def program_add_command (unset : Nat → command_t) (program : program_t) (command : command_t) :
    Option (error_code × program_t) :=
  M_REQUIRE (command.data_size = sizeof_word ∨ command.data_size = 1) (some (.ERR_BAD_PARAMETER,program)) <|
  M_REQUIRE (¬ (command.type = .INSTRUCTION ∧ command.data_size ≠ sizeof_word)) (some (.ERR_BAD_PARAMETER,program)) <|
  M_REQUIRE (¬ (command.order = .WRITE ∧ command.type = .INSTRUCTION)) (some (.ERR_BAD_PARAMETER,program)) <|
  -- The size multiplies the remainder, as `%` and `*` associate to the left.
  M_REQUIRE (command.vaddr.page_offset.toNat % 8 = 0 ∨ command.vaddr.page_offset.toNat % 8 * sizeof_word = 0)
    (some (.ERR_BAD_PARAMETER,program)) <| do
  let program ← grow unset program.nb_lines program
  if program.nb_lines < program.listing.length then
    some (.ERR_NONE,
      { program with
        listing := program.listing.set program.nb_lines command
        nb_lines := program.nb_lines + 1 })
  else none

def program_shrink (unset : Nat → command_t) (program : program_t) : error_code × program_t :=
  if ¬ program.nb_lines ≤ 10 then
    (.ERR_NONE,
      { program with
        allocated := program.nb_lines
        listing := realloc unset program.listing program.nb_lines })
  else (.ERR_NONE,program)

/-! ### Printing a program -/

def order_to_char : command_word_t → byte
  | .READ => chr 'R'
  | .WRITE => chr 'W'

def type_to_char : mem_access_t → byte
  | .DATA => chr 'D'
  | .INSTRUCTION => chr 'I'

def size_to_char (data_size : Nat) : byte :=
  if data_size = sizeof_word then chr 'W'
  else if data_size = 1 then chr 'B'
  else BitVec.ofNat 8 error_code.ERR_BAD_PARAMETER.value

/-- One turn of the loop of `program_print`. -/
def print_command (command : command_t) : List byte :=
  [order_to_char command.order,chr ' '] ++
  [type_to_char command.type] ++
  (if command.type = .DATA then [size_to_char command.data_size] else []) ++
  [chr ' '] ++
  (if command.order = .WRITE then
    if command.data_size = sizeof_word then
      [chr '0',chr 'x'] ++ print_hex 8 command.write_data.toNat ++ [chr ' ']
    else [chr '0',chr 'x'] ++ print_hex 2 command.write_data.toNat ++ [chr ' ']
  else []) ++
  ([chr '@',chr '0',chr 'x'] ++ print_hex 16 (virt_addr_t_to_uint64_t command.vaddr).toNat ++ [chr '\n'])

/-- The error code and the text written to `output`. -/
def program_print (program : program_t) : Option (error_code × List byte) := do
  let lines ← (List.range program.nb_lines).mapM (fun i => program.listing[i]?.map print_command)
  some (.ERR_NONE,lines.flatten)

/-! ### Reading a program -/

/-- A character that is no digit gives the error code, which the callers take for a digit. -/
def hex_char_to_int (c : byte) : Nat :=
  if (chr '0').toNat ≤ c.toNat ∧ c.toNat ≤ (chr '9').toNat then c.toNat - (chr '0').toNat
  else if (chr 'A').toNat ≤ c.toNat ∧ c.toNat ≤ (chr 'F').toNat then c.toNat - (chr 'A').toNat + 10
  else error_code.ERR_BAD_PARAMETER.value

/-- The assignment `w = (w << 4) | hex_char_to_int(c)`. -/
def push_digit {size : Nat} (w : BitVec size) (c : byte) : BitVec size :=
  w <<< 4 ||| BitVec.ofNat size (hex_char_to_int c)

/-- `skipped` is -1 before the first read and so counts the blanks. The test
    for the end of the file inside the loop can hold at its first turn only:
    the others follow a blank. -/
def next_char (entree : FILE) : error_code × FILE :=
  M_REQUIRE (¬ feof entree) (.ERR_BAD_PARAMETER,entree) <|
  let loop := read_while isspace (fun (skipped : BitVec 32) _ => skipped + 1) 0 entree
  let entree := ungetc (char loop.2.1) loop.2.2
  M_REQUIRE (loop.1 ≠ 0) (.ERR_BAD_PARAMETER,entree) (.ERR_NONE,entree)

def word_or_byte (entree : FILE) (command : command_t) : error_code × command_t × FILE :=
  let w_b := char (fgetc entree).1
  let entree := (fgetc entree).2
  M_REQUIRE (w_b = chr 'W' ∨ w_b = chr 'B') (.ERR_BAD_PARAMETER,command,entree) <|
  if w_b = chr 'B' then (.ERR_NONE,{ command with data_size := 1 },entree)
  else (.ERR_NONE,{ command with data_size := sizeof_word },entree)

/-- Reads the given number of digits of an address; a file that ends goes on giving `EOF`. -/
def address_digits : Nat → BitVec 64 → FILE → BitVec 64 × FILE
  | 0, addr, entree => (addr,entree)
  | digits + 1, addr, entree =>
    address_digits digits (push_digit addr (char (fgetc entree).1)) (fgetc entree).2

/-- Reads on while the file has the given characters; stops after the first that differs. -/
def expect : List byte → FILE → Bool × FILE
  | [], entree => (true,entree)
  | c :: word, entree => if (fgetc entree).1 = some c then expect word (fgetc entree).2 else (false,(fgetc entree).2)

def address_procedure (entree : FILE) (command : command_t) : error_code × command_t × FILE :=
  let start := expect [chr '@',chr '0',chr 'x'] entree
  M_REQUIRE start.1 (.ERR_BAD_PARAMETER,command,start.2) <|
  let read := address_digits 16 0 start.2
  let line := fgetc read.2
  M_REQUIRE (line.1 = some (chr '\n')) (.ERR_BAD_PARAMETER,command,line.2) <|
  let initialised := init_virt_addr64 command.vaddr read.1
  (initialised.1,{ command with vaddr := initialised.2 },line.2)

def read_procedure (entree : FILE) (command : command_t) : error_code × command_t × FILE :=
  let command := { command with order := .READ }
  let next := next_char entree
  M_REQUIRE (next.1 = .ERR_NONE) (next.1,command,next.2) <|
  let i_d := char (fgetc next.2).1
  let entree := (fgetc next.2).2
  M_REQUIRE (i_d = chr 'I' ∨ i_d = chr 'D') (.ERR_BAD_PARAMETER,command,entree) <|
  let size :=
    if i_d = chr 'D' then word_or_byte entree { command with type := .DATA }
    else (.ERR_NONE,{ command with type := .INSTRUCTION, data_size := sizeof_word },entree)
  M_REQUIRE (size.1 = .ERR_NONE) (size.1,size.2.1,size.2.2) <|
  let next := next_char size.2.2
  M_REQUIRE (next.1 = .ERR_NONE) (next.1,size.2.1,next.2) <|
  address_procedure next.2 { size.2.1 with write_data := 0 }

/-- The loop over the digits of a value, with `wdata` and `max` for its state. -/
def value_digits (entree : FILE) : (word_t × BitVec 32) × Option byte × FILE :=
  read_while (fun num => !isspace num) (fun s num => (push_digit s.1 num,s.2 + 4)) (0,0) entree

def write_procedure (entree : FILE) (command : command_t) : error_code × command_t × FILE :=
  let command := { command with order := .WRITE }
  let next := next_char entree
  M_REQUIRE (next.1 = .ERR_NONE) (next.1,command,next.2) <|
  let type := fgetc next.2
  M_REQUIRE (type.1 = some (chr 'D')) (.ERR_BAD_PARAMETER,command,type.2) <|
  let size := word_or_byte type.2 { command with type := .DATA }
  M_REQUIRE (size.1 = .ERR_NONE) (size.1,size.2.1,size.2.2) <|
  let command := size.2.1
  let next := next_char size.2.2
  M_REQUIRE (next.1 = .ERR_NONE) (next.1,command,next.2) <|
  let start := expect [chr '0',chr 'x'] next.2
  M_REQUIRE start.1 (.ERR_BAD_PARAMETER,command,start.2) <|
  M_REQUIRE (¬ feof start.2) (.ERR_BAD_PARAMETER,command,start.2) <|
  let loop := value_digits start.2
  M_REQUIRE (loop.1.2.sle 32) (.ERR_BAD_PARAMETER,command,loop.2.2) <|
  let entree := ungetc (char loop.2.1) loop.2.2
  let command := { command with write_data := loop.1.1 }
  let next := next_char entree
  M_REQUIRE (next.1 = .ERR_NONE) (next.1,command,next.2) <|
  address_procedure next.2 command

/-- The loop of `program_read`, which has `left` commands to go to its limit of
    100: the error code, the number of commands read and the listing. Each
    procedure stores into the listing before anything else. -/
def read_commands : Nat → Nat → FILE → List command_t → Option (error_code × Nat × List command_t)
  | 0, nb_command, _, listing => some (.ERR_NONE,nb_command,listing)
  | left + 1, nb_command, entree, listing =>
    if feof entree then some (.ERR_NONE,nb_command,listing) else
    let r_w := char (fgetc entree).1
    let entree := (fgetc entree).2
    if feof entree then read_commands left nb_command entree listing
    else if r_w = chr 'R' ∨ r_w = chr 'W' then do
      let command ← listing[nb_command]?
      let read := if r_w = chr 'R' then read_procedure entree command else write_procedure entree command
      let listing := listing.set nb_command read.2.1
      if read.1 = .ERR_NONE then read_commands left (nb_command + 1) read.2.2 listing
      else some (read.1,nb_command,listing)
    else some (.ERR_BAD_PARAMETER,nb_command,listing)

/-- `program_read` after the program has been initialised; `nb_lines` is set on success only. -/
def program_read_into (program : program_t) (entree : FILE) : Option (error_code × program_t) := do
  let read ← read_commands 100 0 entree program.listing
  if read.1 = .ERR_NONE then
    some (.ERR_NONE,{ program with listing := read.2.2, nb_lines := read.2.1 })
  else some (read.1,{ program with listing := read.2.2 })

/-- Reads the file of a name, where there is one. -/
def program_read (file : Option (List byte)) (program : program_t) : Option (error_code × program_t) :=
  match file with
  | none => some (.ERR_BAD_PARAMETER,program)
  | some text =>
    if program_init.1 = .ERR_NONE then program_read_into program_init.2 (fopen text)
    else some (program_init.1,program_init.2)

end CacheEmulator.Commands
