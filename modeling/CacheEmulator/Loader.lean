import CacheEmulator.PageWalk
import CacheEmulator.Scanf

/-!
The memory loaders of `memory.c`. Files are regular files that are read without
an error. A load that is not answered with `ERR_NONE` stops: with an error code,
or because what it does next is undefined. The text of a description is read by
the loader as it goes; what is done with each page is a parameter of the loops,
so that the same loops load the pages and list them.
-/
namespace CacheEmulator.Loader
open CacheEmulator.Error CacheEmulator.Memory CacheEmulator.Addr CacheEmulator.PageWalk
open CacheEmulator.Stdio CacheEmulator.Scanf
open CacheEmulator.Error.error_code ( ERR_IO)

def PAGE_SIZE : Nat := 4096

/-- The size of the buffer for the names of page files. -/
def FILENAME_SIZE : Nat := 50

/-- The files by name, and whether `calloc` finds so many bytes. -/
structure system where
  files : List byte → Option (List byte)
  allocates : Nat → Bool

inductive fault
  | memory
  | filename
  deriving DecidableEq, Repr

/-- Why a load stops before its end. -/
inductive stop
  | returned (code : error_code)
  | undefined (why : fault)
  /-- The turns given to a loop did not do. -/
  | unfinished
  deriving DecidableEq, Repr

/-- A page of a description: at a physical address, or where a virtual address is translated to. -/
inductive listed_page
  | physical (address : BitVec 32) (filename : List byte)
  | virtual (address : BitVec 64) (filename : List byte)
  deriving DecidableEq, Repr

/-! ### Single pages -/

/-- Puts bytes into a block; nothing stands for a byte that falls outside. -/
def store_bytes (mem : mem_space) (start : Nat) (bytes : List byte_t) : Option mem_space :=
  if start + bytes.length ≤ mem.capacity then
    some { mem with
      byte := fun a => if start ≤ a.val ∧ a.val < start + bytes.length then bytes.getD (a.val - start) 0 else mem.byte a }
  else none

/-- Reads a whole file to an address. An empty file is stored nowhere. -/
def fread (memory : Option mem_space) (start : Nat) (bytes : List byte) : Option (Option mem_space) :=
  if bytes = [] then some memory
  else memory.bind (fun mem => (store_bytes mem start bytes).map some)

def fill_mem_at_address (sys : system) (memory : Option mem_space) (phy_address : BitVec 32) (filename : List byte) :
    Option mem_space × Option stop :=
  match sys.files filename with
  | none => (memory,some (.returned ERR_IO))
  | some entree =>
    match fread memory phy_address.toNat entree with
    | none => (memory,some (.undefined .memory))
    | some after => (after,none)

/-- The part of a turn that walks and stores. `page_walk` starts with a test of
    the pointer to the memory, which nothing else tests. -/
def fill_translated (sys : system) (memory : Option mem_space) (virtual_address : BitVec 64) (filename : List byte) :
    Option mem_space × Option stop :=
  let initialised := init_virt_addr64 ⟨0,0,0,0,0,0⟩ virtual_address
  if initialised.1 = .ERR_NONE then
    match memory with
    | none => (memory,some (.returned .ERR_BAD_PARAMETER))
    | some mem =>
      match page_walk mem initialised.2 ⟨0,0⟩ with
      | none => (memory,some (.undefined .memory))
      | some (code,paddr) =>
        if code = .ERR_NONE then
          fill_mem_at_address sys memory (paddr.phy_page_num.setWidth 32 <<< PAGE_OFFSET ||| paddr.page_offset.setWidth 32)
            filename
        else (memory,some (.returned code))
  else (memory,some (.returned initialised.1))

def load_page (sys : system) : listed_page → Option mem_space → Option mem_space × Option stop
  | .physical address filename, memory => fill_mem_at_address sys memory address filename
  | .virtual address filename, memory => fill_translated sys memory address filename

/-! ### The text of a description -/

/-- A blank was read before every test for the end of the file, which so never holds. -/
def go_to_next_char (entree : FILE) : error_code × FILE :=
  let loop := read_while isspace (fun u _ => u) () entree
  (.ERR_NONE,ungetc (char loop.2.1) loop.2.2)

/-- The call of `go_to_next_char` and the test of its result. -/
def skip (entree : FILE) : Except stop FILE :=
  let next := go_to_next_char entree
  if next.1 = .ERR_NONE then .ok next.2 else .error (.returned next.1)

/-- The call of `fscanf` for a file name, which ends at a zero byte. -/
def read_filename (entree : FILE) : Except stop (List byte × FILE) :=
  match fscanf_string entree with
  | none => .error (.returned ERR_IO)
  | some (word,after) =>
    if word.length < FILENAME_SIZE then .ok (word.takeWhile (fun c => c ≠ 0),after)
    else .error (.undefined .filename)

/-- The call of `fscanf` for a number. -/
def read_number {size : Nat} (scanned : Option (BitVec size × FILE)) : Except stop (BitVec size × FILE) :=
  match scanned with
  | none => .error (.returned ERR_IO)
  | some number => .ok number

/-- What is read for the page of the PGD. -/
def read_pgd (entree : FILE) : Except stop (listed_page × FILE) := do
  let entree ← skip entree
  let page_filename ← read_filename entree
  .ok (.physical 0 page_filename.1,page_filename.2)

/-- What a turn over the translation pages reads. -/
def read_translation (entree : FILE) : Except stop (listed_page × FILE) := do
  let entree ← skip entree
  let physical_address ← read_number (fscanf_unsigned 16 entree)
  let entree ← skip physical_address.2
  let page_filename ← read_filename entree
  .ok (.physical (physical_address.1.setWidth 32) page_filename.1,page_filename.2)

/-- What a turn over the data pages reads before it walks. -/
def read_data (entree : FILE) : Except stop (listed_page × FILE) := do
  let virtual_address ← read_number (fscanf_unsigned 16 entree)
  let entree ← skip virtual_address.2
  let page_filename ← read_filename entree
  let entree ← skip page_filename.2
  .ok (.virtual virtual_address.1 page_filename.1,entree)

/-! ### The loops -/
section loops
variable {σ : Type}

/-- Goes on after the blanks. -/
def skip_then (entree : FILE) (s : σ) (next : FILE → σ → σ × Option stop) : σ × Option stop :=
  match skip entree with
  | .error why => (s,some why)
  | .ok entree => next entree s

/-- Goes on with what has been read, unless reading or loading stops. -/
def turn (load : listed_page → σ → σ × Option stop) (read : Except stop (listed_page × FILE)) (s : σ)
    (next : FILE → σ → σ × Option stop) : σ × Option stop :=
  match read with
  | .error why => (s,some why)
  | .ok (p,entree) =>
    match load p s with
    | (s,some why) => (s,some why)
    | (s,none) => next entree s

variable (load : listed_page → σ → σ × Option stop)

/-- The loop over the data pages, for at most the given number of turns. -/
def data_pages : Nat → FILE → σ → σ × Option stop
  | 0, entree, s => if feof entree then (s,none) else (s,some .unfinished)
  | turns + 1, entree, s =>
    if feof entree then (s,none)
    else turn load (read_data entree) s (fun entree s => skip_then entree s (data_pages turns))

/-- The loop over the translation pages, and what comes after it. Every turn over
    a data page consumes a byte or stops. -/
def translation_pages : Nat → FILE → σ → σ × Option stop
  | 0, entree, s => skip_then entree s (fun entree s => data_pages load (entree.rest.length + 1) entree s)
  | pages + 1, entree, s => turn load (read_translation entree) s (translation_pages pages)

/-- The number of translation pages, and them. A negative number is no page. -/
def counted_pages (entree : FILE) (s : σ) : σ × Option stop :=
  skip_then entree s (fun entree s =>
    match read_number (fscanf_int entree) with
    | .error why => (s,some why)
    | .ok (number_of_pages,entree) => translation_pages load number_of_pages.toInt.toNat entree s)

/-- Everything after the size of the memory. -/
def load_pages (entree : FILE) (s : σ) : σ × Option stop :=
  turn load (read_pgd entree) s (counted_pages load)

end loops

/-- The memory as the loader leaves it, its capacity where it was read, and what
    stopped the load; nothing stopped a load that returns `ERR_NONE`. The block
    of a load that stopped has been freed. The test after `calloc` is made on
    the file, and lets a missing block pass. -/
def mem_init_from_description (sys : system) (master_filename : List byte) :
    Option mem_space × Option (BitVec 64) × Option stop :=
  match sys.files master_filename with
  | none => (none,none,some (.returned ERR_IO))
  | some text =>
    match fscanf_unsigned 10 (fopen text) with
    | none => (none,none,some (.returned ERR_IO))
    | some (mem_capacity_in_bytes,entree) =>
      let memory := if sys.allocates mem_capacity_in_bytes.toNat then some (zeros mem_capacity_in_bytes.toNat) else none
      let loaded := load_pages (load_page sys) entree memory
      (loaded.1,some mem_capacity_in_bytes,loaded.2)

end CacheEmulator.Loader
