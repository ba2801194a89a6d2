import CacheEmulator.Loader

/-!
Printing a page: `vmem_page_dump_with_options` of `memory.c`. Addresses are
distances from the start of the memory. What is printed is kept as the calls
that print it; a byte is kept with the address it was read from.
-/
namespace CacheEmulator.PageDump
open CacheEmulator.Error CacheEmulator.Memory CacheEmulator.Addr CacheEmulator.PageWalk CacheEmulator.Stdio
open CacheEmulator.Loader (PAGE_SIZE)

inductive addr_fmt_t
  | NONE
  | POINTER
  | OFFSET
  | OFFSET_U
  deriving DecidableEq, Repr

/-- One piece of output: an address in its format, a byte in two digits, the
    blanks in place of one, each with the separator behind it, or a line end. -/
inductive printed
  | address (show_addr : addr_fmt_t) (addr : Nat) (sep : List byte)
  | byte (addr : Nat) (value : byte_t) (sep : List byte)
  | blanks (sep : List byte)
  | newline
  deriving DecidableEq, Repr

def address_print (show_addr : addr_fmt_t) (addr : Nat) (sep : List byte) : List printed :=
  if show_addr = .NONE then [] else [.address show_addr addr sep]

section
variable (mem : mem_space) (show_addr : addr_fmt_t) (line_size : Nat) (sep : List byte)

/-- The loop of `mem_dump_with_options` over the given number of bytes: what it
    prints and the last `nb_to_print`. -/
def dump_bytes : Nat → Nat → Nat → Option (List printed × Nat)
  | 0, _, nb_to_print => some ([],nb_to_print)
  | count + 1, addr, nb_to_print => do
    let value ← byte_at mem addr
    let full := nb_to_print - 1 = 0
    let rest ← dump_bytes count (addr + 1) (if full then line_size else nb_to_print - 1)
    some ((if nb_to_print = line_size then address_print show_addr addr sep else []) ++ [.byte addr value sep] ++
      (if full then [.newline] else []) ++ rest.1,rest.2)

/-- Nothing is printed if `to_` is not behind `start`; the assertion ends the program. -/
def mem_dump_with_options (start to_ : Nat) : Option (List printed) :=
  if line_size = 0 then none
  else (dump_bytes mem show_addr line_size sep (to_ - start) start line_size).map (fun dumped =>
    dumped.1 ++ if dumped.2 ≠ line_size then [.newline] else [])

def vmem_page_dump_with_options (vaddr : virt_addr_t) : Option (error_code × List printed) :=
  match page_walk mem vaddr ⟨0,0⟩ with
  | none => none
  | some (code,paddr) =>
    if code ≠ .ERR_NONE then some (code,[]) else do
    let page_start := (paddr.phy_page_num.setWidth 32 <<< PAGE_OFFSET : BitVec 32).toNat
    let start := page_start + paddr.page_offset.toNat
    let end_line := start + (line_size - paddr.page_offset.toNat % line_size)
    let end_ := page_start + PAGE_SIZE
    let above ← mem_dump_with_options mem show_addr line_size sep page_start start
    let indent := paddr.page_offset.toNat % line_size
    let line ← mem_dump_with_options mem .NONE line_size sep start end_line
    let below ← mem_dump_with_options mem show_addr line_size sep end_line end_
    some (.ERR_NONE,above ++ (if indent = 0 then [.newline] else []) ++ address_print show_addr start sep ++
      List.replicate indent (.blanks sep) ++ line ++ below)

end

/-! ### The bytes that are printed -/

/-- The bytes of an output, with their addresses. -/
def bytes : List printed → List (Nat × byte_t)
  | [] => []
  | .byte addr value _ :: rest => (addr,value) :: bytes rest
  | _ :: rest => bytes rest

/-- The output shows the memory at so many addresses, in ascending order. -/
structure Shows (mem : mem_space) (start count : Nat) (output : List printed) : Prop where
  addresses : (bytes output).map Prod.fst = List.range' start count
  values : ∀ b ∈ bytes output, byte_at mem b.1 = some b.2

@[simp] theorem bytes_append (left right : List printed) : bytes (left ++ right) = bytes left ++ bytes right := by
  induction left with
  | nil => rfl
  | cons p left ih => cases p <;> simp [bytes,ih]

@[simp] theorem bytes_byte (addr : Nat) (value : byte_t) (sep : List byte) (rest : List printed) :
    bytes (.byte addr value sep :: rest) = (addr,value) :: bytes rest := rfl

@[simp] theorem bytes_address (show_addr : addr_fmt_t) (addr : Nat) (sep : List byte) :
    bytes (address_print show_addr addr sep) = [] := by
  unfold address_print
  split_ifs <;> rfl

@[simp] theorem bytes_newline (test : Prop) [Decidable test] : bytes (if test then [.newline] else []) = [] := by
  split_ifs <;> rfl

@[simp] theorem bytes_blanks (count : Nat) (sep : List byte) : bytes (List.replicate count (.blanks sep)) = [] := by
  induction count with
  | zero => rfl
  | succ count ih => simpa [List.replicate_succ,bytes] using ih

theorem Shows.append {mem : mem_space} {start n m : Nat} {left right : List printed} (first : Shows mem start n left)
    (second : Shows mem (start + n) m right) : Shows mem start (n + m) (left ++ right) := by
  refine ⟨?_,?_⟩
  · rw [bytes_append,List.map_append,first.addresses,second.addresses,List.range'_append_1]
  · intro b member
    rw [bytes_append] at member
    rcases List.mem_append.mp member with here | there
    · exact first.values b here
    · exact second.values b there

/-- Output that shows no byte makes no difference. -/
theorem Shows.same {mem : mem_space} {start n : Nat} {output output' : List printed} (shows : Shows mem start n output)
    (same : bytes output' = bytes output) : Shows mem start n output' := by
  refine ⟨?_,?_⟩
  · rw [same]
    exact shows.addresses
  · rw [same]
    exact shows.values

theorem Shows.length {mem : mem_space} {start n : Nat} {output : List printed} (shows : Shows mem start n output) :
    (bytes output).length = n := by
  have lengths := congrArg List.length shows.addresses
  rwa [List.length_map,List.length_range'] at lengths

/-- All that is shown lies in the memory. -/
theorem Shows.inside {mem : mem_space} {start n : Nat} {output : List printed} (shows : Shows mem start n output)
    {a : Nat} (first : start ≤ a) (last : a < start + n) : a < mem.capacity := by
  have member : a ∈ (bytes output).map Prod.fst := by
    rw [shows.addresses,List.mem_range'_1]
    exact ⟨first,last⟩
  obtain ⟨b,here,rfl⟩ := List.mem_map.mp member
  have read := shows.values b here
  unfold byte_at at read
  split_ifs at read with inside
  exact inside

/-! ### The loop -/
section loop
variable {mem : mem_space} {show_addr : addr_fmt_t} {line_size : Nat} {sep : List byte}

theorem dump_bytes_shows : ∀ {count addr nb_to_print last : Nat} {output : List printed},
    dump_bytes mem show_addr line_size sep count addr nb_to_print = some (output,last) → Shows mem addr count output := by
  intro count
  induction count with
  | zero =>
    intro addr nb_to_print last output dumped
    cases dumped
    exact ⟨rfl,fun b member => absurd member List.not_mem_nil⟩
  | succ count ih =>
    intro addr nb_to_print last output dumped
    obtain ⟨value,read,dumped⟩ := Option.bind_eq_some_iff.mp dumped
    obtain ⟨⟨rest,last'⟩,later,same⟩ := Option.bind_eq_some_iff.mp dumped
    cases same
    have one : Shows mem addr 1 [.byte addr value sep] := by
      refine ⟨rfl,?_⟩
      intro b member
      obtain rfl := List.mem_singleton.mp member
      exact read
    have both := one.append (ih later)
    rw [Nat.add_comm] at both
    refine both.same ?_
    have no_address : bytes (if nb_to_print = line_size then address_print show_addr addr sep else []) = [] := by
      split_ifs
      · exact bytes_address _ _ _
      · rfl
    simp [no_address]

theorem dump_bytes_total : ∀ {count addr : Nat} (nb_to_print : Nat), addr + count ≤ mem.capacity →
    ∃ dumped, dump_bytes mem show_addr line_size sep count addr nb_to_print = some dumped := by
  intro count
  induction count with
  | zero => exact fun nb_to_print _ => ⟨_,rfl⟩
  | succ count ih =>
    intro addr nb_to_print inside
    have here : byte_at mem addr = some (mem.byte ⟨addr,by omega⟩) := dif_pos (by omega)
    have behind : addr + 1 + count ≤ mem.capacity := by omega
    obtain ⟨rest,later⟩ := ih (if nb_to_print - 1 = 0 then line_size else nb_to_print - 1) behind
    simp only [dump_bytes,here,later,Option.bind_eq_bind,Option.bind_some]
    exact ⟨_,rfl⟩

theorem mem_dump_shows {start to_ : Nat} {output : List printed}
    (dumped : mem_dump_with_options mem show_addr line_size sep start to_ = some output) :
    Shows mem start (to_ - start) output := by
  unfold mem_dump_with_options at dumped
  split_ifs at dumped
  obtain ⟨⟨lines,last⟩,looped,rfl⟩ := Option.map_eq_some_iff.mp dumped
  exact (dump_bytes_shows looped).same (by rw [bytes_append,bytes_newline,List.append_nil])

theorem mem_dump_total (positive : 0 < line_size) {start to_ : Nat} (inside : to_ ≤ mem.capacity) :
    ∃ output, mem_dump_with_options mem show_addr line_size sep start to_ = some output := by
  have some_size : ¬ line_size = 0 := by omega
  rcases Nat.lt_or_ge start to_ with behind | none_left
  · have all : start + (to_ - start) ≤ mem.capacity := by omega
    have loops : ∃ dumped, dump_bytes mem show_addr line_size sep (to_ - start) start line_size = some dumped :=
      dump_bytes_total line_size all
    obtain ⟨dumped,looped⟩ := loops
    exact ⟨_,by rw [mem_dump_with_options,if_neg some_size,looped]; rfl⟩
  · have nothing : to_ - start = 0 := by omega
    exact ⟨_,by rw [mem_dump_with_options,if_neg some_size,nothing]; rfl⟩

end loop

/-! ### The page -/

/-- The output of a dump shows exactly the page that the walk finds. -/
def DumpsPage (mem : mem_space) (vaddr : virt_addr_t) (answer : Option (error_code × List printed)) : Prop :=
  ∃ paddr output, page_walk mem vaddr ⟨0,0⟩ = some (.ERR_NONE,paddr) ∧ answer = some (.ERR_NONE,output) ∧
    Shows mem (paddr.phy_page_num.toNat * PAGE_SIZE) PAGE_SIZE output

/-- The walk and the page it finds lie inside the memory. -/
def PageInside (mem : mem_space) (vaddr : virt_addr_t) : Prop :=
  ∃ f, frame mem vaddr = some f ∧ f.toNat * PAGE_SIZE + PAGE_SIZE ≤ mem.capacity

/-- The line of output that holds an offset ends within the page. -/
def LineFits (line_size offset : Nat) : Prop := (offset / line_size + 1) * line_size ≤ PAGE_SIZE

section page
variable {mem : mem_space} {show_addr : addr_fmt_t} {line_size : Nat} {sep : List byte} {vaddr : virt_addr_t}

theorem page_start_correct (f : BitVec 20) : (f.setWidth 32 <<< PAGE_OFFSET : BitVec 32).toNat = f.toNat * PAGE_SIZE := by
  have small := f.isLt
  have wide : (f.setWidth 32).toNat = f.toNat := CacheEmulator.Bits.toNat_widen f (by decide)
  rw [BitVec.toNat_shiftLeft,wide,Nat.shiftLeft_eq]
  simp only [PAGE_OFFSET,PAGE_SIZE]
  omega

/-- A dump is made of three: up to the address, its line, and what is behind that line. -/
theorem dump_parts {f : BitVec 20} (walked : frame mem vaddr = some f) {output : List printed}
    (dumped : vmem_page_dump_with_options mem show_addr line_size sep vaddr = some (.ERR_NONE,output)) :
    ∃ above line below, bytes output = bytes above ++ bytes line ++ bytes below ∧
      Shows mem (f.toNat * PAGE_SIZE) vaddr.page_offset.toNat above ∧
      Shows mem (f.toNat * PAGE_SIZE + vaddr.page_offset.toNat) (line_size - vaddr.page_offset.toNat % line_size) line ∧
      Shows mem (f.toNat * PAGE_SIZE + vaddr.page_offset.toNat + (line_size - vaddr.page_offset.toNat % line_size))
        (PAGE_SIZE - (vaddr.page_offset.toNat + (line_size - vaddr.page_offset.toNat % line_size))) below := by
  rw [vmem_page_dump_with_options,page_walk_correct,walked,Option.map_some] at dumped
  simp only [page_start_correct,ne_eq,not_true_eq_false,↓reduceIte] at dumped
  obtain ⟨above,first,dumped⟩ := Option.bind_eq_some_iff.mp dumped
  obtain ⟨line,second,dumped⟩ := Option.bind_eq_some_iff.mp dumped
  obtain ⟨below,third,same⟩ := Option.bind_eq_some_iff.mp dumped
  cases same
  have shows_above := mem_dump_shows first
  have shows_line := mem_dump_shows second
  have shows_below := mem_dump_shows third
  rw [Nat.add_sub_cancel_left] at shows_above shows_line
  rw [Nat.add_assoc,Nat.add_sub_add_left,← Nat.add_assoc] at shows_below
  exact ⟨above,line,below,by simp,shows_above,shows_line,shows_below⟩

/-- The number of bytes in the three parts. -/
theorem parts_length (positive : 0 < line_size) (offset : Nat) :
    offset + (line_size - offset % line_size) + (PAGE_SIZE - (offset + (line_size - offset % line_size))) = PAGE_SIZE ↔
      LineFits line_size offset := by
  have divided := Nat.div_add_mod offset line_size
  have rest := Nat.mod_lt offset positive
  have line_end : offset + (line_size - offset % line_size) = (offset / line_size + 1) * line_size := by
    rw [Nat.add_mul,Nat.mul_comm (offset / line_size)]
    omega
  rw [LineFits,← line_end]
  omega

/-- A page that is dumped is in memory, and its lines fit. -/
theorem dumps_page_sound (positive : 0 < line_size)
    (dumps : DumpsPage mem vaddr (vmem_page_dump_with_options mem show_addr line_size sep vaddr)) :
    PageInside mem vaddr ∧ LineFits line_size vaddr.page_offset.toNat := by
  obtain ⟨paddr,output,found,dumped,shows⟩ := dumps
  rw [page_walk_correct] at found
  obtain ⟨f,walked,same⟩ := Option.map_eq_some_iff.mp found
  cases same
  change Shows mem (f.toNat * PAGE_SIZE) PAGE_SIZE output at shows
  refine ⟨⟨f,walked,?_⟩,?_⟩
  · have last := shows.inside (a := f.toNat * PAGE_SIZE + (PAGE_SIZE - 1)) (by omega) (by simp only [PAGE_SIZE]; omega)
    simp only [PAGE_SIZE] at last ⊢
    omega
  · obtain ⟨above,line,below,parts,first,second,third⟩ := dump_parts walked dumped
    have lengths := congrArg List.length parts
    rw [List.length_append,List.length_append,shows.length,first.length,second.length,third.length] at lengths
    exact (parts_length positive vaddr.page_offset.toNat).mp lengths.symm

/-- A page in memory whose lines fit is dumped. -/
theorem dumps_page_complete (positive : 0 < line_size) (inside : PageInside mem vaddr)
    (fits : LineFits line_size vaddr.page_offset.toNat) :
    DumpsPage mem vaddr (vmem_page_dump_with_options mem show_addr line_size sep vaddr) := by
  obtain ⟨f,walked,inside⟩ := inside
  have whole := (parts_length positive vaddr.page_offset.toNat).mpr fits
  have dumps : ∀ (format : addr_fmt_t) (start to_ : Nat), to_ ≤ mem.capacity →
      ∃ output, mem_dump_with_options mem format line_size sep start to_ = some output :=
    fun format _ _ within => mem_dump_total positive within
  obtain ⟨above,first⟩ := dumps show_addr (f.toNat * PAGE_SIZE)
    (f.toNat * PAGE_SIZE + vaddr.page_offset.toNat) (by omega)
  obtain ⟨line,second⟩ := dumps .NONE (f.toNat * PAGE_SIZE + vaddr.page_offset.toNat)
    (f.toNat * PAGE_SIZE + vaddr.page_offset.toNat + (line_size - vaddr.page_offset.toNat % line_size)) (by omega)
  obtain ⟨below,third⟩ := dumps show_addr
    (f.toNat * PAGE_SIZE + vaddr.page_offset.toNat + (line_size - vaddr.page_offset.toNat % line_size))
    (f.toNat * PAGE_SIZE + PAGE_SIZE) inside
  have walks : page_walk mem vaddr ⟨0,0⟩ = some (.ERR_NONE,⟨f,vaddr.page_offset⟩) := by
    rw [page_walk_correct,walked,Option.map_some]
  have dumped : ∃ output, vmem_page_dump_with_options mem show_addr line_size sep vaddr = some (.ERR_NONE,output) := by
    rw [vmem_page_dump_with_options,walks]
    simp only [page_start_correct,ne_eq,not_true_eq_false,↓reduceIte,first,second,third,Option.bind_eq_bind,
      Option.bind_some]
    exact ⟨_,rfl⟩
  obtain ⟨output,dumped⟩ := dumped
  obtain ⟨_,_,_,parts,shows_above,shows_line,shows_below⟩ := dump_parts walked dumped
  refine ⟨⟨f,vaddr.page_offset⟩,output,walks,dumped,?_⟩
  rw [Nat.add_assoc] at shows_below
  have all := shows_above.append (shows_line.append (by rw [Nat.add_assoc]; exact shows_below))
  rw [← Nat.add_assoc,whole] at all
  exact all.same (by rw [parts,bytes_append,bytes_append,List.append_assoc])

end page

/-- A dump shows exactly its page just when the page is in memory and the line of
    the address, whose end is nowhere compared with that of the page, fits. -/
theorem dumps_page_iff (mem : mem_space) (vaddr : virt_addr_t) (show_addr : addr_fmt_t) {line_size : Nat}
    (positive : 0 < line_size) (sep : List byte) :
    DumpsPage mem vaddr (vmem_page_dump_with_options mem show_addr line_size sep vaddr) ↔
      PageInside mem vaddr ∧ LineFits line_size vaddr.page_offset.toNat :=
  ⟨dumps_page_sound positive,fun both => dumps_page_complete positive both.1 both.2⟩

/-- The last byte of the page 0. -/
def last_byte : virt_addr_t := ⟨0,0,0,0,0,4095⟩

theorem dumps_page_iff_last_byte :
    DumpsPage (zeros 8192) last_byte (vmem_page_dump_with_options (zeros 8192) .OFFSET 16 [chr ' '] last_byte) ↔
      PageInside (zeros 8192) last_byte ∧ LineFits 16 last_byte.page_offset.toNat :=
  dumps_page_iff (zeros 8192) last_byte .OFFSET (by decide) [chr ' ']

/-- In lines of three bytes the last one of the page runs over its end. -/
theorem last_line_runs_over : PageInside (zeros 8192) last_byte ∧
    ¬ DumpsPage (zeros 8192) last_byte (vmem_page_dump_with_options (zeros 8192) .OFFSET 3 [chr ' '] last_byte) := by
  refine ⟨⟨0,by decide +kernel,by decide⟩,?_⟩
  intro dumps
  have fits := (dumps_page_sound (by decide) dumps).2
  revert fits
  unfold LineFits
  decide

end CacheEmulator.PageDump
