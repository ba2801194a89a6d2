import CacheEmulator.ProgramRead

/-!
Printing and reading: `program_print` writes well-formed commands in the file
format, and what `program_read` accepts is well formed.
-/
namespace CacheEmulator.ProgramPrint
open CacheEmulator.Error CacheEmulator.Addr CacheEmulator.Stdio CacheEmulator.Numeral CacheEmulator.Commands
open CacheEmulator.CommandGrammar CacheEmulator.ProgramRead

/-- The commands that the file format has a line for. -/
structure WellFormed (c : command_t) : Prop where
  size : c.data_size = 1 ∨ c.data_size = sizeof_word
  instruction : c.type = .INSTRUCTION → c.order = .READ ∧ c.data_size = sizeof_word
  read : c.order = .READ → c.write_data = 0
  reserved : c.vaddr.reserved = 0

theorem line_well_formed {line : List byte} {c : command_t} (accepted : Line Accepted line c) : WellFormed c := by
  cases accepted with
  | read_instruction _ _ address =>
    exact ⟨.inr rfl,fun _ => ⟨rfl,rfl⟩,fun _ => rfl,address.2.1⟩
  | read_data _ sized _ address =>
    refine ⟨?_,by rintro ⟨⟩,fun _ => rfl,address.2.1⟩
    cases sized
    · exact .inr rfl
    · exact .inl rfl
  | write_data _ sized _ _ _ address =>
    refine ⟨?_,by rintro ⟨⟩,by rintro ⟨⟩,address.2.1⟩
    cases sized
    · exact .inr rfl
    · exact .inl rfl

theorem text_well_formed {text : List byte} {cs : List command_t} (lines : Text Accepted text cs) :
    ∀ c ∈ cs, WellFormed c := by
  induction lines with
  | nil => simp
  | cons first _ ih =>
    intro c member
    rcases List.mem_cons.mp member with rfl | member
    · exact line_well_formed first
    · exact ih c member

/-! ### Printed lines -/

theorem sized_size_to_char {data_size : Nat} (size : data_size = 1 ∨ data_size = sizeof_word) :
    Sized (size_to_char data_size) data_size := by
  rcases size with rfl | rfl
  · exact .byte
  · exact .word

theorem printed_address {vaddr : virt_addr_t} (reserved : vaddr.reserved = 0) :
    Written.Address (print_hex 16 (virt_addr_t_to_uint64_t vaddr).toNat) vaddr := by
  have fits : (virt_addr_t_to_uint64_t vaddr).toNat < 16 ^ 16 := (virt_addr_t_to_uint64_t vaddr).isLt
  have length := print_hex_length le_rfl fits
  refine ⟨le_antisymm length.2 length.1,reserved,_,print_hex_correct 16 _,?_⟩
  rw [virt_addr_t_to_uint64_t_correct]
  exact (Nat.mod_eq_of_lt (number_lt vaddr)).symm

theorem printed_value {width : Nat} (some_digit : 1 ≤ width) (short : width ≤ 8) (value : BitVec 32) :
    Written.Value (print_hex width value.toNat) value := by
  have fits : value.toNat < 16 ^ 8 := value.isLt
  have length := print_hex_length short fits
  exact ⟨some_digit.trans length.1,length.2,print_hex_correct width _⟩

/-- A well-formed command is printed as a line in the file format. -/
theorem print_command_written {c : command_t} (formed : WellFormed c) : Line Written (print_command c) c := by
  obtain ⟨order,type,data_size,write_data,vaddr⟩ := c
  obtain ⟨size,instruction,read,reserved⟩ := formed
  simp only at size instruction read reserved
  have address := printed_address reserved
  have sized := sized_size_to_char size
  cases order with
  | READ =>
    obtain rfl := read rfl
    cases type with
    | INSTRUCTION =>
      obtain ⟨_,rfl⟩ := instruction rfl
      exact .read_instruction one_blank one_blank address
    | DATA => exact .read_data one_blank sized one_blank address
  | WRITE =>
    cases type with
    | INSTRUCTION => cases (instruction rfl).1
    | DATA =>
      rcases size with rfl | rfl
      · have value := printed_value (show 1 ≤ 2 by decide) (by decide) write_data
        have line := Line.write_data one_blank sized one_blank value one_blank address
        simpa [print_command,at_address,order_to_char,type_to_char,sizeof_word] using line
      · have value := printed_value (show 1 ≤ 8 by decide) (by decide) write_data
        have line := Line.write_data one_blank sized one_blank value one_blank address
        simpa [print_command,at_address,order_to_char,type_to_char] using line

/-- A printed line is far too short for a counter to wrap. -/
theorem print_command_length (c : command_t) : (print_command c).length ≤ 64 := by
  have address := (print_hex_length (le_refl 16) (virt_addr_t_to_uint64_t c.vaddr).isLt).2
  have as_word := (print_hex_length (le_refl 8) c.write_data.isLt).2
  have as_byte := (print_hex_length (show 2 ≤ 8 by decide) c.write_data.isLt).2
  simp only [print_command]
  split_ifs <;> simp only [List.length_append,List.length_cons,List.length_nil] <;> omega

theorem print_command_accepted {c : command_t} (formed : WellFormed c) : Line Accepted (print_command c) c :=
  written_line (print_command_written formed) (Nat.lt_of_le_of_lt (print_command_length c) (by decide))

theorem printed_text {cs : List command_t} (formed : ∀ c ∈ cs, WellFormed c) :
    Text Accepted (cs.map print_command).flatten cs := by
  induction cs with
  | nil => exact .nil
  | cons c cs ih =>
    rw [List.map_cons,List.flatten_cons]
    exact .cons (print_command_accepted (formed c List.mem_cons_self))
      (ih (fun d member => formed d (List.mem_cons_of_mem c member)))

/-! ### Whole programs -/

/-- A program that holds its lines prints them one after the other. -/
theorem program_print_correct {program : program_t} (holds : program.nb_lines ≤ program.listing.length) :
    program_print program = some (.ERR_NONE,(program.commands.map print_command).flatten) := by
  have turns : ∀ n, n ≤ program.listing.length →
      (List.range n).mapM (fun i => program.listing[i]?.map print_command) =
        some ((program.listing.take n).map print_command) := by
    intro n
    induction n with
    | zero => intro _; rfl
    | succ n ih =>
      intro inside
      have here : program.listing[n]? = some program.listing[n] := List.getElem?_eq_getElem inside
      rw [List.range_succ,List.mapM_append,ih (Nat.le_of_succ_le inside),List.take_succ_eq_append_getElem inside,
        List.map_append]
      simp only [List.mapM_cons,List.mapM_nil,here]
      rfl
  rw [program_print,turns _ holds]
  rfl

/-- Reading what was printed gives the commands back. -/
theorem print_read {program start : program_t} (short : program.nb_lines ≤ 100)
    (holds : program.nb_lines ≤ program.listing.length) (formed : ∀ c ∈ program.commands, WellFormed c)
    (room : program.nb_lines ≤ start.listing.length) :
    ∃ text after, program_print program = some (.ERR_NONE,text) ∧
      program_read_into start (fopen text) = some (.ERR_NONE,after) ∧ after.commands = program.commands := by
  have length : program.commands.length = program.nb_lines := by
    rw [program_t.commands,List.length_take]
    omega
  have reads : Reads Accepted (program.commands.map print_command).flatten program.commands :=
    ⟨_,[],(List.append_nil _).symm,printed_text formed,by omega,.inl rfl⟩
  exact ⟨_,_,program_print_correct holds,program_read_complete reads (by omega),filled_commands _ _⟩

/-- What is read is well formed, and there is no more than the limit of it. -/
theorem read_well_formed {start after : program_t} {text : List byte}
    (executed : program_read_into start (fopen text) = some (.ERR_NONE,after)) :
    after.nb_lines ≤ 100 ∧ after.nb_lines ≤ after.listing.length ∧ ∀ c ∈ after.commands, WellFormed c := by
  obtain ⟨cs,⟨whole,rest,rfl,lines,enough,_⟩,room,rfl⟩ := program_read_sound executed
  refine ⟨enough,?_,?_⟩
  · rw [filled,place_length (by omega)]
    exact room
  · rw [filled_commands]
    exact text_well_formed lines

/-- Printing and reading are inverse on well-formed commands, and all that is
    read is well formed. -/
theorem print_read_round_trip :
    (∀ program start : program_t, program.nb_lines ≤ 100 → program.nb_lines ≤ program.listing.length →
      (∀ c ∈ program.commands, WellFormed c) → program.nb_lines ≤ start.listing.length →
      ∃ text after, program_print program = some (.ERR_NONE,text) ∧
        program_read_into start (fopen text) = some (.ERR_NONE,after) ∧ after.commands = program.commands) ∧
    (∀ (start after : program_t) (text : List byte), program_read_into start (fopen text) = some (.ERR_NONE,after) →
      (∀ c ∈ after.commands, WellFormed c) ∧
        ∀ start : program_t, after.nb_lines ≤ start.listing.length →
          ∃ printed again, program_print after = some (.ERR_NONE,printed) ∧
            program_read_into start (fopen printed) = some (.ERR_NONE,again) ∧ again.commands = after.commands) := by
  refine ⟨fun program start => print_read,?_⟩
  intro start after text executed
  obtain ⟨short,holds,formed⟩ := read_well_formed executed
  exact ⟨formed,fun start room => print_read short holds formed room⟩

theorem print_read_round_trip_two_lines :
    (∃ text after, program_print ⟨[read_zero,write_byte],2,2⟩ = some (.ERR_NONE,text) ∧
      program_read_into program_init.2 (fopen text) = some (.ERR_NONE,after) ∧ after.commands = [read_zero,write_byte]) ∧
    ∀ c ∈ (filled program_init.2 [read_zero,write_byte]).commands, WellFormed c := by
  constructor
  · exact print_read_round_trip.1 ⟨[read_zero,write_byte],2,2⟩ program_init.2 (by decide) (by decide)
      (text_well_formed two_lines_accepted) (by decide)
  · have reads := text_reads two_lines_accepted (by decide)
    exact (print_read_round_trip.2 program_init.2 _ _ (program_read_complete reads (by decide))).1

end CacheEmulator.ProgramPrint
