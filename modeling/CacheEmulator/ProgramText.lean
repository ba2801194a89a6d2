import CacheEmulator.ProgramBuild
import CacheEmulator.ProgramPrint

/-!
What the text of a program tells: `program_print` over programs of any length
that `program_add_command` has built. The reserved bits of an address and the
data of a read are not printed.
-/
namespace CacheEmulator.ProgramText
open CacheEmulator.Error CacheEmulator.Addr CacheEmulator.Stdio CacheEmulator.Numeral CacheEmulator.Commands
open CacheEmulator.CommandGrammar CacheEmulator.ProgramRead CacheEmulator.ProgramBuild CacheEmulator.ProgramPrint
open CacheEmulator.Printing (Tells tells_text tells_symbol)
open CacheEmulator.Machine (run)

/-- Commands that make the same access. -/
structure Alike (c c' : command_t) : Prop where
  order : c.order = c'.order
  type : c.type = c'.type
  data_size : c.data_size = c'.data_size
  write_data : c.order = .WRITE → c.write_data = c'.write_data
  vaddr : virt_addr_t_to_uint64_t c.vaddr = virt_addr_t_to_uint64_t c'.vaddr

/-! ### One line -/

section
variable {known : command_t → command_t → Prop}

theorem tells_order : Tells known (fun c => [order_to_char c.order,chr ' ']) (fun c c' => c.order = c'.order) := by
  intro c c' _ rest rest'
  have told : order_to_char c.order = order_to_char c'.order ↔ c.order = c'.order := by
    cases c.order <;> cases c'.order <;> decide
  simp [told]

theorem tells_type : Tells known (fun c => [type_to_char c.type]) (fun c c' => c.type = c'.type) := by
  refine (tells_symbol (fun c : command_t => type_to_char c.type)).congr (fun c c' _ => ?_)
  cases c.type <;> cases c'.type <;> decide

/-- The size is printed for data; an instruction has but one. -/
theorem tells_size (here : ∀ c c', known c c' → (Acceptable c ∧ Acceptable c') ∧ c.type = c'.type) :
    Tells known (fun c => if c.type = .DATA then [size_to_char c.data_size] else [])
      (fun c c' => c.data_size = c'.data_size) := by
  have choice := Tells.choice (fun c : command_t => c.type = .DATA) (fun c c' knows => by rw [(here c c' knows).2])
    (tells_symbol (fun c : command_t => size_to_char c.data_size))
    (@tells_text command_t byte (fun c c' => known c c' ∧ ¬ c.type = .DATA) [])
  refine choice.congr (fun c c' knows => ?_)
  obtain ⟨⟨⟨size,instruction,_⟩,⟨size',instruction',_⟩⟩,type⟩ := here c c' knows
  cases kind : c.type with
  | INSTRUCTION =>
    have whole : c.data_size = sizeof_word := by_contra (fun other => instruction ⟨kind,other⟩)
    have whole' : c'.data_size = sizeof_word := by_contra (fun other => instruction' ⟨type ▸ kind,other⟩)
    simp [whole,whole']
  | DATA =>
    simp only [forall_const,not_true_eq_false,false_implies,and_true]
    rcases size with size | size <;> rcases size' with size' | size' <;> rw [size,size'] <;> decide

theorem tells_value (width : Nat) : Tells known
    (fun c => [chr '0',chr 'x'] ++ print_hex width c.write_data.toNat ++ [chr ' '])
    (fun c c' => c.write_data = c'.write_data) := by
  have blank : ∀ d < 16, hex_char d ≠ chr ' ' := by decide
  have digits := @tells_hex command_t known (chr ' ') [] 32 blank (fun c => c.write_data) width
  simp only [List.append_assoc]
  exact digits.after_text [chr '0',chr 'x']

/-- The data is printed for a write, in a width that the size gives. -/
theorem tells_write_data (here : ∀ c c', known c c' → c.order = c'.order ∧ c.data_size = c'.data_size) :
    Tells known (fun c =>
      if c.order = .WRITE then
        if c.data_size = sizeof_word then [chr '0',chr 'x'] ++ print_hex 8 c.write_data.toNat ++ [chr ' ']
        else [chr '0',chr 'x'] ++ print_hex 2 c.write_data.toNat ++ [chr ' ']
      else []) (fun c c' => c.order = .WRITE → c.write_data = c'.write_data) := by
  have wide : Tells (fun c c' => known c c' ∧ c.order = .WRITE) _ _ :=
    Tells.choice (fun c : command_t => c.data_size = sizeof_word) (fun c c' knows => by rw [(here c c' knows.1).2])
      (tells_value 8) (tells_value 2)
  have choice := Tells.choice (fun c : command_t => c.order = .WRITE) (fun c c' knows => by rw [(here c c' knows).1]) wide
    (@tells_text command_t byte (fun c c' => known c c' ∧ ¬ c.order = .WRITE) [])
  refine choice.congr (fun c c' _ => ?_)
  tauto

theorem tells_address : Tells known
    (fun c => [chr '@',chr '0',chr 'x'] ++ print_hex 16 (virt_addr_t_to_uint64_t c.vaddr).toNat ++ [chr '\n'])
    (fun c c' => virt_addr_t_to_uint64_t c.vaddr = virt_addr_t_to_uint64_t c'.vaddr) := by
  have newline : ∀ d < 16, hex_char d ≠ chr '\n' := by decide
  have digits := @tells_hex command_t known (chr '\n') [] 64 newline (fun c => virt_addr_t_to_uint64_t c.vaddr) 16
  simp only [List.append_assoc]
  exact digits.after_text [chr '@',chr '0',chr 'x']

end

/-- A printed line tells the access of an acceptable command, and where the line ends. -/
theorem tells_command : Tells (fun c c' => Acceptable c ∧ Acceptable c') print_command Alike := by
  have kind : Tells (fun c c' => Acceptable c ∧ Acceptable c') _ _ := tells_order.append tells_type
  have sized := kind.append (tells_size (fun c c' knows => ⟨knows.1,knows.2.2⟩))
  have data := (sized.append (tells_text [chr ' '])).append
    (tells_write_data (fun c c' knows => ⟨knows.2.1.1.1,knows.2.1.2⟩))
  refine (data.append tells_address).congr (fun c c' _ => ?_)
  constructor
  · rintro ⟨⟨⟨⟨⟨order,type⟩,size⟩,_⟩,written⟩,address⟩
    exact ⟨order,type,size,written,address⟩
  · rintro ⟨order,type,size,written,address⟩
    exact ⟨⟨⟨⟨⟨order,type⟩,size⟩,trivial⟩,written⟩,address⟩

theorem print_command_ne_nil (c : command_t) : print_command c ≠ [] := by
  simp [print_command]

/-! ### Programs that were built -/

/-- The commands that were added are acceptable. -/
theorem added_acceptable {calls : List call} {codes : List error_code} (answered : List.Forall₂ Answered calls codes) :
    ∀ c ∈ added calls codes, Acceptable c := by
  induction answered with
  | nil =>
    intro c member
    cases member
  | @cons first code calls codes answer _ ih =>
    intro c member
    rw [added_cons,List.mem_append] at member
    refine member.elim (fun here => ?_) (ih c)
    cases first with
    | shrink unset => cases code <;> cases here
    | add unset command =>
      rcases answer with ⟨acceptable,rfl⟩ | ⟨_,rfl⟩
      · exact List.mem_singleton.mp here ▸ acceptable
      · cases here

/-- A program that was built is printed line by line. -/
theorem built_printed (calls : List call) : ∃ codes last, run step program_init.2 calls = some (codes,last) ∧
    program_print last = some (.ERR_NONE,(added calls codes).flatMap print_command) ∧
    last.nb_lines = (added calls codes).length ∧ ∀ c ∈ added calls codes, Acceptable c := by
  obtain ⟨codes,last,ran,answered,holds,commands⟩ := run_added calls init_holds
  have none_yet : program_init.2.commands = [] := rfl
  rw [none_yet,List.nil_append] at commands
  have within : last.nb_lines ≤ last.listing.length := by rw [holds.block]; exact holds.within
  refine ⟨codes,last,ran,?_,?_,added_acceptable answered⟩
  · rw [program_print_correct within,commands,List.flatMap_def]
  · rw [← commands,program_t.commands,List.length_take]
    exact (Nat.min_eq_left within).symm

/-- Two programs, built by any calls that add and shrink, are printed as the same text just when
    the commands that were accepted make the same accesses in the same order. -/
theorem printed_programs (calls calls' : List call) :
    ∃ codes codes' last last' text text', run step program_init.2 calls = some (codes,last) ∧
      run step program_init.2 calls' = some (codes',last') ∧ program_print last = some (.ERR_NONE,text) ∧
      program_print last' = some (.ERR_NONE,text') ∧
      (text = text' ↔ List.Forall₂ Alike (added calls codes) (added calls' codes')) := by
  obtain ⟨codes,last,ran,printed,_,acceptable⟩ := built_printed calls
  obtain ⟨codes',last',ran',printed',_,acceptable'⟩ := built_printed calls'
  exact ⟨codes,codes',last,last',_,_,ran,ran',printed,printed',
    tells_command.sequence_of print_command_ne_nil _ _ acceptable acceptable'⟩

/-! ### Reading what was printed -/

/-- What of a command is in the text. -/
def canonical (c : command_t) : command_t :=
  { c with
    write_data := if c.order = .WRITE then c.write_data else 0
    vaddr := { c.vaddr with reserved := 0 } }

theorem canonical_address (vaddr : virt_addr_t) :
    virt_addr_t_to_uint64_t { vaddr with reserved := 0 } = virt_addr_t_to_uint64_t vaddr := by
  apply BitVec.eq_of_toNat_eq
  rw [virt_addr_t_to_uint64_t_correct,virt_addr_t_to_uint64_t_correct]
  rfl

theorem canonical_printed (c : command_t) : print_command (canonical c) = print_command c := by
  unfold print_command canonical
  rw [canonical_address]
  by_cases write : c.order = .WRITE <;> simp [write]

theorem canonical_formed {c : command_t} (acceptable : Acceptable c) : WellFormed (canonical c) := by
  obtain ⟨size,instruction,write,_⟩ := acceptable
  refine ⟨size.symm,?_,?_,rfl⟩
  · intro kind
    refine ⟨?_,by_contra (fun other => instruction ⟨kind,other⟩)⟩
    cases order : c.order with
    | READ => exact order
    | WRITE => exact absurd ⟨order,kind⟩ write
  · intro read
    have notWrite : ¬ c.order = .WRITE := fun order => by cases order.symm.trans read
    simp [canonical,notWrite]

/-- The text of well-formed commands is read as these, and what was read is printed as the same text. -/
theorem reread {cs : List command_t} (formed : ∀ c ∈ cs, WellFormed c) (short : cs.length ≤ 100) {start : program_t}
    (room : cs.length ≤ start.listing.length) :
    ∃ again, program_read_into start (fopen (cs.flatMap print_command)) = some (.ERR_NONE,again) ∧ again.commands = cs ∧
      program_print again = some (.ERR_NONE,cs.flatMap print_command) := by
  have lines : Reads Accepted (cs.flatMap print_command) cs :=
    ⟨_,[],(List.append_nil _).symm,List.flatMap_def ▸ printed_text formed,short,.inl rfl⟩
  have within : (filled start cs).nb_lines ≤ (filled start cs).listing.length := by
    rw [filled,place_length (by omega)]
    exact room
  refine ⟨_,program_read_complete lines room,filled_commands _ _,?_⟩
  rw [program_print_correct within,filled_commands,List.flatMap_def]

/-- Reading the text of a built program gives its commands without what is not printed, and
    what was read is printed as the same text again. -/
theorem printed_read_printed (calls : List call) : ∃ codes last text, run step program_init.2 calls = some (codes,last) ∧
    program_print last = some (.ERR_NONE,text) ∧
    ∀ start : program_t, last.nb_lines ≤ 100 → last.nb_lines ≤ start.listing.length →
      ∃ again, program_read_into start (fopen text) = some (.ERR_NONE,again) ∧
        again.commands = (added calls codes).map canonical ∧ program_print again = some (.ERR_NONE,text) := by
  obtain ⟨codes,last,ran,printed,count,acceptable⟩ := built_printed calls
  refine ⟨codes,last,_,ran,printed,?_⟩
  intro start short room
  have formed : ∀ c ∈ (added calls codes).map canonical, WellFormed c := by
    intro c member
    obtain ⟨d,inside,rfl⟩ := List.mem_map.mp member
    exact canonical_formed (acceptable d inside)
  have same : ((added calls codes).map canonical).flatMap print_command = (added calls codes).flatMap print_command := by
    rw [List.flatMap_map]
    exact List.flatMap_congr (fun c _ => canonical_printed c)
  rw [← same]
  exact reread formed (by rwa [List.length_map,← count]) (by rwa [List.length_map,← count])

/-! ### `test-commands.c` -/

theorem printed_written {cs : List command_t} (formed : ∀ c ∈ cs, WellFormed c) :
    Text Written (cs.flatMap print_command) cs := by
  induction cs with
  | nil => exact .nil
  | cons c cs ih =>
    exact .cons (print_command_written (formed c List.mem_cons_self))
      (ih (fun d member => formed d (List.mem_cons_of_mem c member)))

/-- The text that `main` writes for the file it is given. Where there is no file, the program is
    not initialised, and `program_free` is given a pointer that was never set. -/
def commands_main (garbage : program_t) (file : Option (List byte)) : Option (List byte) := do
  if file = none then none else
  let read ← program_read file garbage
  if read.1 = .ERR_NONE then (program_print read.2).map Prod.snd else some []

/-- What `main` has written it writes again when it is given that: its text is a program in the
    file format, in which it changes nothing. -/
theorem commands_main_again {garbage : program_t} {file : Option (List byte)} {output : List byte}
    (ran : commands_main garbage file = some output) :
    commands_main garbage (some output) = some output ∧ ∃ cs, cs.length ≤ INIT_ALLOCATED ∧ Text Written output cs := by
  have again : ∀ cs : List command_t, (∀ c ∈ cs, WellFormed c) → cs.length ≤ INIT_ALLOCATED →
      commands_main garbage (some (cs.flatMap print_command)) = some (cs.flatMap print_command) ∧
        Text Written (cs.flatMap print_command) cs := by
    intro cs formed few
    obtain ⟨after,read,_,printed⟩ :=
      reread formed (few.trans (by decide)) (show cs.length ≤ program_init.2.listing.length from few)
    refine ⟨?_,printed_written formed⟩
    have opened : program_read (some (cs.flatMap print_command)) garbage = some (.ERR_NONE,after) := read
    simp only [commands_main,opened,printed,reduceCtorEq,↓reduceIte,Option.bind_eq_bind,Option.bind_some,Option.map_some]
  cases file with
  | none => simp [commands_main] at ran
  | some text =>
    simp only [commands_main,Option.bind_eq_bind,Option.bind_eq_some_iff,reduceCtorEq,↓reduceIte] at ran
    obtain ⟨⟨code,after⟩,read,ran⟩ := ran
    by_cases accepted : code = .ERR_NONE
    · subst accepted
      have into : program_read_into program_init.2 (fopen text) = some (.ERR_NONE,after) := read
      obtain ⟨cs,⟨whole,rest,rfl,lines,_,_⟩,room,rfl⟩ := program_read_sound into
      obtain ⟨_,within,_⟩ := read_well_formed into
      simp only [↓reduceIte,program_print_correct within,filled_commands,Option.map_some,Option.some.injEq] at ran
      rw [← ran,← List.flatMap_def]
      obtain ⟨same,written⟩ := again cs (text_well_formed lines) room
      exact ⟨same,cs,room,written⟩
    · simp only [accepted,↓reduceIte,Option.some.injEq] at ran
      obtain ⟨same,written⟩ := again [] (by simp) (Nat.zero_le _)
      exact ran ▸ ⟨same,[],Nat.zero_le _,written⟩

theorem commands_main_again_one_line :
    commands_main program_init.2 (some read_zero_line) = some (print_command read_zero) ∧
    commands_main program_init.2 (some (print_command read_zero)) = some (print_command read_zero) ∧
      ∃ cs, cs.length ≤ INIT_ALLOCATED ∧ Text Written (print_command read_zero) cs := by
  have reads := line_reads (written_line read_zero_written (by decide))
  have opened : program_read (some read_zero_line) program_init.2 = some (.ERR_NONE,filled program_init.2 [read_zero]) :=
    program_read_complete reads (by decide)
  have ran : commands_main program_init.2 (some read_zero_line) = some (print_command read_zero) := by
    have printed := program_print_correct (show (filled program_init.2 [read_zero]).nb_lines ≤ _ by decide)
    rw [filled_commands,List.map_singleton,List.flatten_singleton] at printed
    simp only [commands_main,opened,printed,reduceCtorEq,↓reduceIte,Option.bind_eq_bind,Option.bind_some,Option.map_some]
  exact ⟨ran,commands_main_again ran⟩

end CacheEmulator.ProgramText
