import CacheEmulator.Machine
import CacheEmulator.ProgramRead

/-!
Programs built call by call: what the block of commands is worth over any run of
`program_add_command` and `program_shrink`, and when a program that was read can
be built again.
-/
namespace CacheEmulator.ProgramBuild
open CacheEmulator.Error CacheEmulator.Addr CacheEmulator.Stdio CacheEmulator.Commands CacheEmulator.CommandGrammar
open CacheEmulator.ProgramRead
open CacheEmulator.Machine (run run_cons_of)

/-- A call, with what the memory that it may get holds. -/
inductive call
  | add (unset : Nat → command_t) (command : command_t)
  | shrink (unset : Nat → command_t)

def step (program : program_t) : call → Option (error_code × program_t)
  | .add unset command => program_add_command unset program command
  | .shrink unset => some (program_shrink unset program)

/-- The commands whose calls were answered with success, in order. -/
def added : List call → List error_code → List command_t
  | .add _ command :: calls, .ERR_NONE :: codes => command :: added calls codes
  | _ :: calls, _ :: codes => added calls codes
  | _, _ => []

/-- What every call relies on and keeps. -/
structure Holds (program : program_t) : Prop where
  some_room : 0 < program.allocated
  within : program.nb_lines ≤ program.allocated
  block : program.listing.length = program.allocated

/-- The commands that pass the tests of `program_add_command`. -/
def Acceptable (command : command_t) : Prop :=
  (command.data_size = sizeof_word ∨ command.data_size = 1) ∧
  ¬ (command.type = .INSTRUCTION ∧ command.data_size ≠ sizeof_word) ∧
  ¬ (command.order = .WRITE ∧ command.type = .INSTRUCTION) ∧
  command.vaddr.page_offset.toNat % 8 = 0

/-- The answer to a call: just an acceptable command is added. -/
def Answered : call → error_code → Prop
  | .add _ command, code => (Acceptable command ∧ code = .ERR_NONE) ∨ (¬ Acceptable command ∧ code = .ERR_BAD_PARAMETER)
  | .shrink _, code => code = .ERR_NONE

/-! ### The block -/

theorem realloc_length (unset : Nat → command_t) (listing : List command_t) (size : Nat) :
    (realloc unset listing size).length = size := by
  simp [realloc]

/-- The common part is kept. -/
theorem realloc_take (unset : Nat → command_t) {listing : List command_t} {size n : Nat} (old : n ≤ listing.length)
    (new : n ≤ size) : (realloc unset listing size).take n = listing.take n := by
  apply List.ext_getElem
  · simp [realloc]
    omega
  · intro i left right
    have inside : i < listing.length := by
      rw [List.length_take] at right
      omega
    simp [realloc,inside]

/-- The growth loop ends with room for one more line, and keeps the lines. -/
theorem grow_correct (unset : Nat → command_t) : ∀ {turns : Nat} {program : program_t}, Holds program →
    program.nb_lines < program.allocated * 2 ^ turns →
    ∃ after, grow unset turns program = some after ∧ Holds after ∧ after.nb_lines < after.allocated ∧
      after.nb_lines = program.nb_lines ∧ after.commands = program.commands := by
  intro turns
  induction turns with
  | zero =>
    intro program holds enough
    have roomy : ¬ program.nb_lines ≥ program.allocated := by omega
    exact ⟨program,by rw [grow,if_neg roomy],holds,by omega,rfl,rfl⟩
  | succ turns ih =>
    intro program holds enough
    by_cases full : program.nb_lines ≥ program.allocated
    · have grown : Holds { program with
          allocated := program.allocated * 2
          listing := realloc unset program.listing (program.allocated * 2) } :=
        ⟨Nat.mul_pos holds.some_room (by decide),holds.within.trans (Nat.le_mul_of_pos_right _ (by decide)),
          realloc_length ..⟩
      obtain ⟨after,executed,kept,room,lines,commands⟩ := ih grown (by
        simp only
        rw [Nat.mul_assoc,← Nat.pow_succ']
        exact enough)
      refine ⟨after,by rw [grow,if_pos full,executed],kept,room,lines,commands.trans ?_⟩
      exact realloc_take unset (by rw [holds.block]; exact holds.within) grown.within
    · exact ⟨program,by rw [grow,if_neg full],holds,by omega,rfl,rfl⟩

/-- A block of no commands is doubled for ever. -/
theorem grow_never_ends (unset : Nat → command_t) (turns : Nat) {program : program_t} (empty : program.allocated = 0) :
    grow unset turns program = none := by
  induction turns generalizing program with
  | zero => rw [grow,if_pos (by omega)]
  | succ turns ih =>
    rw [grow,if_pos (by omega)]
    exact ih (by simp [empty])

/-! ### The calls -/

theorem init_holds : Holds program_init.2 := ⟨by decide,by decide,rfl⟩

theorem aligned_iff (offset : Nat) : (offset % 8 = 0 ∨ offset % 8 * sizeof_word = 0) ↔ offset % 8 = 0 := by
  simp only [sizeof_word]
  omega

theorem add_rejected (unset : Nat → command_t) (program : program_t) {command : command_t}
    (unacceptable : ¬ Acceptable command) :
    program_add_command unset program command = some (.ERR_BAD_PARAMETER,program) := by
  by_contra other
  unfold program_add_command at other
  simp only [aligned_iff] at other
  apply unacceptable
  by_cases size : command.data_size = sizeof_word ∨ command.data_size = 1
  · by_cases instruction : ¬ (command.type = .INSTRUCTION ∧ command.data_size ≠ sizeof_word)
    · by_cases write : ¬ (command.order = .WRITE ∧ command.type = .INSTRUCTION)
      · by_cases aligned : command.vaddr.page_offset.toNat % 8 = 0
        · exact ⟨size,instruction,write,aligned⟩
        · rw [require_holds size,require_holds instruction,require_holds write,require_fails aligned] at other
          exact absurd rfl other
      · rw [require_holds size,require_holds instruction,require_fails write] at other
        exact absurd rfl other
    · rw [require_holds size,require_fails instruction] at other
      exact absurd rfl other
  · rw [require_fails size] at other
    exact absurd rfl other

theorem add_accepted (unset : Nat → command_t) {program : program_t} (holds : Holds program) {command : command_t}
    (acceptable : Acceptable command) :
    ∃ after, program_add_command unset program command = some (.ERR_NONE,after) ∧ Holds after ∧
      after.commands = program.commands ++ [command] := by
  obtain ⟨size,instruction,write,aligned⟩ := acceptable
  have enough : program.nb_lines < program.allocated * 2 ^ program.nb_lines :=
    calc program.nb_lines < 2 ^ program.nb_lines := Nat.lt_two_pow_self
      _ ≤ program.allocated * 2 ^ program.nb_lines := Nat.le_mul_of_pos_left _ holds.some_room
  obtain ⟨grown,executed,kept,room,lines,commands⟩ := grow_correct unset holds enough
  have inside : grown.nb_lines < grown.listing.length := by rw [kept.block]; exact room
  refine ⟨{ grown with listing := grown.listing.set grown.nb_lines command, nb_lines := grown.nb_lines + 1 },?_,
    ⟨kept.some_room,room,(List.length_set ..).trans kept.block⟩,?_⟩
  · unfold program_add_command
    rw [require_holds size,require_holds instruction,require_holds write,require_holds (.inl aligned),executed]
    exact if_pos inside
  · rw [← commands]
    simp only [program_t.commands]
    rw [List.take_set,List.take_succ_eq_append_getElem inside,List.set_append_right _ _ (by simp)]
    simp [Nat.min_eq_left inside.le]

theorem shrink_correct (unset : Nat → command_t) {program : program_t} (holds : Holds program) :
    ∃ after, program_shrink unset program = (.ERR_NONE,after) ∧ Holds after ∧ after.commands = program.commands := by
  by_cases few : program.nb_lines ≤ 10
  · exact ⟨program,by rw [program_shrink,if_neg (not_not_intro few)],holds,rfl⟩
  · refine ⟨_,by rw [program_shrink,if_pos few],⟨by simp only; omega,le_rfl,realloc_length ..⟩,?_⟩
    exact realloc_take unset (by rw [holds.block]; exact holds.within) le_rfl

/-! ### Runs of calls -/

/-- A call on a block that holds is answered, and adds its command or changes no line. -/
theorem step_added {program : program_t} (holds : Holds program) (c : call) :
    ∃ code next, step program c = some (code,next) ∧ Answered c code ∧ Holds next ∧
      next.commands = program.commands ++ added [c] [code] := by
  cases c with
  | add unset command =>
    by_cases acceptable : Acceptable command
    · obtain ⟨after,executed,kept,commands⟩ := add_accepted unset holds acceptable
      exact ⟨_,after,executed,.inl ⟨acceptable,rfl⟩,kept,commands⟩
    · exact ⟨_,program,add_rejected unset program acceptable,.inr ⟨acceptable,rfl⟩,holds,(List.append_nil _).symm⟩
  | shrink unset =>
    obtain ⟨after,executed,kept,commands⟩ := shrink_correct unset holds
    exact ⟨_,after,congrArg some executed,rfl,kept,commands.trans (List.append_nil _).symm⟩

theorem added_cons (c : call) (code : error_code) (calls : List call) (codes : List error_code) :
    added (c :: calls) (code :: codes) = added [c] [code] ++ added calls codes := by
  cases c <;> cases code <;> rfl

theorem run_added : ∀ (calls : List call) {program : program_t}, Holds program →
    ∃ codes last, run step program calls = some (codes,last) ∧ List.Forall₂ Answered calls codes ∧ Holds last ∧
      last.commands = program.commands ++ added calls codes := by
  intro calls
  induction calls with
  | nil =>
    intro program holds
    exact ⟨[],program,rfl,.nil,holds,(List.append_nil _).symm⟩
  | cons c calls ih =>
    intro program holds
    obtain ⟨code,next,stepped,answered,kept,commands⟩ := step_added holds c
    obtain ⟨codes,last,ran,others,final,later⟩ := ih kept
    refine ⟨code :: codes,last,?_,.cons answered others,final,?_⟩
    · rw [run_cons_of stepped,ran]
      rfl
    · rw [later,commands,added_cons c code calls codes,List.append_assoc]

/-- Every run of calls from a new program is answered, its growth loops end, its
    lines stay within the block and are the accepted commands in order, which are the
    acceptable ones, and the next rejection changes nothing. -/
theorem building_correct (calls : List call) :
    ∃ codes last, run step program_init.2 calls = some (codes,last) ∧ List.Forall₂ Answered calls codes ∧
      last.nb_lines ≤ last.allocated ∧ last.listing.length = last.allocated ∧
      last.commands = added calls codes ∧ last.nb_lines = (added calls codes).length ∧
      ∀ (unset : Nat → command_t) (command : command_t), ∃ code next,
        program_add_command unset last command = some (code,next) ∧ (code = .ERR_NONE ↔ Acceptable command) ∧
          (code ≠ .ERR_NONE → next = last) := by
  obtain ⟨codes,last,ran,answered,holds,commands⟩ := run_added calls init_holds
  have none_yet : program_init.2.commands = [] := rfl
  rw [none_yet,List.nil_append] at commands
  refine ⟨codes,last,ran,answered,holds.within,holds.block,commands,?_,?_⟩
  · rw [← commands,program_t.commands,List.length_take,holds.block]
    exact (Nat.min_eq_left holds.within).symm
  · intro unset command
    by_cases acceptable : Acceptable command
    · obtain ⟨after,executed,_⟩ := add_accepted unset holds acceptable
      exact ⟨_,after,executed,iff_of_true rfl acceptable,fun failed => absurd rfl failed⟩
    · exact ⟨_,last,add_rejected unset last acceptable,iff_of_false (by simp) acceptable,fun _ => rfl⟩

/-! ### Building what was read -/

/-- The lines of the parser whose address ends in the digit 0 or 8. -/
def Aligned : Lexicon where
  Blanks := Accepted.Blanks
  Value := Accepted.Value
  Address w vaddr := Accepted.Address w vaddr ∧ (w.getLast? = some (chr '0') ∨ w.getLast? = some (chr '8'))

/-- Every command is accepted, and the lines are the commands again. -/
def Rebuilt (unset : Nat → command_t) (cs : List command_t) : Prop :=
  ∃ codes last, run step program_init.2 (cs.map (call.add unset)) = some (codes,last) ∧
    (∀ code ∈ codes, code = .ERR_NONE) ∧ last.commands = cs

theorem hex_char_to_int_lt (c : byte) : hex_char_to_int c < 16 := by
  unfold hex_char_to_int
  simp only [show (chr '0').toNat = 48 from rfl,show (chr '9').toNat = 57 from rfl,show (chr 'A').toNat = 65 from rfl,
    show (chr 'F').toNat = 70 from rfl,error_code.value]
  split_ifs <;> omega

theorem hex_char_to_int_aligned (c : byte) : hex_char_to_int c % 8 = 0 ↔ c = chr '0' ∨ c = chr '8' := by
  unfold hex_char_to_int
  simp only [← BitVec.toNat_inj,show (chr '0').toNat = 48 from rfl,show (chr '9').toNat = 57 from rfl,
    show (chr 'A').toNat = 65 from rfl,show (chr 'F').toNat = 70 from rfl,show (chr '8').toNat = 56 from rfl,
    error_code.value]
  split_ifs
  · omega
  · omega
  · rw [false_iff]
    omega

/-- The last digit of an address tells its alignment. -/
theorem aligned_address {w : List byte} {vaddr : virt_addr_t} (address : Accepted.Address w vaddr) :
    vaddr.page_offset.toNat % 8 = 0 ↔ w.getLast? = some (chr '0') ∨ w.getLast? = some (chr '8') := by
  obtain ⟨sixteen,_,numbered⟩ := address
  rcases List.eq_nil_or_concat' w with rfl | ⟨init,c,rfl⟩
  · cases sixteen
  · have last : (read_word (init ++ [c]) : BitVec 64) = push_digit (read_word init) c := by
      simp [read_word]
    have small := hex_char_to_int_lt c
    rw [last,push_digit,Numeral.toNat_shift_or_digit _ small,number,PAGE_OFFSET] at numbered
    have low : vaddr.page_offset.toNat % 8 = hex_char_to_int c % 8 := by omega
    rw [low,hex_char_to_int_aligned]
    simp

theorem aligned_line {line : List byte} {c : command_t} (accepted : Line Accepted line c)
    (acceptable : Acceptable c) : Line Aligned line c := by
  have aligned := acceptable.2.2.2
  cases accepted with
  | read_instruction first second address =>
    exact .read_instruction first second ⟨address,(aligned_address address).mp aligned⟩
  | read_data first sized second address =>
    exact .read_data first sized second ⟨address,(aligned_address address).mp aligned⟩
  | write_data first sized second value third address =>
    exact .write_data first sized second value third ⟨address,(aligned_address address).mp aligned⟩

theorem acceptable_line {line : List byte} {c : command_t} (line_of : Line Aligned line c) :
    Line Accepted line c ∧ Acceptable c := by
  cases line_of with
  | read_instruction first second address =>
    refine ⟨.read_instruction first second address.1,.inl rfl,?_,?_,(aligned_address address.1).mpr address.2⟩
    · rintro ⟨_,other⟩
      exact other rfl
    · rintro ⟨⟨⟩,_⟩
  | read_data first sized second address =>
    refine ⟨.read_data first sized second address.1,?_,?_,?_,(aligned_address address.1).mpr address.2⟩
    · cases sized
      · exact .inl rfl
      · exact .inr rfl
    · rintro ⟨⟨⟩,_⟩
    · rintro ⟨⟨⟩,_⟩
  | write_data first sized second value third address =>
    refine ⟨.write_data first sized second value third address.1,?_,?_,?_,(aligned_address address.1).mpr address.2⟩
    · cases sized
      · exact .inl rfl
      · exact .inr rfl
    · rintro ⟨⟨⟩,_⟩
    · rintro ⟨_,⟨⟩⟩

theorem aligned_text {text : List byte} {cs : List command_t} :
    Text Aligned text cs ↔ Text Accepted text cs ∧ ∀ c ∈ cs, Acceptable c := by
  constructor
  · intro lines
    induction lines with
    | nil => exact ⟨.nil,by simp⟩
    | cons first _ ih =>
      obtain ⟨accepted,acceptable⟩ := acceptable_line first
      refine ⟨.cons accepted ih.1,fun c member => ?_⟩
      rcases List.mem_cons.mp member with rfl | member
      · exact acceptable
      · exact ih.2 c member
  · rintro ⟨lines,acceptable⟩
    induction lines with
    | nil => exact .nil
    | cons first _ ih =>
      exact .cons (aligned_line first (acceptable _ List.mem_cons_self))
        (ih (fun c member => acceptable c (List.mem_cons_of_mem _ member)))

theorem run_adds (unset : Nat → command_t) : ∀ (cs : List command_t) {program : program_t}, Holds program →
    ∃ codes last, run step program (cs.map (call.add unset)) = some (codes,last) ∧
      ((∀ code ∈ codes, code = .ERR_NONE) ↔ ∀ c ∈ cs, Acceptable c) ∧
      ((∀ c ∈ cs, Acceptable c) → last.commands = program.commands ++ cs) := by
  intro cs
  induction cs with
  | nil =>
    intro program _
    exact ⟨[],program,rfl,by simp,fun _ => (List.append_nil _).symm⟩
  | cons c cs ih =>
    intro program holds
    by_cases acceptable : Acceptable c
    · obtain ⟨after,executed,kept,commands⟩ := add_accepted unset holds acceptable
      obtain ⟨codes,last,ran,all,later⟩ := ih kept
      have stepped : step program (.add unset c) = some (.ERR_NONE,after) := executed
      refine ⟨.ERR_NONE :: codes,last,by rw [List.map_cons,run_cons_of stepped,ran]; rfl,?_,?_⟩
      · rw [List.forall_mem_cons,List.forall_mem_cons,all]
        simp [acceptable]
      · intro rest
        rw [later (List.forall_mem_cons.mp rest).2,commands,List.append_assoc,List.singleton_append]
    · obtain ⟨codes,last,ran,_,_⟩ := ih holds
      have stepped : step program (.add unset c) = some (.ERR_BAD_PARAMETER,program) :=
        add_rejected unset program acceptable
      refine ⟨.ERR_BAD_PARAMETER :: codes,last,by rw [List.map_cons,run_cons_of stepped,ran]; rfl,?_,?_⟩
      · simp [acceptable]
      · intro all
        exact absurd (all c List.mem_cons_self) acceptable

/-- The calls that add a list of commands all succeed just when all are acceptable. -/
theorem rebuilt_iff (unset : Nat → command_t) (cs : List command_t) : Rebuilt unset cs ↔ ∀ c ∈ cs, Acceptable c := by
  obtain ⟨codes,last,ran,all,commands⟩ := run_adds unset cs init_holds
  constructor
  · rintro ⟨answers,final,executed,succeeded,_⟩
    rw [ran] at executed
    cases executed
    exact all.mp succeeded
  · intro acceptable
    exact ⟨codes,last,ran,all.mpr acceptable,commands acceptable⟩

/-- What was read can be built again just when every address in the text ends
    in the digit 0 or 8. -/
theorem read_rebuilt_iff (unset : Nat → command_t) {start after : program_t} {text : List byte}
    (executed : program_read_into start (fopen text) = some (.ERR_NONE,after)) :
    Rebuilt unset after.commands ↔ ∃ cs, Reads Aligned text cs := by
  obtain ⟨cs,reads,_,rfl⟩ := program_read_sound executed
  rw [rebuilt_iff,filled_commands]
  constructor
  · intro acceptable
    obtain ⟨whole,rest,rfl,lines,enough,ended⟩ := reads
    exact ⟨cs,whole,rest,rfl,aligned_text.mpr ⟨lines,acceptable⟩,enough,ended⟩
  · rintro ⟨ds,whole,rest,rfl,lines,enough,ended⟩
    obtain ⟨accepted,acceptable⟩ := aligned_text.mp lines
    obtain rfl := reads_unique reads ⟨whole,rest,rfl,accepted,enough,ended⟩
    exact acceptable

theorem read_rebuilt_iff_two_lines :
    program_read_into program_init.2 (fopen (read_zero_line ++ write_byte_line)) =
        some (.ERR_NONE,filled program_init.2 [read_zero,write_byte]) ∧
      (∃ cs, Reads Aligned (read_zero_line ++ write_byte_line) cs) ∧
      Rebuilt (fun _ => zero_command) (filled program_init.2 [read_zero,write_byte]).commands := by
  have executed := program_read_complete (text_reads two_lines_accepted (by decide)) (show _ ≤ program_init.2.listing.length by decide)
  have acceptable : ∀ c ∈ [read_zero,write_byte], Acceptable c := by
    unfold Acceptable
    decide
  have aligned : ∃ cs, Reads Aligned (read_zero_line ++ write_byte_line) cs :=
    ⟨_,text_reads (aligned_text.mpr ⟨two_lines_accepted,acceptable⟩) (by decide)⟩
  exact ⟨executed,aligned,(read_rebuilt_iff _ executed).mpr aligned⟩

/-- The line `R DB @0x0000000000000002`. -/
def read_two_line : List byte :=
  ['R',' ','D','B',' ','@','0','x','0','0','0','0','0','0','0','0','0','0','0','0','0','0','0','2','\n'].map chr

def read_two : command_t :=
  { order := .READ, type := .DATA, data_size := 1, write_data := 0, vaddr := ⟨0,0,0,0,0,2⟩ }

/-- A byte that is read at the address 2 cannot be added. -/
theorem read_two_refused :
    program_read (some read_two_line) program_init.2 = some (.ERR_NONE,filled program_init.2 [read_two]) ∧
      ¬ Rebuilt (fun _ => zero_command) (filled program_init.2 [read_two]).commands := by
  have address : Written.Address (List.replicate 15 (chr '0') ++ [chr '2']) ⟨0,0,0,0,0,2⟩ :=
    ⟨rfl,rfl,2,⟨List.replicate 15 0 ++ [2],rfl,rfl⟩,rfl⟩
  have line : Line Written read_two_line read_two := .read_data one_blank .byte one_blank address
  have reads := line_reads (written_line line (by decide))
  constructor
  · rw [program_read_some]
    exact program_read_complete reads (by decide)
  · rw [rebuilt_iff,filled_commands]
    intro acceptable
    have aligned := (acceptable read_two (by simp)).2.2.2
    revert aligned
    decide

end CacheEmulator.ProgramBuild
