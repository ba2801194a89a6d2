import CacheEmulator.CommandGrammar

/-!
What `program_read` makes of a text: the lines it reads, the listing it leaves
and where it runs out of the listing. From there, when it accepts exactly the
file format and when it keeps to its listing.
-/
namespace CacheEmulator.ProgramRead
open CacheEmulator.Error CacheEmulator.Addr CacheEmulator.Stdio CacheEmulator.Numeral CacheEmulator.Commands
open CacheEmulator.CommandGrammar

/-- A listing with commands put in from a place on. -/
def place (listing : List command_t) (nb : Nat) (cs : List command_t) : List command_t :=
  listing.take nb ++ cs ++ listing.drop (nb + cs.length)

/-- What the loop may answer after it has read the commands, with the rest of
    the text before it. Nothing is answered only for a command that has no
    place in the listing. -/
def ReadCorrect (left nb : Nat) (listing : List command_t) (cs : List command_t) (rest : List byte) :
    Option (error_code × Nat × List command_t) → Prop
  | none => cs.length < left ∧ nb + cs.length = listing.length ∧
      ∃ first text, rest = first :: text ∧ (first = chr 'R' ∨ first = chr 'W')
  | some (.ERR_NONE,count,after) => (rest = [] ∨ cs.length = left) ∧ count = nb + cs.length ∧
      after = place listing nb cs
  | some (_,_,after) => after.length = listing.length

/-- The text is read to its end, or to the limit of 100 commands. -/
def Reads (L : Lexicon) (text : List byte) (cs : List command_t) : Prop :=
  ∃ whole rest, text = whole ++ rest ∧ Text L whole cs ∧ cs.length ≤ 100 ∧ (rest = [] ∨ cs.length = 100)

/-- As many lines as the listing has room for, and the first letter of one more. -/
def Overruns (room : Nat) (text : List byte) : Prop :=
  ∃ whole cs first rest, text = whole ++ first :: rest ∧ Text Accepted whole cs ∧ cs.length = room ∧ room < 100 ∧
    (first = chr 'R' ∨ first = chr 'W')

/-! ### The listing -/

@[simp] theorem place_nil (listing : List command_t) (nb : Nat) : place listing nb [] = listing := by
  simp [place]

theorem place_cons {listing : List command_t} {nb : Nat} (inside : nb < listing.length) (c : command_t)
    (cs : List command_t) : place (listing.set nb c) (nb + 1) cs = place listing nb (c :: cs) := by
  have before : (listing.set nb c).take (nb + 1) = listing.take nb ++ [c] := by
    rw [List.take_set,List.take_succ_eq_append_getElem inside,List.set_append_right _ _ (by simp)]
    simp [Nat.min_eq_left inside.le]
  have behind : (listing.set nb c).drop (nb + 1 + cs.length) = listing.drop (nb + (c :: cs).length) := by
    rw [List.drop_set_of_lt (by omega),List.length_cons]
    congr 1
    omega
  rw [place,place,before,behind]
  simp

theorem place_length {listing : List command_t} {nb : Nat} {cs : List command_t}
    (room : nb + cs.length ≤ listing.length) : (place listing nb cs).length = listing.length := by
  simp only [place,List.length_append,List.length_take,List.length_drop]
  omega

/-! ### One turn of the loop -/

/-- A turn over a line stores its command. -/
theorem turn_over {line : List byte} {c : command_t} (accepted : Line Accepted line c) (left : Nat) {nb : Nat}
    {listing : List command_t} (inside : nb < listing.length) (rest : List byte) :
    read_commands (left + 1) nb (.reading (line ++ rest)) listing =
      read_commands left (nb + 1) (.reading rest) (listing.set nb c) := by
  have stored : listing[nb]? = some listing[nb] := List.getElem?_eq_getElem inside
  obtain ⟨first,text,rfl,⟨rfl,read⟩ | ⟨rfl,read⟩⟩ := line_complete accepted
  · simp [read_commands,stored,read]
  · have other : ¬ chr 'W' = chr 'R' := by decide
    simp [read_commands,stored,read,other]

/-- A turn on a first letter that reads on has read a line. -/
theorem turn_sound {first : byte} {text : List byte} {left nb : Nat} {listing : List command_t}
    (letter : first = chr 'R' ∨ first = chr 'W') (inside : nb < listing.length) :
    (∃ line c rest, first :: text = line ++ rest ∧ Line Accepted line c) ∨
      ∃ code after, code ≠ .ERR_NONE ∧ after.length = listing.length ∧
        read_commands (left + 1) nb (.reading (first :: text)) listing = some (code,nb,after) := by
  have stored : listing[nb]? = some listing[nb] := List.getElem?_eq_getElem inside
  rcases letter with rfl | rfl
  · by_cases passed : (read_procedure (.reading text) listing[nb]).1 = .ERR_NONE
    · obtain ⟨line,rest,parts,_,accepted⟩ := read_procedure_sound (Prod.ext passed rfl)
      exact .inl ⟨chr 'R' :: line,_,rest,congrArg (chr 'R' :: ·) parts,accepted⟩
    · refine .inr ⟨_,listing.set nb (read_procedure (.reading text) listing[nb]).2.1,passed,by simp,?_⟩
      simp [read_commands,stored,passed]
  · have other : ¬ chr 'W' = chr 'R' := by decide
    by_cases passed : (write_procedure (.reading text) listing[nb]).1 = .ERR_NONE
    · obtain ⟨line,rest,parts,_,accepted⟩ := write_procedure_sound (Prod.ext passed rfl)
      exact .inl ⟨chr 'W' :: line,_,rest,congrArg (chr 'W' :: ·) parts,accepted⟩
    · refine .inr ⟨_,listing.set nb (write_procedure (.reading text) listing[nb]).2.1,passed,by simp,?_⟩
      simp [read_commands,stored,passed,other]

theorem turn_outside {first : byte} {text : List byte} (left : Nat) {nb : Nat} {listing : List command_t}
    (letter : first = chr 'R' ∨ first = chr 'W') (outside : listing.length ≤ nb) :
    read_commands (left + 1) nb (.reading (first :: text)) listing = none := by
  simp [read_commands,letter,outside]

theorem turn_other {first : byte} {text : List byte} (left nb : Nat) (listing : List command_t)
    (letter : ¬ (first = chr 'R' ∨ first = chr 'W')) :
    read_commands (left + 1) nb (.reading (first :: text)) listing = some (.ERR_BAD_PARAMETER,nb,listing) := by
  simp [read_commands,letter]

theorem turn_end (left nb : Nat) (listing : List command_t) :
    read_commands left nb (.reading []) listing = some (.ERR_NONE,nb,listing) := by
  cases left with
  | zero => rfl
  | succ left => cases left <;> rfl

/-! ### Whole runs of the loop -/

/-- The lines in front of a text are read one after the other. -/
theorem read_over {whole : List byte} {cs : List command_t} (lines : Text Accepted whole cs) (rest : List byte) :
    ∀ {left nb : Nat} {listing : List command_t}, cs.length ≤ left → nb + cs.length ≤ listing.length →
      read_commands left nb (.reading (whole ++ rest)) listing =
        read_commands (left - cs.length) (nb + cs.length) (.reading rest) (place listing nb cs) := by
  induction lines with
  | nil => simp
  | @cons line text c cs first _ ih =>
    intro left nb listing enough room
    rw [List.length_cons] at enough room ⊢
    obtain ⟨fewer,rfl⟩ : ∃ fewer, left = fewer + 1 := ⟨left - 1,by omega⟩
    have inside : nb < listing.length := by omega
    have enough_left : cs.length ≤ fewer := by omega
    have room_left : nb + 1 + cs.length ≤ (listing.set nb c).length := by
      rw [List.length_set]
      omega
    have later := ih enough_left room_left
    rw [List.append_assoc,turn_over first fewer inside,later,place_cons inside]
    congr 1 <;> omega

theorem read_correct_cons {left nb : Nat} {listing : List command_t} {c : command_t} {cs : List command_t}
    {rest : List byte} {answer : Option (error_code × Nat × List command_t)} (inside : nb < listing.length)
    (correct : ReadCorrect left (nb + 1) (listing.set nb c) cs rest answer) :
    ReadCorrect (left + 1) nb listing (c :: cs) rest answer := by
  have next : nb + 1 + cs.length = nb + (c :: cs).length := by rw [List.length_cons]; omega
  cases answer with
  | none =>
    obtain ⟨more,full,here⟩ := correct
    rw [next,List.length_set] at full
    exact ⟨Nat.succ_lt_succ more,full,here⟩
  | some answer =>
    obtain ⟨code,count,after⟩ := answer
    cases code with
    | ERR_NONE =>
      obtain ⟨ended,counted,filled⟩ := correct
      rw [place_cons inside] at filled
      exact ⟨ended.imp_right (congrArg (· + 1)),counted.trans next,filled⟩
    | _ => exact correct.trans (List.length_set ..)

/-- Every run of the loop reads some lines and ends in one of the three ways. -/
theorem read_commands_total : ∀ (left nb : Nat) (text : List byte) (listing : List command_t), nb ≤ listing.length →
    ∃ whole cs rest, text = whole ++ rest ∧ Text Accepted whole cs ∧ cs.length ≤ left ∧
      nb + cs.length ≤ listing.length ∧
      ReadCorrect left nb listing cs rest (read_commands left nb (.reading text) listing) := by
  intro left
  induction left with
  | zero =>
    intro nb text listing room
    exact ⟨[],[],text,rfl,.nil,le_rfl,room,.inr rfl,rfl,(place_nil listing nb).symm⟩
  | succ left ih =>
    intro nb text listing room
    cases text with
    | nil =>
      refine ⟨[],[],[],rfl,.nil,Nat.zero_le _,room,?_⟩
      rw [turn_end]
      exact ⟨.inl rfl,rfl,(place_nil listing nb).symm⟩
    | cons first text =>
      by_cases letter : first = chr 'R' ∨ first = chr 'W'
      · by_cases inside : nb < listing.length
        · rcases turn_sound letter inside with ⟨line,c,rest,parts,accepted⟩ | ⟨code,after,failed,length,rejected⟩
          · -- A line was read; the rest of the run is that of the rest of the text.
            obtain ⟨whole,cs,tail,rfl,lines,enough,fits,correct⟩ :=
              ih (nb + 1) rest (listing.set nb c) (by rw [List.length_set]; omega)
            rw [List.length_set] at fits
            refine ⟨line ++ whole,c :: cs,tail,by rw [parts,List.append_assoc],.cons accepted lines,?_,?_,?_⟩
            · exact Nat.succ_le_succ enough
            · rw [List.length_cons]; omega
            · rw [parts,turn_over accepted left inside]
              exact read_correct_cons inside correct
          · refine ⟨[],[],first :: text,rfl,.nil,Nat.zero_le _,room,?_⟩
            rw [rejected]
            cases code <;> first | exact absurd rfl failed | exact length
        · refine ⟨[],[],first :: text,rfl,.nil,Nat.zero_le _,room,?_⟩
          rw [turn_outside left letter (by omega)]
          exact ⟨Nat.succ_pos left,by rw [List.length_nil]; omega,first,text,rfl,letter⟩
      · refine ⟨[],[],first :: text,rfl,.nil,Nat.zero_le _,room,?_⟩
        rw [turn_other left nb listing letter]
        exact rfl

/-! ### The function as a whole -/

/-- The program after a successful read. -/
def filled (program : program_t) (cs : List command_t) : program_t :=
  { program with listing := place program.listing 0 cs, nb_lines := cs.length }

@[simp] theorem filled_commands (program : program_t) (cs : List command_t) : (filled program cs).commands = cs := by
  simp [filled,program_t.commands,place]

theorem program_read_complete {program : program_t} {text : List byte} {cs : List command_t} (reads : Reads Accepted text cs)
    (room : cs.length ≤ program.listing.length) :
    program_read_into program (fopen text) = some (.ERR_NONE,filled program cs) := by
  obtain ⟨whole,rest,rfl,lines,enough,ended⟩ := reads
  have last : read_commands (100 - cs.length) (0 + cs.length) (.reading rest) (place program.listing 0 cs) =
      some (.ERR_NONE,cs.length,place program.listing 0 cs) := by
    rw [Nat.zero_add]
    rcases ended with rfl | full
    · exact turn_end _ _ _
    · rw [full]; rfl
  rw [program_read_into,fopen,read_over lines rest enough (by omega),last]
  rfl

theorem program_read_overruns {program : program_t} {text : List byte}
    (overruns : Overruns program.listing.length text) : program_read_into program (fopen text) = none := by
  obtain ⟨whole,cs,first,rest,rfl,lines,full,more,letter⟩ := overruns
  obtain ⟨left,more_left⟩ : ∃ left, 100 - cs.length = left + 1 := ⟨99 - cs.length,by omega⟩
  have last : read_commands (100 - cs.length) (0 + cs.length) (.reading (first :: rest)) (place program.listing 0 cs) =
      none := by
    rw [more_left]
    exact turn_outside left letter (by rw [place_length (by omega)]; omega)
  rw [program_read_into,fopen,read_over lines (first :: rest) (by omega) (by omega),last]
  rfl

/-- The three ways `program_read` can go. -/
theorem program_read_total (program : program_t) (text : List byte) :
    Overruns program.listing.length text ∨
      (∃ cs, Reads Accepted text cs ∧ cs.length ≤ program.listing.length ∧
        program_read_into program (fopen text) = some (.ERR_NONE,filled program cs)) ∨
      ∃ code listing, code ≠ .ERR_NONE ∧ listing.length = program.listing.length ∧
        program_read_into program (fopen text) = some (code,{ program with listing := listing }) := by
  obtain ⟨whole,cs,rest,parts,lines,enough,room,correct⟩ :=
    read_commands_total 100 0 text program.listing (Nat.zero_le _)
  rw [Nat.zero_add] at room
  cases ran : read_commands 100 0 (.reading text) program.listing with
  | none =>
    rw [ran] at correct
    obtain ⟨more,full,first,left_over,rfl,letter⟩ := correct
    rw [Nat.zero_add] at full
    exact .inl ⟨whole,cs,first,left_over,parts,lines,full,full ▸ more,letter⟩
  | some answer =>
    rw [ran] at correct
    obtain ⟨code,count,after⟩ := answer
    by_cases accepted : code = .ERR_NONE
    · subst accepted
      have reads : Reads Accepted text cs := ⟨whole,rest,parts,lines,enough,correct.1⟩
      exact .inr (.inl ⟨cs,reads,room,program_read_complete reads room⟩)
    · have length : after.length = program.listing.length := by
        cases code <;> first | exact absurd rfl accepted | exact correct
      refine .inr (.inr ⟨code,after,accepted,length,?_⟩)
      rw [program_read_into,fopen,ran]
      simp [accepted]

/-- What was read comes from the lines in front of the text. -/
theorem program_read_sound {program after : program_t} {text : List byte}
    (executed : program_read_into program (fopen text) = some (.ERR_NONE,after)) :
    ∃ cs, Reads Accepted text cs ∧ cs.length ≤ program.listing.length ∧ after = filled program cs := by
  rcases program_read_total program text with overruns | ⟨cs,reads,room,accepted⟩ | ⟨code,listing,failed,_,rejected⟩
  · rw [program_read_overruns overruns] at executed
    cases executed
  · rw [accepted] at executed
    exact ⟨cs,reads,room,(Prod.mk.inj (Option.some.inj executed)).2.symm⟩
  · rw [rejected] at executed
    exact absurd (Prod.mk.inj (Option.some.inj executed)).1 failed

/-- A line alone is read as its command. -/
theorem text_reads {L : Lexicon} {text : List byte} {cs : List command_t} (lines : Text L text cs)
    (few : cs.length ≤ 100) : Reads L text cs :=
  ⟨text,[],(List.append_nil text).symm,lines,few,.inl rfl⟩

theorem line_reads {L : Lexicon} {line : List byte} {c : command_t} (first : Line L line c) : Reads L line [c] := by
  have whole := Text.cons first .nil
  rw [List.append_nil] at whole
  exact text_reads whole (by simp)

/-- A text is read as one sequence of commands only. -/
theorem reads_unique {text : List byte} {cs ds : List command_t} (left : Reads Accepted text cs)
    (right : Reads Accepted text ds) : cs = ds := by
  let roomy : program_t :=
    { listing := List.replicate (cs.length + ds.length) zero_command, nb_lines := 0, allocated := cs.length + ds.length }
  have as_cs : program_read_into roomy (fopen text) = _ := program_read_complete left (by simp [roomy])
  have as_ds : program_read_into roomy (fopen text) = _ := program_read_complete right (by simp [roomy])
  have same : filled roomy cs = filled roomy ds := by
    rw [as_cs] at as_ds
    exact (Prod.mk.inj (Option.some.inj as_ds)).2
  simpa using congrArg program_t.commands same

theorem text_split {L : Lexicon} {text : List byte} {cs : List command_t} (lines : Text L text cs) :
    ∀ {n : Nat}, n < cs.length → ∃ whole ds line c rest, text = whole ++ (line ++ rest) ∧ Text L whole ds ∧
      ds.length = n ∧ Line L line c := by
  induction lines with
  | nil => intro n more; cases more
  | @cons line text c cs first _ ih =>
    intro n more
    cases n with
    | zero => exact ⟨[],[],line,c,text,rfl,.nil,rfl,first⟩
    | succ n =>
      obtain ⟨whole,ds,next,d,rest,rfl,before,length,second⟩ := ih (Nat.lt_of_succ_lt_succ more)
      exact ⟨line ++ whole,c :: ds,next,d,rest,by simp,.cons first before,by rw [List.length_cons,length],second⟩

/-- More lines than the listing has room for overrun it. -/
theorem reads_overruns {text : List byte} {cs : List command_t} (reads : Reads Accepted text cs) {room : Nat}
    (more : room < cs.length) : Overruns room text := by
  obtain ⟨whole,rest,rfl,lines,enough,_⟩ := reads
  obtain ⟨before,ds,line,c,after,rfl,all,length,next⟩ := text_split lines more
  obtain ⟨first,tail,rfl,letter⟩ := line_complete next
  refine ⟨before,ds,first,tail ++ (after ++ rest),by simp,all,length,by omega,?_⟩
  exact letter.imp And.left And.left

theorem program_read_some (text : List byte) (program : program_t) :
    program_read (some text) program = program_read_into program_init.2 (fopen text) := rfl

theorem program_read_accepts {program : program_t} {text : List byte} {cs : List command_t} (reads : Reads Accepted text cs)
    (within : ¬ Overruns program.listing.length text) :
    program_read_into program (fopen text) = some (.ERR_NONE,filled program cs) := by
  apply program_read_complete reads
  by_contra more
  exact within (reads_overruns reads (by omega))

/-! ### Keeping to the listing -/

/-- All stores of a read fall inside the listing, and success leaves a program
    whose lines are among the commands it holds. -/
def WithinCapacity (answer : Option (error_code × program_t)) : Prop :=
  ∃ code after, answer = some (code,after) ∧
    (code = .ERR_NONE → after.nb_lines ≤ after.allocated ∧ after.listing.length = after.allocated)

theorem program_read_within_iff (text : List byte) (program : program_t) :
    WithinCapacity (program_read (some text) program) ↔ ¬ Overruns INIT_ALLOCATED text := by
  have room : program_init.2.listing.length = INIT_ALLOCATED := rfl
  rw [program_read_some,← room]
  constructor
  · rintro ⟨code,after,executed,_⟩ overruns
    rw [program_read_overruns overruns] at executed
    cases executed
  · intro within
    rcases program_read_total program_init.2 text with overruns | ⟨cs,_,fits,executed⟩ | ⟨code,listing,failed,_,executed⟩
    · exact absurd overruns within
    · refine ⟨_,_,executed,fun _ => ⟨fits,?_⟩⟩
      exact place_length (by rw [Nat.zero_add]; exact fits)
    · exact ⟨_,_,executed,fun accepted => absurd accepted failed⟩

/-- The line `R I @0x0000000000000000`. -/
def read_zero_line : List byte :=
  ['R',' ','I',' ','@','0','x','0','0','0','0','0','0','0','0','0','0','0','0','0','0','0','0','\n'].map chr

def read_zero : command_t :=
  { order := .READ, type := .INSTRUCTION, data_size := sizeof_word, write_data := 0, vaddr := ⟨0,0,0,0,0,0⟩ }

theorem one_blank : Written.Blanks [chr ' '] := by
  refine ⟨by simp,fun c member => ?_⟩
  obtain rfl := List.mem_singleton.mp member
  decide

theorem read_zero_written : Line Written read_zero_line read_zero := by
  have address : Written.Address (List.replicate 16 (chr '0')) ⟨0,0,0,0,0,0⟩ :=
    ⟨rfl,rfl,0,⟨List.replicate 16 0,rfl,rfl⟩,rfl⟩
  exact .read_instruction one_blank one_blank address

/-- The line `W DB 0x2A @0x0000008080604028`. -/
def write_byte_line : List byte :=
  ['W',' ','D','B',' ','0','x','2','A',' ',
    '@','0','x','0','0','0','0','0','0','8','0','8','0','6','0','4','0','2','8','\n'].map chr

def write_byte : command_t :=
  { order := .WRITE, type := .DATA, data_size := 1, write_data := 0x2A, vaddr := ⟨0,1,2,3,4,0x28⟩ }

theorem write_byte_written : Line Written write_byte_line write_byte := by
  have value : Written.Value [chr '2',chr 'A'] 0x2A := ⟨by decide,by decide,[2,10],rfl,rfl⟩
  have address : Written.Address (['0','0','0','0','0','0','8','0','8','0','6','0','4','0','2','8'].map chr) ⟨0,1,2,3,4,0x28⟩ :=
    ⟨rfl,rfl,0x0000008080604028,⟨[0,0,0,0,0,0,8,0,8,0,6,0,4,0,2,8],rfl,rfl⟩,rfl⟩
  exact .write_data one_blank .byte one_blank value one_blank address

/-- A program of both lines. -/
theorem two_lines_accepted : Text Accepted (read_zero_line ++ write_byte_line) [read_zero,write_byte] := by
  have last := Text.cons (written_line write_byte_written (by decide)) .nil
  rw [List.append_nil] at last
  exact .cons (written_line read_zero_written (by decide)) last

theorem text_replicate {L : Lexicon} {line : List byte} {c : command_t} (first : Line L line c) (count : Nat) :
    Text L (List.replicate count line).flatten (List.replicate count c) := by
  induction count with
  | zero => exact .nil
  | succ count ih =>
    rw [List.replicate_succ,List.replicate_succ,List.flatten_cons]
    exact .cons first ih

/-- Eleven lines store past the ten commands of a new program. -/
theorem eleven_lines_overrun :
    ¬ WithinCapacity (program_read (some (List.replicate 11 read_zero_line).flatten) program_init.2) := by
  have ten := text_replicate (written_line read_zero_written (by decide)) 10
  have parts : (List.replicate 11 read_zero_line).flatten =
      (List.replicate 10 read_zero_line).flatten ++ chr 'R' :: read_zero_line.tail := by
    rw [List.replicate_succ',List.flatten_append,List.flatten_singleton]
    rfl
  have overruns : Overruns INIT_ALLOCATED (List.replicate 11 read_zero_line).flatten :=
    ⟨_,_,chr 'R',read_zero_line.tail,parts,ten,List.length_replicate,by decide,.inl rfl⟩
  have no_answer : program_read_into program_init.2 (fopen (List.replicate 11 read_zero_line).flatten) = none :=
    program_read_overruns overruns
  rintro ⟨code,after,executed,_⟩
  rw [program_read_some,no_answer] at executed
  cases executed

/-! ### Accepting the file format -/

/-- The number of lines of a text, the last of which need not be ended. -/
def line_count (text : List byte) : Nat :=
  text.count (chr '\n') + if text = [] ∨ text.getLast? = some (chr '\n') then 0 else 1

/-- A read accepts a text just when it is in the format, and then with the
    commands it stands for; any other text gives an error. -/
def ReadsExactly (answer : Option (error_code × program_t)) (text : List byte) : Prop :=
  ∃ code after, answer = some (code,after) ∧ (code = .ERR_NONE ↔ ∃ cs, Text Written text cs) ∧
    (code = .ERR_NONE → Text Written text after.commands)

/-- The format and the parser agree on a text: it stands for the same commands
    in both, or is in neither. -/
def Agreed (text : List byte) : Prop :=
  (∃ cs, Text Written text cs ∧ Text Accepted text cs) ∨
    (¬ (∃ cs, Text Written text cs) ∧ ¬ ∃ cs, Text Accepted text cs)

theorem line_newline {L : Lexicon} {line : List byte} {c : command_t} (first : Line L line c) : chr '\n' ∈ line := by
  cases first <;> simp [at_address]

/-- Every command comes from a line of its own. -/
theorem text_lines {L : Lexicon} {text : List byte} {cs : List command_t} (lines : Text L text cs) :
    cs.length ≤ text.count (chr '\n') := by
  induction lines with
  | nil => exact Nat.zero_le _
  | cons first _ ih =>
    have newline := List.count_pos_iff.mpr (line_newline first)
    rw [List.count_append,List.length_cons]
    omega

/-- In a text of at most 100 lines the limit on the commands cuts nothing off. -/
theorem reads_iff {text : List byte} (short : line_count text ≤ 100) (cs : List command_t) :
    Reads Accepted text cs ↔ Text Accepted text cs := by
  constructor
  · rintro ⟨whole,rest,rfl,lines,enough,rfl | full⟩
    · simpa using lines
    · cases rest with
      | nil => simpa using lines
      | cons first rest =>
        have counted := text_lines lines
        unfold line_count at short
        rw [List.count_append,List.getLast?_append_of_ne_nil _ (List.cons_ne_nil first rest)] at short
        by_cases more : chr '\n' ∈ first :: rest
        · have newline := List.count_pos_iff.mpr more
          omega
        · -- The last line is not ended and counts as well.
          have unended : ¬ (whole ++ first :: rest = [] ∨ (first :: rest).getLast? = some (chr '\n')) := by
            rintro (none_left | last)
            · simp at none_left
            · exact more (List.mem_of_getLast? last)
          rw [if_neg unended] at short
          omega
  · intro lines
    have counted := text_lines lines
    refine ⟨text,[],(List.append_nil text).symm,lines,?_,.inl rfl⟩
    unfold line_count at short
    omega

theorem read_into_exact_iff (program : program_t) {text : List byte} (short : line_count text ≤ 100) :
    ReadsExactly (program_read_into program (fopen text)) text ↔ ¬ Overruns program.listing.length text ∧ Agreed text := by
  constructor
  · rintro ⟨code,after,executed,format,commands⟩
    have within : ¬ Overruns program.listing.length text := by
      intro overruns
      rw [program_read_overruns overruns] at executed
      cases executed
    refine ⟨within,?_⟩
    rcases program_read_total program text with overruns | ⟨cs,reads,_,accepted⟩ | ⟨other,listing,failed,_,rejected⟩
    · exact absurd overruns within
    · rw [accepted] at executed
      cases executed
      exact .inl ⟨cs,by simpa using commands rfl,(reads_iff short cs).mp reads⟩
    · rw [rejected] at executed
      cases executed
      refine .inr ⟨fun written => failed (format.mpr written),?_⟩
      rintro ⟨cs,lines⟩
      rw [program_read_accepts ((reads_iff short cs).mpr lines) within] at rejected
      exact failed (Prod.mk.inj (Option.some.inj rejected)).1.symm
  · rintro ⟨within,⟨cs,written,lines⟩ | ⟨unwritten,unread⟩⟩
    · have accepted := program_read_accepts ((reads_iff short cs).mpr lines) within
      exact ⟨_,_,accepted,⟨fun _ => ⟨cs,written⟩,fun _ => rfl⟩,fun _ => by simpa using written⟩
    · rcases program_read_total program text with overruns | ⟨cs,reads,_,_⟩ | ⟨code,listing,failed,_,rejected⟩
      · exact absurd overruns within
      · exact absurd ⟨cs,(reads_iff short cs).mp reads⟩ unread
      · exact ⟨_,_,rejected,⟨fun accepted => absurd accepted failed,fun written => absurd written unwritten⟩,
          fun accepted => absurd accepted failed⟩

/-- On a text too short for the counter of blanks to wrap, the parser fails the
    format only by what it takes besides. -/
theorem agreed_iff {text : List byte} (short : text.length < 2 ^ 32) :
    Agreed text ↔ (∃ cs, Text Written text cs) ∨ ¬ ∃ cs, Text Accepted text cs := by
  constructor
  · rintro (⟨cs,written,_⟩ | ⟨_,unread⟩)
    · exact .inl ⟨cs,written⟩
    · exact .inr unread
  · rintro (⟨cs,written⟩ | unread)
    · exact .inl ⟨cs,written,written_text written short⟩
    · exact .inr ⟨fun ⟨cs,written⟩ => unread ⟨cs,written_text written short⟩,unread⟩

/-- The condition for `program_read` itself, and for a listing of any size. -/
theorem program_read_exact_iff {text : List byte} (short : line_count text ≤ 100) (program : program_t) :
    (ReadsExactly (program_read (some text) program) text ↔ ¬ Overruns INIT_ALLOCATED text ∧ Agreed text) ∧
      ∀ start : program_t, ReadsExactly (program_read_into start (fopen text)) text ↔
        ¬ Overruns start.listing.length text ∧ Agreed text :=
  ⟨read_into_exact_iff program_init.2 short,fun start => read_into_exact_iff start short⟩

theorem program_read_exact_iff_one_line :
    (ReadsExactly (program_read (some read_zero_line) program_init.2) read_zero_line ↔
      ¬ Overruns INIT_ALLOCATED read_zero_line ∧ Agreed read_zero_line) ∧
      ∀ start : program_t, ReadsExactly (program_read_into start (fopen read_zero_line)) read_zero_line ↔
        ¬ Overruns start.listing.length read_zero_line ∧ Agreed read_zero_line :=
  program_read_exact_iff (by decide) program_init.2

/-- The bytes a text in the format can have. -/
def in_format (c : byte) : Bool :=
  isspace c || (hex_digit c).isSome || [chr 'R',chr 'W',chr 'I',chr 'D',chr 'B',chr '0',chr 'x',chr '@'].contains c

theorem written_bytes {text : List byte} {cs : List command_t} (written : Text Written text cs) :
    text.all in_format = true := by
  have blanks : ∀ {w : List byte}, Written.Blanks w → w.all in_format = true := by
    rintro w ⟨_,all⟩
    exact List.all_eq_true.mpr (fun c member => by simp [in_format,all c member])
  have hex : ∀ {w : List byte} {n : Nat}, Hexadecimal w n → w.all in_format = true := by
    intro w n hex
    apply List.all_eq_true.mpr
    intro c member
    obtain ⟨d,digit⟩ := hexadecimal_digit hex member
    simp [in_format,digit]
  have address : ∀ {w : List byte} {vaddr : virt_addr_t}, Written.Address w vaddr → (at_address w).all in_format = true := by
    rintro w vaddr ⟨_,_,n,digits,_⟩
    rw [at_address,List.all_append,List.all_append,hex digits]
    decide
  have size : ∀ {c : byte} {n : Nat}, Sized c n → in_format c = true := by
    intro c n sized
    cases sized <;> decide
  have letters : ∀ c ∈ [chr 'R',chr 'W',chr 'I',chr 'D',chr '0',chr 'x'], in_format c = true := by decide
  induction written with
  | nil => rfl
  | cons first _ ih =>
    rw [List.all_append,ih,Bool.and_true]
    cases first with
    | read_instruction first second at_end =>
      simp [blanks first,blanks second,address at_end,letters]
    | read_data first sized second at_end =>
      simp [blanks first,size sized,blanks second,address at_end,letters]
    | write_data first sized second value third at_end =>
      simp [blanks first,size sized,blanks second,hex value.2.2,blanks third,address at_end,letters]

/-- The line `R I @0x000000000000000G`. -/
def bad_digit_line : List byte :=
  ['R',' ','I',' ','@','0','x','0','0','0','0','0','0','0','0','0','0','0','0','0','0','0','G','\n'].map chr

/-- The last digit of the address is none, and is read as a three. -/
theorem bad_digit_accepted : ¬ ReadsExactly (program_read (some bad_digit_line) program_init.2) bad_digit_line := by
  have blank : Accepted.Blanks [chr ' '] := written_blanks one_blank (by decide)
  have address : Accepted.Address (List.replicate 15 (chr '0') ++ [chr 'G']) ⟨0,0,0,0,0,3⟩ :=
    ⟨rfl,rfl,by decide +kernel⟩
  have line : Line Accepted bad_digit_line { read_zero with vaddr := ⟨0,0,0,0,0,3⟩ } :=
    .read_instruction blank blank address
  have reads := line_reads line
  rintro ⟨code,after,executed,_,commands⟩
  rw [program_read_some,program_read_complete reads (by decide)] at executed
  cases executed
  have all := written_bytes (commands rfl)
  revert all
  decide

end CacheEmulator.ProgramRead
