import CacheEmulator.Emulator
import CacheEmulator.ListClear
import CacheEmulator.MemoryTrace
import CacheEmulator.ProgramText
import CacheEmulator.TlbHrchyTrace
import CacheEmulator.TlbTrace

/-!
The programs `test-tlb_simple.c`, `test-tlb_hrchy.c` and `test-cache.c` on their
files: a file of commands is read, a memory is loaded, and every line is carried
out. What goes to the standard error is left out.
-/
namespace CacheEmulator.Mains
open CacheEmulator.Error CacheEmulator.Memory CacheEmulator.Addr CacheEmulator.PageWalk CacheEmulator.Stdio
open CacheEmulator.Commands CacheEmulator.CommandGrammar CacheEmulator.ProgramRead CacheEmulator.ProgramPrint
open CacheEmulator.ProgramText CacheEmulator.MemoryTrace CacheEmulator.LinkedList CacheEmulator.ListClear
open CacheEmulator.Tlb (TLB_LINES)
open CacheEmulator.TlbRuns (fill_lines start_initial)
open CacheEmulator.LoaderCleanup (machine mem_init_from_dumpfile Unfailing)
open CacheEmulator.Machine (run)

/-! ### The programs -/

/-- The files as they are when a file has been opened to be written. -/
def cleared (sys : machine) (filename : List byte) : machine :=
  { sys with files := Function.update sys.files filename (some []) }

/-- How a program ends: the code that it returns, or none where what it does behind the loop is
    undefined, and the contents of its output, where it has opened it. -/
structure ending where
  code : Option Nat
  output : Option (List byte)

/-- The `main` of the TLB programs; `opens` tells whether the output can be opened. `loop` gives what is
    written for the lines and, once the output is closed, the code that is returned. -/
def tlb_main (loop : mem_space → List command_t → Option (List byte × Option Nat)) (sys : machine) (opens : Bool)
    (pgm : program_t) (commands_name memory_name output_name : List byte) : Option ending := do
  let read ← program_read (sys.files commands_name) pgm
  if read.1 ≠ .ERR_NONE then some ⟨some 2,none⟩
  else if opens = false then some ⟨some 3,none⟩
  else
    let loaded := mem_init_from_dumpfile (cleared sys output_name) none memory_name
    match loaded.stopped with
    | some (.returned _) => some ⟨some 4,some []⟩
    | some _ => none
    | none => do
      let mem ← loaded.contents
      let written ← loop mem read.2.commands
      some ⟨written.2,some written.1⟩

/-- The loop of `test-tlb_simple.c` and, behind it, `clear_list`. -/
def simple_loop (allocated : Nat → node_ptr) (mem : mem_space) (commands : List command_t) :
    Option (List byte × Option Nat) := do
  let filled ← fill_lines allocated TLB_LINES
  let written ← run (TlbTrace.turn mem) ⟨0,⟨0,0⟩,⟨Tlb.tlb_flush.2,filled.1,filled.2⟩⟩ commands
  let freed := clear_list TLB_LINES written.2.tlb.heap written.2.tlb.ll
  some (written.1.flatten,freed.map (fun _ => 0))

def hrchy_loop (mem : mem_space) (commands : List command_t) : Option (List byte × Option Nat) :=
  (TlbHrchyTrace.trace mem commands).map (fun written => (written,some 0))

def simple_main (allocated : Nat → node_ptr) : machine → Bool → program_t → List byte → List byte → List byte →
    Option ending :=
  tlb_main (simple_loop allocated)

def hrchy_main : machine → Bool → program_t → List byte → List byte → List byte → Option ending :=
  tlb_main hrchy_loop

/-- What the `main` of `test-cache.c` returns and prints; `found` is what each turn of the loop
    finds. Without a memory the first walk fails, and with it an assertion. -/
def cache_main (sys : machine) (pgm : program_t) (found : Nat → Emulator.found)
    (command memory_name commands_name : List byte) : Option (Nat × List byte) :=
  if command ≠ text "dump" ∧ command ≠ text "desc" then some (1,[])
  else
    let loaded := load sys command memory_name
    match loaded.stopped with
    | some (.returned _) => some (3,[])
    | some _ => none
    | none => do
      let read ← program_read (sys.files commands_name) pgm
      if read.1 ≠ .ERR_NONE then some (3,[])
      else
        let inputs := read.2.commands.mapIdx (fun k command => (found k,command))
        match loaded.contents with
        | none => if inputs = [] then some (0,[]) else none
        | some mem => (run Emulator.turn (Emulator.start mem) inputs).map (fun done => (0,done.1.flatten))

/-! ### The commands as `test-commands.c` writes them -/

section
variable {sys : machine} {pgm garbage after : program_t} {commands_name formatted_name output : List byte}

/-- A program that is accepted, written and read again has the same commands. -/
theorem written_read {file : Option (List byte)} (accepted : program_read file pgm = some (.ERR_NONE,after))
    (written : commands_main garbage file = some output) (pgm' : program_t) :
    ∃ again, program_read (some output) pgm' = some (.ERR_NONE,again) ∧ again.commands = after.commands := by
  cases file with
  | none => cases accepted
  | some given =>
    have into : program_read_into program_init.2 (fopen given) = some (.ERR_NONE,after) := accepted
    have accepted' : program_read (some given) garbage = some (.ERR_NONE,after) := accepted
    obtain ⟨short,within,formed⟩ := read_well_formed into
    obtain ⟨cs,_,few,rfl⟩ := program_read_sound into
    simp only [filled_commands] at formed
    have printed : output = cs.flatMap print_command := by
      simp only [commands_main,accepted',program_print_correct within,filled_commands,reduceCtorEq,↓reduceIte,
        Option.bind_eq_bind,Option.bind_some,Option.map_some,Option.some.injEq] at written
      rw [← written,List.flatMap_def]
    have count : cs.length ≤ 100 := short
    obtain ⟨again,reads,same,_⟩ := reread formed count (show cs.length ≤ program_init.2.listing.length from few)
    rw [printed,filled_commands]
    exact ⟨again,reads,same⟩

/-- The three programs do the same for a file of commands and for what `test-commands.c` writes for it. -/
theorem formatted_programs (accepted : program_read (sys.files commands_name) pgm = some (.ERR_NONE,after))
    (written : commands_main garbage (sys.files commands_name) = some output)
    (saved : sys.files formatted_name = some output) (pgm' : program_t) :
    (∀ (allocated : Nat → node_ptr) (opens : Bool) (memory_name output_name : List byte),
      simple_main allocated sys opens pgm' formatted_name memory_name output_name =
        simple_main allocated sys opens pgm commands_name memory_name output_name) ∧
    (∀ (opens : Bool) (memory_name output_name : List byte),
      hrchy_main sys opens pgm' formatted_name memory_name output_name =
        hrchy_main sys opens pgm commands_name memory_name output_name) ∧
    ∀ (found : Nat → Emulator.found) (command memory_name : List byte),
      cache_main sys pgm' found command memory_name formatted_name =
        cache_main sys pgm found command memory_name commands_name := by
  obtain ⟨again,reads,same⟩ := written_read accepted written pgm'
  have either : ∀ (loop : mem_space → List command_t → Option (List byte × Option Nat)) (opens : Bool)
      (memory_name output_name : List byte),
      tlb_main loop sys opens pgm' formatted_name memory_name output_name =
        tlb_main loop sys opens pgm commands_name memory_name output_name := by
    intro loop opens memory_name output_name
    simp only [tlb_main,saved,reads,accepted,same,Option.bind_eq_bind,Option.bind_some]
  refine ⟨fun allocated => either _,either _,?_⟩
  intro found command memory_name
  simp only [cache_main,saved,reads,accepted,same,Option.bind_eq_bind,Option.bind_some]

end

/-- A program of one line, as it may be written and as it is printed; a description of four bytes
    with an empty page, and files with these bytes. -/
def one_line : machine where
  files name :=
    if name = text "C" then some read_zero_line
    else if name = text "F" then some (print_command read_zero)
    else if name = text "M" then some (text "4\nP\n0\n")
    else if name = text "P" then some []
    else some [0,0,0,0]
  allocates _ _ := true
  reads _ := 64
  text_fails := false

theorem one_line_read (pgm : program_t) :
    program_read (one_line.files (text "C")) pgm = some (.ERR_NONE,filled program_init.2 [read_zero]) :=
  program_read_complete (line_reads (written_line read_zero_written (by decide))) (by decide)

theorem one_line_written (pgm : program_t) :
    commands_main pgm (one_line.files (text "C")) = some (print_command read_zero) := by
  have printed := program_print_correct (show (filled program_init.2 [read_zero]).nb_lines ≤ _ by decide)
  rw [filled_commands,List.map_singleton,List.flatten_singleton] at printed
  have opened : ¬ one_line.files (text "C") = none := by decide
  simp only [commands_main,if_neg opened,one_line_read,printed,↓reduceIte,Option.bind_eq_bind,Option.bind_some,
    Option.map_some]

theorem formatted_programs_one_line :
    (∀ (allocated : Nat → node_ptr) (opens : Bool) (memory_name output_name : List byte),
      simple_main allocated one_line opens program_init.2 (text "F") memory_name output_name =
        simple_main allocated one_line opens program_init.2 (text "C") memory_name output_name) ∧
    (∀ (opens : Bool) (memory_name output_name : List byte),
      hrchy_main one_line opens program_init.2 (text "F") memory_name output_name =
        hrchy_main one_line opens program_init.2 (text "C") memory_name output_name) ∧
    ∀ (found : Nat → Emulator.found) (command memory_name : List byte),
      cache_main one_line program_init.2 found command memory_name (text "F") =
        cache_main one_line program_init.2 found command memory_name (text "C") :=
  formatted_programs (one_line_read _) (one_line_written program_init.2) rfl program_init.2

/-! ### A memory as it was loaded -/

section
variable {sys : machine} {pgm : program_t} {found : Nat → Emulator.found} {mem : mem_space}

/-- All that counts of the memory's file is the memory. -/
theorem cache_main_loads {command memory_name : List byte} (loads : Loads sys command memory_name mem)
    (commands_name : List byte) : cache_main sys pgm found command memory_name commands_name =
      (program_read (sys.files commands_name) pgm).bind (fun read =>
        if read.1 ≠ .ERR_NONE then some (3,[])
        else (run Emulator.turn (Emulator.start mem) (read.2.commands.mapIdx (fun k command => (found k,command)))).map
          (fun done => (0,done.1.flatten))) := by
  have known : ¬ (command ≠ text "dump" ∧ command ≠ text "desc") := fun neither => loads.known.elim neither.1 neither.2
  simp only [cache_main,if_neg known,loads.stopped,loads.contents,Option.bind_eq_bind]

/-- The emulator shows the same from a description and from a file with the bytes of its memory. -/
theorem saved_memory_emulated {master_filename filename : List byte} (unfailing : Unfailing sys)
    (loads : Loads sys (text "desc") master_filename mem) (saved : sys.files filename = some (List.ofFn mem.byte))
    (commands_name : List byte) :
    cache_main sys pgm found (text "dump") filename commands_name =
      cache_main sys pgm found (text "desc") master_filename commands_name := by
  rw [cache_main_loads (desc_saved unfailing loads saved),cache_main_loads loads]

end

theorem one_line_unfailing : Unfailing one_line where
  read k name bytes opened := by
    simp only [one_line] at opened ⊢
    split_ifs at opened
    all_goals
      cases opened
      decide
  named := rfl
  text := rfl

theorem saved_memory_emulated_one_line :
    cache_main one_line program_init.2 (fun _ => Emulator.nothing_found) (text "dump") (text "D") (text "C") =
      cache_main one_line program_init.2 (fun _ => Emulator.nothing_found) (text "desc") (text "M") (text "C") := by
  have loads : Loads one_line (text "desc") (text "M") (zeros 4) := ⟨.inr rfl,by decide +kernel,rfl⟩
  exact saved_memory_emulated one_line_unfailing loads rfl (text "C")

/-! ### The TLB programs on their files -/

section
variable {sys : machine} {commands_name memory_name output_name : List byte} {cs : List command_t} {mem : mem_space}

/-- The list still has all its nodes when it is cleared, which frees the node that the loop
    of `clear_list` goes on from. -/
theorem simple_loop_plain (mem : mem_space) {allocated : Nat → node_ptr} (fresh : Function.Injective allocated)
    (cs : List command_t) : simple_loop allocated mem cs =
      (run (TlbTrace.plain_turn mem) (0,TlbPlain.start) cs).map (fun after =>
        (after.1.flatMap TlbTrace.print_report,none)) := by
  obtain ⟨heap,ll,filled,starts⟩ := start_initial fresh
  have alike := Machine.run_simulates id TlbTrace.print_report (TlbTrace.turns_together mem) cs (0,TlbPlain.start)
    ⟨0,⟨0,0⟩,⟨Tlb.tlb_flush.2,heap,ll⟩⟩ ⟨rfl,_,TlbPlain.initial_stands starts⟩
  rw [List.map_id] at alike
  rw [simple_loop,filled]
  rcases Machine.agree_cases alike with ⟨plainly,ran⟩ | ⟨a,b,plainly,ran,reports,_,ps,stands⟩
  · simp only [plainly,ran,Option.bind_eq_bind,Option.bind_some,Option.bind_none,Option.map_none]
  · obtain ⟨p,rest,split⟩ : ∃ p rest, ps = p :: rest := by
      refine List.exists_cons_of_ne_nil ?_
      rintro rfl
      exact a.2.2.order.ne_nil stands.order.symm
    have dead := clear_undefined (split ▸ stands.list) TLB_LINES
    simp only [plainly,ran,Option.bind_eq_bind,Option.bind_some,Option.map_some,dead,Option.map_none]
    rw [← reports,List.flatMap_def]

end

theorem frame_nowhere (vaddr : virt_addr_t) : frame (zeros 0) vaddr = none := by
  have missing : ∀ index, load (zeros 0) index = none := by
    intro index
    exact dif_neg (Nat.not_lt_zero _)
  simp [frame,entry,read_page_entry,missing]

/-- Without a memory there is no first report. -/
theorem simple_loop_nowhere {allocated : Nat → node_ptr} (fresh : Function.Injective allocated) {commands : List command_t}
    (some_line : commands ≠ []) : simple_loop allocated (zeros 0) commands = none := by
  obtain ⟨c,rest,rfl⟩ := List.exists_cons_of_ne_nil some_line
  have absent : TlbPlain.start.order.lines.reverse.find?
      (fun i => Tlb.Translates (TlbPlain.start.tlb i) (page c.vaddr)) = none := by
    rw [List.find?_eq_none]
    intro i _ translates
    have valid : (0#1 : BitVec 1) = 1#1 := (of_decide_eq_true translates).1
    exact absurd valid (by decide)
  have turned : TlbTrace.plain_turn (zeros 0) (0,TlbPlain.start) c = none := by
    rw [TlbTrace.plain_turn,TlbPlain.plain_search,absent,frame_nowhere]
    rfl
  rw [simple_loop_plain _ fresh,run,turned]
  rfl

theorem hrchy_loop_nowhere {commands : List command_t} (some_line : commands ≠ []) :
    hrchy_loop (zeros 0) commands = none := by
  obtain ⟨c,rest,rfl⟩ := List.exists_cons_of_ne_nil some_line
  have turned : TlbHrchyTrace.turn (zeros 0) TlbHrchyTrace.start c = none := by
    refine Option.eq_none_iff_forall_ne_some.mpr ?_
    rintro ⟨r,next⟩ executed
    obtain ⟨found,searched,_⟩ := TlbHrchyTrace.turn_some executed
    have moved := TlbHrchyRuns.tlb_search_move searched
    have walked := (TlbHrchyRuns.move_translates (TlbHrchyRuns.flushed_invariant _) moved ⟨0,0⟩).2
    rw [page_walk_correct,frame_nowhere] at walked
    cases walked
  rw [hrchy_loop,TlbHrchyTrace.trace,run,turned]
  rfl

section
variable {sys : machine} {pgm read : program_t} {commands_name name : List byte}

/-- When the file to be written is that of the memory, nothing of it is left when it is read. -/
theorem tlb_main_overwrites {loop : mem_space → List command_t → Option (List byte × Option Nat)}
    (accepted : program_read (sys.files commands_name) pgm = some (.ERR_NONE,read))
    (nowhere : loop (zeros 0) read.commands = none) (opens : Bool) :
    tlb_main loop sys opens pgm commands_name name name =
      if opens = false then some ⟨some 3,none⟩
      else if sys.allocates .memory 0 then none
      else some ⟨some 4,some []⟩ := by
  simp only [tlb_main,accepted,ne_eq,not_true_eq_false,↓reduceIte,Option.bind_eq_bind,Option.bind_some]
  cases opens with
  | false => rfl
  | true =>
    have emptied : (cleared sys name).files name = some [] := Function.update_self _ _ _
    by_cases met : sys.allocates .memory 0 = true
    · have loads : Loads (cleared sys name) (text "dump") name (zeros 0) :=
        saved_loads (by decide) emptied (Nat.zero_le _) met
      have stopped : (mem_init_from_dumpfile (cleared sys name) none name).stopped = none := loads.stopped
      have contents : (mem_init_from_dumpfile (cleared sys name) none name).contents = some (zeros 0) := loads.contents
      simp [stopped,contents,nowhere,met]
    · have stopped : (mem_init_from_dumpfile (cleared sys name) none name).stopped = some (.returned .ERR_MEM) := by
        have no_block : LoaderCleanup.calloc (cleared sys name) .memory 0 = none := if_neg met
        simp [mem_init_from_dumpfile,emptied,no_block]
      simp [stopped,met]

/-- A memory that is to be written over is lost. With a line to carry out, both programs end with 3 if
    the file cannot be opened, and with 4 and an empty file if there is no block of no bytes; if there is
    one, the first walk reads behind it, which is undefined. -/
theorem overwritten_memory (accepted : program_read (sys.files commands_name) pgm = some (.ERR_NONE,read))
    (some_line : read.commands ≠ []) {allocated : Nat → node_ptr} (fresh : Function.Injective allocated) (opens : Bool) :
    simple_main allocated sys opens pgm commands_name name name =
        (if opens = false then some ⟨some 3,none⟩
         else if sys.allocates .memory 0 then none
         else some ⟨some 4,some []⟩) ∧
      hrchy_main sys opens pgm commands_name name name =
        if opens = false then some ⟨some 3,none⟩
        else if sys.allocates .memory 0 then none
        else some ⟨some 4,some []⟩ :=
  ⟨tlb_main_overwrites accepted (simple_loop_nowhere fresh some_line) opens,
    tlb_main_overwrites accepted (hrchy_loop_nowhere some_line) opens⟩

end

/-- The files of `one_line`, where there is no block of no bytes. -/
def one_line_no_block : machine := { one_line with allocates := fun _ size => size ≠ 0 }

theorem overwritten_memory_no_block :
    simple_main id one_line_no_block true program_init.2 (text "C") (text "D") (text "D") = some ⟨some 4,some []⟩ ∧
      hrchy_main one_line_no_block true program_init.2 (text "C") (text "D") (text "D") = some ⟨some 4,some []⟩ := by
  have some_line : (filled program_init.2 [read_zero]).commands ≠ [] := by
    rw [filled_commands]
    exact List.cons_ne_nil _ _
  have accepted : program_read (one_line_no_block.files (text "C")) program_init.2 = _ := one_line_read _
  exact overwritten_memory accepted some_line Function.injective_id true

end CacheEmulator.Mains
