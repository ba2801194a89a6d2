import CacheEmulator.CacheBytes
import CacheEmulator.CacheDump
import CacheEmulator.Commands
import CacheEmulator.Machine
import CacheEmulator.PageWalk

/-!
The cache emulator: `execute_command` and the loop of `main` in `test-cache.c`.
The three caches share one memory, and L2 serves both first levels. An assertion
that fails ends the program, and the step has no result.
-/
namespace CacheEmulator.Emulator
open CacheEmulator.Error CacheEmulator.Memory CacheEmulator.Addr CacheEmulator.Cache CacheEmulator.CacheMng
open CacheEmulator.CacheCalls CacheEmulator.Coherence CacheEmulator.CacheDump CacheEmulator.Commands CacheEmulator.PageWalk CacheEmulator.Stdio
open CacheEmulator.Machine (run Agree)

structure emulator where
  mem_space : mem_space
  l1_icache : cache L1
  l1_dcache : cache L1
  l2_cache : cache L2

/-- What a turn of the loop finds: `errno`, and what the variables hold that are
    not initialised, here and in the cache operations. -/
structure found where
  errno : Int
  paddr : phy_addr_t
  byte : byte_t
  word : word_t
  stack : stack_t

def emulator.l1_cache (s : emulator) : mem_access_t → cache L1
  | .INSTRUCTION => s.l1_icache
  | .DATA => s.l1_dcache
/-- The caches that an operation was given, as it has left them. -/
def emulator.leave (s : emulator) (type : mem_access_t) (cs : caches) : emulator :=
  match type with
  | .INSTRUCTION => { s with l1_icache := cs.l1_cache, l2_cache := cs.l2_cache }
  | .DATA => { s with l1_dcache := cs.l1_cache, l2_cache := cs.l2_cache }

/-- The codes that the operations return are not looked at. -/
def execute_command (f : found) (s : emulator) (command : command_t) : Option emulator := do
  let walked ← page_walk s.mem_space command.vaddr f.paddr
  if walked.1 ≠ .ERR_NONE then none else
  let paddr := walked.2
  match command.order with
  | .READ =>
    let cs : caches := ⟨s.l1_cache command.type,s.l2_cache⟩
    if command.data_size = 4 then
      (cache_read f.errno s.mem_space paddr command.type cs f.word .LRU f.stack).map (fun r =>
        s.leave command.type r.caches)
    else
      (cache_read_byte f.errno s.mem_space paddr command.type cs f.byte .LRU f.stack).map (fun r =>
        s.leave command.type r.caches)
  | .WRITE =>
    let cs : caches := ⟨s.l1_dcache,s.l2_cache⟩
    if command.data_size = 4 then
      (cache_write f.errno s.mem_space paddr cs command.write_data .LRU f.stack).map (fun r =>
        { s.leave .DATA r.caches with mem_space := r.mem })
    else
      (cache_write_byte f.errno s.mem_space paddr cs (command.write_data.setWidth 8) .LRU f.stack).map (fun r =>
        { s.leave .DATA r.caches with mem_space := r.mem })

/-- What `main` prints after a command. -/
def print_caches (s : emulator) : Option (List byte) := do
  let icache ← cache_dump ⟨s.l1_icache,s.l2_cache⟩ .l1_cache .L1_ICACHE
  let dcache ← cache_dump ⟨s.l1_dcache,s.l2_cache⟩ .l1_cache .L1_DCACHE
  let second ← cache_dump ⟨s.l1_dcache,s.l2_cache⟩ .l2_cache .L2_CACHE
  some (text "L1_ICACHE: \n\n" ++ icache.2 ++ text "L1_DCACHE: \n\n" ++ dcache.2 ++ text "L2_CACHE: \n\n" ++ second.2 ++
    text "\n=======================================\n\n")

/-- One turn of the loop over the lines of the program. -/
def turn (s : emulator) (input : found × command_t) : Option (List byte × emulator) := do
  let s ← execute_command input.1 s input.2
  let printed ← print_caches s
  some (printed,s)

/-- The emulator at the start of the loop. -/
def start (mem : mem_space) : emulator :=
  ⟨mem,cache_flush_process L1,cache_flush_process L1,cache_flush_process L2⟩

/-! ### Caches without a valid entry -/

variable {g : geometry}

def Invalid (cache : Cache.cache g) : Prop := ∀ s w, (cache s w).v = 0#1

structure Hollow (s : emulator) : Prop where
  l1_icache : Invalid s.l1_icache
  l1_dcache : Invalid s.l1_dcache
  l2_cache : Invalid s.l2_cache

theorem start_hollow (mem : mem_space) : Hollow (start mem) := ⟨fun _ _ => rfl,fun _ _ => rfl,fun _ _ => rfl⟩

theorem invalid_same {cache cache' : Cache.cache g} (invalid : Invalid cache) (same : SameLines cache cache') :
    Invalid cache' := fun s w => (same s w).1.trans (invalid s w)

theorem hollow_l1 {s : emulator} (hollow : Hollow s) (type : mem_access_t) : Invalid (s.l1_cache type) := by
  cases type with
  | INSTRUCTION => exact hollow.l1_icache
  | DATA => exact hollow.l1_dcache

theorem hollow_leave {s : emulator} (hollow : Hollow s) (type : mem_access_t) {cs : caches} (first : Invalid cs.l1_cache)
    (second : Invalid cs.l2_cache) : Hollow (s.leave type cs) := by
  cases type with
  | INSTRUCTION => exact ⟨first,hollow.l1_dcache,second⟩
  | DATA => exact ⟨hollow.l1_icache,first,second⟩

@[simp] theorem leave_mem (s : emulator) (type : mem_access_t) (cs : caches) : (s.leave type cs).mem_space = s.mem_space := by
  cases type <;> rfl

theorem invalid_cold {l1_cache : cache L1} (first : Invalid l1_cache) (l2_cache : cache L2) (p : Nat) :
    Cold ⟨l1_cache,l2_cache⟩ p := ⟨0,first _ _⟩

/-- The dump of a flushed cache. -/
def empty_dump (g : geometry) : List byte :=
  text "WAY/LINE: V: AGE: TAG: WORDS\n" ++ DUMP_CACHE_TYPE (cache_flush_process g) ++ [chr '\n']

/-- What is printed after a command while the caches hold nothing. -/
def empty_text : List byte :=
  text "L1_ICACHE: \n\n" ++ empty_dump L1 ++ text "L1_DCACHE: \n\n" ++ empty_dump L1 ++ text "L2_CACHE: \n\n" ++
    empty_dump L2 ++ text "\n=======================================\n\n"

/-- Whatever its ages, tags and words, a cache without a valid entry shows what a flushed one shows. -/
theorem invalid_dump {cs : caches} {ptr : cache_ptr} {cache_type : cache_t} (invalid : Invalid (cs.deref ptr))
    (cast : cache_type.cast = some ptr) : cache_dump cs ptr cache_type = some (.ERR_NONE,empty_dump ptr.type) := by
  have same : DUMP_CACHE_TYPE (cs.deref ptr) = DUMP_CACHE_TYPE (cache_flush_process ptr.type) := by
    rw [tells_cache.text_eq]
    intro s w
    exact ⟨invalid s w,fun valid => absurd (invalid s w) valid⟩
  simp only [cache_dump,cast,↓reduceIte,same,empty_dump]

theorem hollow_prints {s : emulator} (hollow : Hollow s) : print_caches s = some empty_text := by
  have first := invalid_dump (show Invalid (caches.deref ⟨s.l1_icache,s.l2_cache⟩ .l1_cache) from hollow.l1_icache)
    (show cache_t.L1_ICACHE.cast = some .l1_cache from rfl)
  have data := invalid_dump (show Invalid (caches.deref ⟨s.l1_dcache,s.l2_cache⟩ .l1_cache) from hollow.l1_dcache)
    (show cache_t.L1_DCACHE.cast = some .l1_cache from rfl)
  have second := invalid_dump (show Invalid (caches.deref ⟨s.l1_dcache,s.l2_cache⟩ .l2_cache) from hollow.l2_cache)
    (show cache_t.L2_CACHE.cast = some .l2_cache from rfl)
  simp only [print_caches,first,data,second,Option.bind_eq_bind,Option.bind_some,empty_text]

/-! ### The operations on such caches -/

section
variable {mem : mem_space} {paddr : phy_addr_t} {l1_cache : cache L1} {l2_cache : cache L2} {errno : Int} {stack : stack_t}

theorem read_invalid (first : Invalid l1_cache) (second : Invalid l2_cache) (access : mem_access_t) (word : word_t) :
    ∃ r, cache_read errno mem paddr access ⟨l1_cache,l2_cache⟩ word .LRU stack = some r ∧ Invalid r.caches.l1_cache ∧
      Invalid r.caches.l2_cache := by
  by_cases aligned : address paddr % 16 = 0
  · have returns : ReadReturns errno ⟨l1_cache,l2_cache⟩ (address paddr) := Or.inr (invalid_cold first l2_cache _)
    obtain ⟨r,ran⟩ := Option.isSome_iff_exists.mp ((cache_read_isSome errno mem access _ word stack aligned).mpr returns)
    obtain ⟨_,same,sameSecond,_⟩ := cache_read_returns aligned ran
    refine ⟨r,ran,invalid_same first same,?_⟩
    rw [sameSecond]
    exact second
  · exact ⟨_,read_misaligned _ _ _ _ _ _ aligned,first,second⟩

theorem read_byte_invalid (first : Invalid l1_cache) (second : Invalid l2_cache) (access : mem_access_t) (byte : byte_t) :
    ∃ r, cache_read_byte errno mem paddr access ⟨l1_cache,l2_cache⟩ byte .LRU stack = some r ∧
      Invalid r.caches.l1_cache ∧ Invalid r.caches.l2_cache := by
  by_cases aligned : address paddr % 16 = 0
  · by_cases clear : errno = 0
    · subst clear
      exact ⟨_,CacheBytes.read_byte_ones _ _ _ _ _ aligned,first,second⟩
    · refine ⟨_,(ErrnoNeutral.read_byte_set clear _ _ _ _ _ _ aligned).trans (if_pos rfl),?_,second⟩
      exact invalid_same first (sameLines_looked_up .l1_cache _ _)
  · exact ⟨_,ErrnoNeutral.read_byte_refused _ _ _ _ _ _ _ aligned,first,second⟩

/-- The stores of a write: the line of the address, with the word in it, at the start of its block. -/
def carry_out (mem : mem_space) (p : Nat) (word : word_t) : Option mem_space :=
  (load_line mem (line_base p)).bind (fun old => store_line mem p (new_line old p word))

/-- What a write leaves of the memory and of caches without a valid entry. -/
def Wrote (r : write_t) (after : mem_space) : Prop :=
  r.mem = after ∧ Invalid r.caches.l1_cache ∧ Invalid r.caches.l2_cache

theorem write_invalid (first : Invalid l1_cache) (second : Invalid l2_cache) (word : word_t) :
    Agree Wrote (cache_write errno mem paddr ⟨l1_cache,l2_cache⟩ word .LRU stack)
      (if errno = 0 then carry_out mem (address paddr) word else some mem) := by
  by_cases clear : errno = 0
  · subst clear
    obtain ⟨w,place⟩ := Option.isSome_iff_exists.mp (last_invalid_isSome.mpr (invalid_cold first l2_cache (address paddr)))
    rw [cache_write_clear,if_pos rfl,carry_out,place]
    cases load_line mem (line_base (address paddr)) with
    | none => trivial
    | some old =>
      simp only [Option.bind_some]
      cases store_line mem (address paddr) (new_line old (address paddr) word) with
      | none => trivial
      | some after => exact ⟨rfl,invalid_same first (sameLines_with_ages _ _ _),second⟩
  · rw [cache_write_set clear,if_neg clear]
    exact ⟨rfl,first,invalid_same second (sameLines_looked_up .l2_cache _ _)⟩

theorem write_byte_invalid (first : Invalid l1_cache) (second : Invalid l2_cache) (byte : byte_t) :
    Agree Wrote (cache_write_byte errno mem paddr ⟨l1_cache,l2_cache⟩ byte .LRU stack)
      (if errno = 0 then carry_out mem (address (word_aligned paddr)) (merge_byte (-1) byte (bit_select paddr))
       else some mem) := by
  by_cases clear : errno = 0
  · subst clear
    rw [ErrnoNeutral.write_byte_clear]
    exact write_invalid first second _
  · rw [ErrnoNeutral.write_byte_set clear,if_neg clear]
    split
    · exact ⟨rfl,invalid_same first (sameLines_looked_up .l1_cache _ _),second⟩
    · exact ⟨rfl,first,second⟩

end

/-! ### A machine without caches -/

/-- Where a write goes and the word it writes; that of a byte is otherwise all ones. -/
def target (paddr : phy_addr_t) (command : command_t) : Nat × word_t :=
  if command.data_size = 4 then (address paddr,command.write_data)
  else (address (word_aligned paddr),merge_byte (-1) (command.write_data.setWidth 8) (bit_select paddr))

/-- A command on the memory alone: reads change nothing, and writes nothing unless `errno` is clear. -/
def memory_step (mem : mem_space) (input : Int × command_t) : Option (List byte × mem_space) :=
  (frame mem input.2.vaddr).bind (fun page_num =>
    let to_ := target ⟨page_num,input.2.vaddr.page_offset⟩ input.2
    (if input.2.order = .WRITE ∧ input.1 = 0 then carry_out mem to_.1 to_.2 else some mem).map (fun after =>
      (empty_text,after)))

/-- The emulator and a memory in step: no cache has a valid entry. -/
def Bare (s : emulator) (mem : mem_space) : Prop := Hollow s ∧ s.mem_space = mem

theorem agree_wrote {s : emulator} (hollow : Hollow s) {ran : Option write_t} {stored : Option mem_space}
    (agree : Agree Wrote ran stored) :
    Agree (fun after memory => Bare after memory.2)
      (ran.map (fun r => { s.leave .DATA r.caches with mem_space := r.mem }))
      (stored.map (fun after => (empty_text,after))) := by
  refine Machine.agree_image ?_ agree
  rintro r after ⟨rfl,first,second⟩
  exact ⟨⟨hollow.l1_icache,first,second⟩,rfl⟩

theorem execute_command_correct {s : emulator} (hollow : Hollow s) (f : found) (command : command_t) :
    Agree (fun after memory => Bare after memory.2) (execute_command f s command)
      (memory_step s.mem_space (f.errno,command)) := by
  cases walked : frame s.mem_space command.vaddr with
  | none => simp [execute_command,memory_step,page_walk_correct,walked,Agree]
  | some page_num =>
    simp only [execute_command,memory_step,page_walk_correct,walked,Option.map_some,Option.bind_eq_bind,Option.bind_some,
      ne_eq,not_true_eq_false,↓reduceIte]
    cases order : command.order with
    | READ =>
      have first := hollow_l1 hollow command.type
      simp only [reduceCtorEq,false_and,↓reduceIte]
      split
      · obtain ⟨r,ran,invalid,second⟩ := read_invalid first hollow.l2_cache command.type f.word
        rw [ran]
        exact ⟨hollow_leave hollow _ invalid second,leave_mem _ _ _⟩
      · obtain ⟨r,ran,invalid,second⟩ := read_byte_invalid first hollow.l2_cache command.type f.byte
        rw [ran]
        exact ⟨hollow_leave hollow _ invalid second,leave_mem _ _ _⟩
    | WRITE =>
      simp only [true_and,target]
      split
      · exact agree_wrote hollow (write_invalid hollow.l1_dcache hollow.l2_cache command.write_data)
      · exact agree_wrote hollow (write_byte_invalid hollow.l1_dcache hollow.l2_cache (command.write_data.setWidth 8))

theorem turn_correct {s : emulator} {mem : mem_space} (bare : Bare s mem) (input : found × command_t) :
    Agree (fun a b => a.1 = b.1 ∧ Bare a.2 b.2) (turn s input) (memory_step mem (input.1.errno,input.2)) := by
  obtain ⟨hollow,rfl⟩ := bare
  rw [turn]
  rcases Machine.agree_cases (execute_command_correct hollow input.1 input.2) with
    ⟨ran,stepped⟩ | ⟨after,b,ran,stepped,executed⟩
  · rw [ran,stepped]
    trivial
  · have printed : b.1 = empty_text := by
      obtain ⟨_,_,stored⟩ := Option.bind_eq_some_iff.mp stepped
      obtain ⟨_,_,rfl⟩ := Option.map_eq_some_iff.mp stored
      rfl
    simp only [ran,stepped,Option.bind_eq_bind,Option.bind_some,hollow_prints executed.1]
    exact ⟨printed.symm,executed⟩

theorem run_correct (mem : mem_space) (inputs : List (found × command_t)) :
    Agree (fun a b => a.1.map id = b.1 ∧ Bare a.2 b.2) (run turn (start mem) inputs)
      (run memory_step mem (inputs.map (fun i => (i.1.errno,i.2)))) :=
  Machine.run_simulates (fun i : found × command_t => (i.1.errno,i.2)) id
    (fun s memory i (bare : Bare s memory) => turn_correct bare i) inputs (start mem) mem ⟨start_hollow mem,rfl⟩

/-- The whole trace of the emulator, and the memory it ends with, are those of the machine
    without caches: no dump ever shows a valid entry, and nothing that a variable holds
    before it is written can be seen. -/
theorem emulator_shows_no_caches (mem : mem_space) (inputs : List (found × command_t)) :
    (run turn (start mem) inputs).map (fun after => (after.1,after.2.mem_space)) =
      run memory_step mem (inputs.map (fun i => (i.1.errno,i.2))) := by
  rcases Machine.agree_cases (run_correct mem inputs) with ⟨left,right⟩ | ⟨a,b,left,right,sameText,_,sameMem⟩
  · rw [left,right]
    rfl
  · rw [List.map_id] at sameText
    rw [left,right,Option.map_some,sameText,sameMem]

/-! ### What a program can change -/

theorem word_aligned_block (paddr : phy_addr_t) : address (word_aligned paddr) / 64 = address paddr / 64 := by
  rw [ErrnoNeutral.address_word_aligned]
  omega

theorem target_block (paddr : phy_addr_t) (command : command_t) : (target paddr command).1 / 64 = address paddr / 64 := by
  unfold target
  split
  · rfl
  · exact word_aligned_block paddr

/-- A write changes bytes of the first line of its block only. -/
theorem carry_out_frame {mem after : mem_space} {p : Nat} {word : word_t} (stored : carry_out mem p word = some after) :
    after.capacity = mem.capacity ∧ ∀ a, byte_at after a ≠ byte_at mem a → a / 16 = p / 64 * 4 := by
  obtain ⟨old,_,stored⟩ := Option.bind_eq_some_iff.mp stored
  refine ⟨(store_words_correct (fun _ _ => rfl) stored).1,?_⟩
  intro a changed
  by_contra elsewhere
  rw [CacheBytes.store_line_bytes stored,if_neg elsewhere] at changed
  exact changed rfl

/-- The command writes into the block of 64 bytes whose first line the byte is in. -/
def WritesAt (mem : mem_space) (input : Int × command_t) (a : Nat) : Prop :=
  input.2.order = .WRITE ∧ input.1 = 0 ∧ ∃ page_num, frame mem input.2.vaddr = some page_num ∧
    a / 16 = address ⟨page_num,input.2.vaddr.page_offset⟩ / 64 * 4

theorem memory_step_frame {mem after : mem_space} {input : Int × command_t} {printed : List byte}
    (stepped : memory_step mem input = some (printed,after)) :
    after.capacity = mem.capacity ∧ ∀ a, byte_at after a ≠ byte_at mem a → WritesAt mem input a := by
  obtain ⟨page_num,walked,stored⟩ := Option.bind_eq_some_iff.mp stepped
  obtain ⟨result,stored,same⟩ := Option.map_eq_some_iff.mp stored
  cases same
  split at stored
  · rename_i writes
    obtain ⟨capacity,changes⟩ := carry_out_frame stored
    refine ⟨capacity,fun a changed => ⟨writes.1,writes.2,page_num,walked,?_⟩⟩
    rw [changes a changed,target_block]
  · cases stored
    exact ⟨rfl,fun a changed => absurd rfl changed⟩

/-- Some command of the run so far wrote into the block, as it was translated then. -/
def WrittenAt (mem : mem_space) (inputs : List (found × command_t)) (a : Nat) : Prop :=
  ∃ before input after printed s, inputs = before ++ input :: after ∧ run turn (start mem) before = some (printed,s) ∧
    WritesAt s.mem_space (input.1.errno,input.2) a

theorem writtenAt_append {mem : mem_space} {inputs : List (found × command_t)} {a : Nat} (written : WrittenAt mem inputs a)
    (later : List (found × command_t)) : WrittenAt mem (inputs ++ later) a := by
  obtain ⟨before,input,after,printed,s,rfl,ran,writes⟩ := written
  exact ⟨before,input,after ++ later,printed,s,by simp,ran,writes⟩

/-- A program changes a byte only by a write, with a clear `errno`, into the block of 64 bytes
    around the byte, and only if the byte is one of the first 16 of the block. -/
theorem emulator_memory_frame {mem : mem_space} {inputs : List (found × command_t)} {printed : List (List byte)}
    {last : emulator} (ran : run turn (start mem) inputs = some (printed,last)) :
    last.mem_space.capacity = mem.capacity ∧
      ∀ a, byte_at last.mem_space a ≠ byte_at mem a → WrittenAt mem inputs a ∧ a % 64 < 16 := by
  have kept : ∀ (before : List (found × command_t)) (s : emulator) (i : found × command_t) (o : List byte) (next : emulator),
      ((∃ printed, run turn (start mem) before = some (printed,s)) ∧ Hollow s ∧ s.mem_space.capacity = mem.capacity ∧
        ∀ a, byte_at s.mem_space a ≠ byte_at mem a → WrittenAt mem before a) → turn s i = some (o,next) →
      ((∃ printed, run turn (start mem) (before ++ [i]) = some (printed,next)) ∧ Hollow next ∧
        next.mem_space.capacity = mem.capacity ∧
        ∀ a, byte_at next.mem_space a ≠ byte_at mem a → WrittenAt mem (before ++ [i]) a) ∧ True := by
    rintro before s i o next ⟨⟨printed,reached⟩,hollow,capacity,changes⟩ stepped
    have together := turn_correct ⟨hollow,rfl⟩ i
    rw [stepped] at together
    obtain ⟨⟨text,after⟩,moved,_,hollowNext,sameMem⟩ := Machine.agree_left together
    obtain rfl : next.mem_space = after := sameMem
    obtain ⟨sameCapacity,frame⟩ := memory_step_frame moved
    have one : run turn s [i] = some ([o],next) := by rw [Machine.run_cons_of stepped]; rfl
    refine ⟨⟨⟨_,Machine.run_append before [i] reached one⟩,hollowNext,sameCapacity.trans capacity,?_⟩,trivial⟩
    intro a changed
    by_cases now : byte_at next.mem_space a = byte_at s.mem_space a
    · exact writtenAt_append (changes a (now ▸ changed)) [i]
    · exact ⟨before,i,[],printed,s,rfl,reached,frame a now⟩
  obtain ⟨⟨_,_,capacity,changes⟩,_⟩ := Machine.run_keeps kept inputs [] (start mem) last printed
    ⟨⟨[],rfl⟩,start_hollow mem,rfl,fun a changed => absurd rfl changed⟩ ran
  refine ⟨capacity,fun a changed => ⟨changes a changed,?_⟩⟩
  obtain ⟨_,_,_,_,_,_,_,_,_,_,_,block⟩ := changes a changed
  omega

theorem run_isSome (mem : mem_space) (inputs : List (found × command_t)) :
    (run turn (start mem) inputs).isSome = (run memory_step mem (inputs.map (fun i => (i.1.errno,i.2)))).isSome := by
  rcases Machine.agree_cases (run_correct mem inputs) with ⟨left,right⟩ | ⟨a,b,left,right,_⟩
  · rw [left,right]
    rfl
  · rw [left,right]
    rfl

/-- Variables of zeros, with a clear `errno`. -/
def nothing_found : found := ⟨0,⟨0,0⟩,0,0,⟨fun _ => 0,fun _ => 0⟩⟩
/-- A write of 7 at address 4, and a read of the instruction at address 0. -/
def two_commands : List command_t :=
  [⟨.WRITE,.DATA,4,7,⟨0,0,0,0,0,4⟩⟩,⟨.READ,.INSTRUCTION,4,0,⟨0,0,0,0,0,0⟩⟩]
def two_inputs : List (found × command_t) := two_commands.map (fun command => (nothing_found,command))

theorem emulator_memory_frame_two : ∃ printed last, run turn (start zero_block) two_inputs = some (printed,last) ∧
    last.mem_space.capacity = zero_block.capacity ∧
      ∀ a, byte_at last.mem_space a ≠ byte_at zero_block a → WrittenAt zero_block two_inputs a ∧ a % 64 < 16 := by
  have defined : (run turn (start zero_block) two_inputs).isSome := by
    rw [run_isSome]
    decide
  obtain ⟨⟨printed,last⟩,ran⟩ := Option.isSome_iff_exists.mp defined
  exact ⟨printed,last,ran,emulator_memory_frame ran⟩

/-! ### Programs that see a plain memory -/

/-- A plain memory: reads leave it alone, and a word is written where it belongs, unless
    `errno` is set. It takes only aligned words for the first line of a block that has room for that line. -/
def plain_step (mem : mem_space) (input : Int × command_t) : Option (Unit × mem_space) :=
  (frame mem input.2.vaddr).bind (fun page_num =>
    let p := address ⟨page_num,input.2.vaddr.page_offset⟩
    match input.2.order with
    | .READ => some ((),mem)
    | .WRITE =>
      if input.1 ≠ 0 then some ((),mem)
      else if input.2.data_size = 4 ∧ p % 4 = 0 ∧ p / 16 % 4 = 0 ∧ LineInside mem p then
        (store mem (p / 4) input.2.write_data).map (fun after => ((),after))
      else none)

/-- In the first line of a block the line that is stored is the old one with the word in its place. -/
theorem carry_out_in_place {mem : mem_space} {p : Nat} (first : p / 16 % 4 = 0) (inside : LineInside mem p)
    (word : word_t) : carry_out mem p word = store mem (p / 4) word := by
  obtain ⟨old,loaded⟩ := Option.isSome_iff_exists.mp ((load_line_isSome mem p).mpr inside)
  obtain ⟨after,stored⟩ := Option.isSome_iff_exists.mp (store_line_isSome (new_line old p word) inside)
  have room : 4 * (p / 4) + 3 < mem.capacity := by
    rw [LineInside,line_base] at inside
    omega
  obtain ⟨plain,storedPlain⟩ := Option.isSome_iff_exists.mp ((store_isSome mem (p / 4) word).mpr room)
  rw [carry_out,loaded,Option.bind_some,stored,storedPlain]
  congr 1
  refine mem_ext ((store_words_correct (fun _ _ => rfl) stored).1.trans (store_capacity storedPlain).symm) ?_
  intro a
  rw [CacheBytes.store_line_bytes stored,byte_at_store storedPlain]
  by_cases inLine : a / 16 = p / 64 * 4
  · have small : a % 16 / 4 < L1_ICACHE_WORDS_PER_LINE := by
      rw [show L1_ICACHE_WORDS_PER_LINE = 4 from rfl]
      omega
    rw [if_pos inLine,Coherence.new_line_word old p word _ small,word_number]
    by_cases here : a / 4 = p / 4
    · rw [if_pos (by omega),if_pos here]
    · rw [if_neg (by omega),if_neg here]
      exact (byte_at_load (Coherence.load_line_word loaded small) (by rw [line_base]; omega)).symm
  · rw [if_neg inLine,if_neg (by omega)]

theorem plain_step_correct {mem after : mem_space} {input : Int × command_t}
    (stepped : plain_step mem input = some ((),after)) : memory_step mem input = some (empty_text,after) := by
  obtain ⟨page_num,walked,stored⟩ := Option.bind_eq_some_iff.mp stepped
  simp only [memory_step,walked,Option.bind_some]
  cases order : input.2.order with
  | READ =>
    simp only [order,Option.some.injEq,Prod.mk.injEq,true_and] at stored
    simp [stored]
  | WRITE =>
    simp only [order] at stored
    by_cases clear : input.1 = 0
    · rw [if_neg (not_not_intro clear)] at stored
      split at stored
      · rename_i whole
        obtain ⟨word,_,first,inside⟩ := whole
        obtain ⟨result,stored,same⟩ := Option.map_eq_some_iff.mp stored
        cases same
        simp only [clear,and_self,↓reduceIte,target,word,carry_out_in_place first inside,stored,Option.map_some]
      · cases stored
    · rw [if_pos clear] at stored
      cases stored
      simp [clear]

theorem plain_run_correct : ∀ {inputs : List (Int × command_t)} {mem last : mem_space} {done : List Unit},
    run plain_step mem inputs = some (done,last) → ∃ printed, run memory_step mem inputs = some (printed,last) := by
  intro inputs
  induction inputs with
  | nil =>
    intro mem last done ran
    cases ran
    exact ⟨[],rfl⟩
  | cons i inputs ih =>
    intro mem last done ran
    obtain ⟨o,next,rest,stepped,tail,_⟩ := Machine.run_cons ran
    obtain ⟨printed,later⟩ := ih tail
    exact ⟨empty_text :: printed,by rw [Machine.run_cons_of (plain_step_correct stepped),later]; rfl⟩

/-- A program that the plain memory takes runs through, whatever its variables hold, and its
    memory is the plain one, the page tables included, however the writes change them. -/
theorem emulator_refines_plain {mem last : mem_space} {inputs : List (found × command_t)} {done : List Unit}
    (ran : run plain_step mem (inputs.map (fun i => (i.1.errno,i.2))) = some (done,last)) :
    ∃ printed s, run turn (start mem) inputs = some (printed,s) ∧ s.mem_space = last := by
  obtain ⟨printed,executed⟩ := plain_run_correct ran
  have together := run_correct mem inputs
  rw [executed] at together
  obtain ⟨⟨printed',s⟩,emulated,_,_,sameMem⟩ := Machine.agree_right together
  exact ⟨printed',s,emulated,sameMem⟩

/-- Before the two commands, the write of a byte that meets a set `errno`. -/
def three_inputs : List (found × command_t) :=
  ({ nothing_found with errno := 1 },⟨.WRITE,.DATA,1,9,⟨0,0,0,0,0,3⟩⟩) :: two_inputs

theorem emulator_refines_plain_three : ∃ done last printed s,
    run plain_step zero_block (three_inputs.map (fun i => (i.1.errno,i.2))) = some (done,last) ∧
      run turn (start zero_block) three_inputs = some (printed,s) ∧ s.mem_space = last ∧ load last 1 = some 7 := by
  have defined : ((run plain_step zero_block (three_inputs.map (fun i => (i.1.errno,i.2)))).bind
      (fun after => load after.2 1)) = some 7 := by decide
  obtain ⟨⟨done,last⟩,ran,seven⟩ := Option.bind_eq_some_iff.mp defined
  obtain ⟨printed,s,emulated,same⟩ := emulator_refines_plain ran
  exact ⟨done,last,printed,s,ran,emulated,same,seven⟩

end CacheEmulator.Emulator
