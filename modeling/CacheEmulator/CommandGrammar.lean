import CacheEmulator.Commands

/-!
The grammar of a command file, over a lexicon for the parts of a line that the
parser reads with a loop: the blanks, the digits of a value and those of an
address. `Written` is the lexicon of the file format and `Accepted` that of the
parser; the parser reads exactly the lines over `Accepted`.
-/
namespace CacheEmulator.CommandGrammar
open CacheEmulator.Error CacheEmulator.Addr CacheEmulator.Stdio CacheEmulator.Numeral CacheEmulator.Commands
open CacheEmulator.Memory (word_t)

structure Lexicon where
  Blanks : List byte → Prop
  Value : List byte → word_t → Prop
  Address : List byte → virt_addr_t → Prop

/-- The letter of a data size. -/
inductive Sized : byte → Nat → Prop
  | word : Sized (chr 'W') sizeof_word
  | byte : Sized (chr 'B') 1

/-- The end of every line. -/
def at_address (digits : List byte) : List byte := [chr '@',chr '0',chr 'x'] ++ digits ++ [chr '\n']

/-- A line and the command it stands for. -/
inductive Line (L : Lexicon) : List byte → command_t → Prop
  | read_instruction {b₁ b₂ digits : List byte} {vaddr : virt_addr_t} (first : L.Blanks b₁) (second : L.Blanks b₂)
      (address : L.Address digits vaddr) :
      Line L (chr 'R' :: (b₁ ++ chr 'I' :: (b₂ ++ at_address digits)))
        { order := .READ, type := .INSTRUCTION, data_size := sizeof_word, write_data := 0, vaddr := vaddr }
  | read_data {b₁ b₂ digits : List byte} {c : byte} {size : Nat} {vaddr : virt_addr_t} (first : L.Blanks b₁)
      (sized : Sized c size) (second : L.Blanks b₂) (address : L.Address digits vaddr) :
      Line L (chr 'R' :: (b₁ ++ chr 'D' :: c :: (b₂ ++ at_address digits)))
        { order := .READ, type := .DATA, data_size := size, write_data := 0, vaddr := vaddr }
  | write_data {b₁ b₂ b₃ word digits : List byte} {c : byte} {size : Nat} {value : word_t} {vaddr : virt_addr_t}
      (first : L.Blanks b₁) (sized : Sized c size) (second : L.Blanks b₂) (value_of : L.Value word value)
      (third : L.Blanks b₃) (address : L.Address digits vaddr) :
      Line L (chr 'W' :: (b₁ ++ chr 'D' :: c :: (b₂ ++ chr '0' :: chr 'x' :: (word ++ (b₃ ++ at_address digits)))))
        { order := .WRITE, type := .DATA, data_size := size, write_data := value, vaddr := vaddr }

/-- A sequence of lines and the commands they stand for. -/
inductive Text (L : Lexicon) : List byte → List command_t → Prop
  | nil : Text L [] []
  | cons {line text : List byte} {c : command_t} {cs : List command_t} (first : Line L line c) (rest : Text L text cs) :
      Text L (line ++ text) (c :: cs)

/-- The file format: blanks are one or more, a value has one to eight digits and
    an address sixteen; both are the numbers these denote. -/
def Written : Lexicon where
  Blanks w := w ≠ [] ∧ ∀ c ∈ w, isspace c = true
  Value w value := 1 ≤ w.length ∧ w.length ≤ 8 ∧ Hexadecimal w value.toNat
  Address w vaddr := w.length = 16 ∧ vaddr.reserved = 0 ∧ ∃ n, Hexadecimal w n ∧ number vaddr = n % 2 ^ 48

/-- The word the reading loops make of any bytes. -/
def read_word {size : Nat} (w : List byte) : BitVec size := w.foldl push_digit 0

/-- What the parser lets pass. It counts blanks and the bits of a value with
    machine integers, swallows a byte 255 that follows blanks, and takes any
    bytes for digits. -/
def Accepted : Lexicon where
  Blanks w := ∃ blanks, (∀ c ∈ blanks, isspace c = true) ∧ BitVec.ofNat 32 blanks.length ≠ 0 ∧
    (w = blanks ∨ w = blanks ++ [EOF])
  Value w value := (∀ c ∈ w, isspace c = false) ∧ (BitVec.ofNat 32 (4 * w.length)).sle 32 = true ∧ value = read_word w
  Address w vaddr := w.length = 16 ∧ vaddr.reserved = 0 ∧
    number vaddr = (read_word w : BitVec 64).toNat % 2 ^ 48

/-! ### The loops -/

theorem foldl_count {size : Nat} (k : Nat) (w : List byte) (s : BitVec size) :
    w.foldl (fun s _ => s + BitVec.ofNat size k) s = s + BitVec.ofNat size (k * w.length) := by
  induction w generalizing s with
  | nil => simp
  | cons c w ih =>
    rw [List.foldl_cons,ih,List.length_cons,Nat.mul_add_one,Nat.add_comm (k * w.length),BitVec.ofNat_add,BitVec.add_assoc]

theorem foldl_pair {α β : Type} (f : α → byte → α) (g : β → byte → β) (w : List byte) (a : α) (b : β) :
    w.foldl (fun (s : α × β) c => (f s.1 c,g s.2 c)) (a,b) = (w.foldl f a,w.foldl g b) := by
  induction w generalizing a b with
  | nil => rfl
  | cons c w ih => exact ih (f a c) (g b c)

/-- The two ways out of the loop over blanks that are no error. -/
theorem next_char_sound {entree : FILE} (passed : (next_char entree).1 = .ERR_NONE) :
    ∃ w, entree.rest = w ++ (next_char entree).2.rest ∧ Accepted.Blanks w := by
  generalize read : next_char entree = next at passed ⊢
  obtain ⟨code,left⟩ := next
  obtain rfl : code = .ERR_NONE := passed
  cases entree with
  | ended => simp [next_char] at read
  | reading text =>
    obtain ⟨word,blanks,ends⟩ := read_while_total isspace (fun (skipped : BitVec 32) _ => skipped + 1) text 0
    have count : word.foldl (fun (skipped : BitVec 32) _ => skipped + 1) 0 = BitVec.ofNat 32 word.length := by
      simpa using foldl_count 1 word (0 : BitVec 32)
    rw [next_char,require_holds (by simp)] at read
    rcases ends with ⟨rfl,loop⟩ | ⟨c,rest,rfl,proper,loop⟩
    · simp only [loop,count] at read
      obtain ⟨some_blank,same⟩ := require_passed read (by simp)
      obtain ⟨_,rfl⟩ := Prod.mk.inj same
      exact ⟨text,by simp [FILE.rest],text,blanks,some_blank,.inl rfl⟩
    · simp only [loop,count] at read
      obtain ⟨some_blank,same⟩ := require_passed read (by simp)
      obtain ⟨_,rfl⟩ := Prod.mk.inj same
      by_cases lost : c = EOF
      · subst lost
        exact ⟨word ++ [EOF],by simp [FILE.rest],word,blanks,some_blank,.inr rfl⟩
      · refine ⟨word,?_,word,blanks,some_blank,.inl rfl⟩
        rw [char_some,ungetc_proper lost]
        rfl

/-- Blanks are read up to the next character. -/
theorem next_char_complete {w : List byte} (accepted : Accepted.Blanks w) {c : byte} (proper : isspace c = false)
    (visible : c ≠ EOF) (rest : List byte) :
    next_char (.reading (w ++ c :: rest)) = (.ERR_NONE,.reading (c :: rest)) := by
  obtain ⟨blanks,all,some_blank,shape⟩ := accepted
  have count : blanks.foldl (fun (skipped : BitVec 32) _ => skipped + 1) 0 = BitVec.ofNat 32 blanks.length := by
    simpa using foldl_count 1 blanks (0 : BitVec 32)
  rw [next_char,require_holds (by simp)]
  rcases shape with rfl | rfl
  · rw [read_while_over _ _ all,read_while_stops _ _ proper,count]
    simp only [char_some,ungetc_proper visible]
    exact require_holds some_blank _ _
  · rw [List.append_assoc,read_while_over _ _ all,List.singleton_append,read_while_stops _ _ isspace_EOF,count]
    simp only [char_some,ungetc_EOF]
    exact require_holds some_blank _ _

theorem value_state (w : List byte) :
    w.foldl (fun (s : word_t × BitVec 32) num => (push_digit s.1 num,s.2 + 4)) (0,0) =
      (read_word w,BitVec.ofNat 32 (4 * w.length)) := by
  have count := foldl_count 4 w (0 : BitVec 32)
  rw [foldl_pair push_digit (fun s _ => s + 4)]
  exact Prod.ext rfl (count.trans (BitVec.zero_add _))

/-- The loop over the digits of a value ends at a blank, or else at the end of the file. -/
theorem value_digits_total (text : List byte) :
    ∃ w, (∀ c ∈ w, isspace c = false) ∧
      (value_digits (.reading text) = ((read_word w,BitVec.ofNat 32 (4 * w.length)),none,.ended) ∨
        ∃ c rest, text = w ++ c :: rest ∧ isspace c = true ∧
          value_digits (.reading text) = ((read_word w,BitVec.ofNat 32 (4 * w.length)),some c,.reading rest)) := by
  obtain ⟨w,digits,ends⟩ := read_while_total (fun num => !isspace num)
    (fun (s : word_t × BitVec 32) num => (push_digit s.1 num,s.2 + 4)) text (0,0)
  rw [value_state] at ends
  refine ⟨w,fun c member => by simpa using digits c member,?_⟩
  rcases ends with ⟨_,loop⟩ | ⟨c,rest,parts,blank,loop⟩
  · exact .inl loop
  · exact .inr ⟨c,rest,parts,by simpa using blank,loop⟩

theorem value_digits_over {w : List byte} (digits : ∀ c ∈ w, isspace c = false) {c : byte} (blank : isspace c = true)
    (rest : List byte) :
    value_digits (.reading (w ++ c :: rest)) = ((read_word w,BitVec.ofNat 32 (4 * w.length)),some c,.reading rest) := by
  rw [value_digits,read_while_over _ _ (fun d member => by simp [digits d member]),
    read_while_stops _ _ (by simp [blank]),value_state]

theorem isspace_proper {c : byte} (blank : isspace c = true) : c ≠ EOF := by
  rintro rfl
  simp at blank

theorem address_digits_rest (n : Nat) (addr : BitVec 64) (entree : FILE) :
    (address_digits n addr entree).2.rest = entree.rest.drop n := by
  induction n generalizing addr entree with
  | zero => simp [address_digits]
  | succ n ih =>
    rw [address_digits,ih]
    cases entree with
    | ended => simp [FILE.rest]
    | reading text => cases text <;> simp [FILE.rest]

theorem address_digits_over (w rest : List byte) (addr : BitVec 64) :
    address_digits w.length addr (.reading (w ++ rest)) = (w.foldl push_digit addr,.reading rest) := by
  induction w generalizing addr with
  | nil => rfl
  | cons c w ih => simp [address_digits,ih]

theorem expect_sound {word : List byte} {entree : FILE} (passed : (expect word entree).1 = true) :
    entree.rest = word ++ (expect word entree).2.rest := by
  induction word generalizing entree with
  | nil => rfl
  | cons c word ih =>
    rw [expect] at passed ⊢
    by_cases same : (fgetc entree).1 = some c
    · rw [if_pos same] at passed ⊢
      obtain ⟨rest,rfl,_⟩ := fgetc_some same
      exact congrArg (c :: ·) (ih passed)
    · rw [if_neg same] at passed
      cases passed

theorem expect_over (word rest : List byte) : expect word (.reading (word ++ rest)) = (true,.reading rest) := by
  induction word with
  | nil => rfl
  | cons c word ih => simp [expect,ih]

/-! ### The procedures -/

theorem word_or_byte_sound {entree : FILE} {command : command_t} (passed : (word_or_byte entree command).1 = .ERR_NONE) :
    ∃ c rest size, Sized c size ∧ entree = .reading (c :: rest) ∧
      (word_or_byte entree command).2 = ({ command with data_size := size },.reading rest) := by
  generalize read : word_or_byte entree command = result at passed ⊢
  obtain ⟨code,after,left⟩ := result
  obtain rfl : code = .ERR_NONE := passed
  unfold word_or_byte at read
  obtain ⟨letter,read⟩ := require_passed read (by simp)
  generalize first : char (fgetc entree).1 = c at letter read
  have proper : c ≠ EOF := by
    rcases letter with rfl | rfl <;> decide
  obtain ⟨rest,rfl,after_letter⟩ := fgetc_char first proper
  rw [after_letter] at read
  rcases letter with rfl | rfl
  · cases read
    exact ⟨_,rest,_,.word,rfl,rfl⟩
  · cases read
    exact ⟨_,rest,_,.byte,rfl,rfl⟩

theorem word_or_byte_complete {c : byte} {size : Nat} (sized : Sized c size) (rest : List byte) (command : command_t) :
    word_or_byte (.reading (c :: rest)) command = (.ERR_NONE,{ command with data_size := size },.reading rest) := by
  cases sized <;> rfl

/-- When the newline follows, sixteen bytes were there to be read. -/
theorem address_digits_sound {stream : FILE} {rest : List byte}
    (last : (address_digits 16 0 stream).2 = .reading (chr '\n' :: rest)) :
    ∃ digits, digits.length = 16 ∧ stream.rest = digits ++ chr '\n' :: rest ∧
      address_digits 16 0 stream = (read_word digits,.reading (chr '\n' :: rest)) := by
  have left_over := address_digits_rest 16 0 stream
  rw [last,show (FILE.reading (chr '\n' :: rest)).rest = chr '\n' :: rest from rfl] at left_over
  have sixteen : (stream.rest.take 16).length = 16 := by
    have lengths := congrArg List.length left_over
    rw [List.length_cons,List.length_drop] at lengths
    rw [List.length_take]
    omega
  have parts : stream.rest = stream.rest.take 16 ++ chr '\n' :: rest := by
    rw [left_over,List.take_append_drop]
  have passed_over := address_digits_over (stream.rest.take 16) (chr '\n' :: rest) 0
  rw [sixteen,← reading_of_rest parts (by simp)] at passed_over
  exact ⟨stream.rest.take 16,sixteen,parts,passed_over⟩

theorem address_procedure_sound {entree left : FILE} {command after : command_t}
    (read : address_procedure entree command = (.ERR_NONE,after,left)) :
    ∃ digits rest vaddr, Accepted.Address digits vaddr ∧ entree.rest = at_address digits ++ rest ∧
      left = .reading rest ∧ after = { command with vaddr := vaddr } := by
  unfold address_procedure at read
  obtain ⟨started,read⟩ := require_passed read (by simp)
  obtain ⟨ended,read⟩ := require_passed read (by simp)
  obtain ⟨rest,last,newline⟩ := fgetc_some ended
  obtain ⟨digits,sixteen,parts,passed_over⟩ := address_digits_sound last
  obtain ⟨vaddr,executed,clear,value⟩ := init_virt_addr64_correct command.vaddr (read_word digits)
  simp only [passed_over,fgetc_cons,executed] at read
  cases read
  refine ⟨digits,rest,vaddr,⟨sixteen,clear,value⟩,?_,rfl,rfl⟩
  rw [expect_sound started,parts]
  simp [at_address]

theorem address_procedure_complete {digits : List byte} {vaddr : virt_addr_t} (accepted : Accepted.Address digits vaddr)
    (rest : List byte) (command : command_t) :
    address_procedure (.reading (at_address digits ++ rest)) command =
      (.ERR_NONE,{ command with vaddr := vaddr },.reading rest) := by
  obtain ⟨sixteen,reserved,numbered⟩ := accepted
  obtain ⟨built,executed,clear,value⟩ := init_virt_addr64_correct command.vaddr (read_word digits)
  have same : built = vaddr := eq_of_number (clear.trans reserved.symm) (value.trans numbered.symm)
  have passed_over := address_digits_over digits (chr '\n' :: rest) 0
  rw [sixteen] at passed_over
  rw [address_procedure,at_address,List.append_assoc,List.append_assoc,expect_over]
  simp only [List.singleton_append,passed_over,fgetc_cons]
  rw [require_holds trivial,require_holds trivial]
  rw [read_word] at executed
  rw [executed,same]

theorem read_procedure_sound {entree left : FILE} {command after : command_t}
    (read : read_procedure entree command = (.ERR_NONE,after,left)) :
    ∃ line rest, entree.rest = line ++ rest ∧ left = .reading rest ∧ Line Accepted (chr 'R' :: line) after := by
  unfold read_procedure at read
  obtain ⟨spaced,read⟩ := require_passed read (fun failed same => failed (Prod.mk.inj same).1)
  obtain ⟨b₁,first,blanks₁⟩ := next_char_sound spaced
  obtain ⟨letter,read⟩ := require_passed read (by simp)
  generalize typed : char (fgetc (next_char entree).2).1 = i_d at letter read
  have proper : i_d ≠ EOF := by
    rcases letter with rfl | rfl <;> decide
  obtain ⟨text,here,after_letter⟩ := fgetc_char typed proper
  rw [here,FILE.rest] at first
  rw [after_letter] at read
  rcases letter with rfl | rfl
  · obtain ⟨_,read⟩ := require_passed read (fun failed => absurd rfl failed)
    obtain ⟨spaced,read⟩ := require_passed read (fun failed same => failed (Prod.mk.inj same).1)
    obtain ⟨b₂,second,blanks₂⟩ := next_char_sound spaced
    obtain ⟨digits,rest,vaddr,address,third,rfl,rfl⟩ := address_procedure_sound read
    refine ⟨b₁ ++ chr 'I' :: (b₂ ++ at_address digits),rest,?_,rfl,.read_instruction blanks₁ blanks₂ address⟩
    have text_is : text = b₂ ++ (at_address digits ++ rest) := second.trans (congrArg (b₂ ++ ·) third)
    rw [first,text_is]
    simp
  · rw [if_pos rfl] at read
    obtain ⟨sized,read⟩ := require_passed read (fun failed same => failed (Prod.mk.inj same).1)
    obtain ⟨c,tail,size,letter,shape,stored⟩ := word_or_byte_sound sized
    cases shape
    rw [stored] at read
    obtain ⟨spaced,read⟩ := require_passed read (fun failed same => failed (Prod.mk.inj same).1)
    obtain ⟨b₂,second,blanks₂⟩ := next_char_sound spaced
    obtain ⟨digits,rest,vaddr,address,third,rfl,rfl⟩ := address_procedure_sound read
    refine ⟨b₁ ++ chr 'D' :: c :: (b₂ ++ at_address digits),rest,?_,rfl,.read_data blanks₁ letter blanks₂ address⟩
    have tail_is : tail = b₂ ++ (at_address digits ++ rest) := second.trans (congrArg (b₂ ++ ·) third)
    rw [first,tail_is]
    simp

theorem write_procedure_sound {entree left : FILE} {command after : command_t}
    (read : write_procedure entree command = (.ERR_NONE,after,left)) :
    ∃ line rest, entree.rest = line ++ rest ∧ left = .reading rest ∧ Line Accepted (chr 'W' :: line) after := by
  unfold write_procedure at read
  obtain ⟨spaced,read⟩ := require_passed read (fun failed same => failed (Prod.mk.inj same).1)
  obtain ⟨b₁,first,blanks₁⟩ := next_char_sound spaced
  obtain ⟨typed,read⟩ := require_passed read (by simp)
  obtain ⟨text,here,after_letter⟩ := fgetc_some typed
  rw [here,FILE.rest] at first
  rw [after_letter] at read
  obtain ⟨sized,read⟩ := require_passed read (fun failed same => failed (Prod.mk.inj same).1)
  obtain ⟨c,tail,size,letter,shape,stored⟩ := word_or_byte_sound sized
  cases shape
  rw [stored] at read
  obtain ⟨spaced,read⟩ := require_passed read (fun failed same => failed (Prod.mk.inj same).1)
  obtain ⟨b₂,second,blanks₂⟩ := next_char_sound spaced
  obtain ⟨started,read⟩ := require_passed read (by simp)
  have third := expect_sound started
  obtain ⟨going,read⟩ := require_passed read (by simp)
  generalize (expect [chr '0',chr 'x'] (next_char (FILE.reading tail)).2).2 = digit_stream at third going read
  cases digit_stream with
  | ended => simp at going
  | reading digit_text =>
    obtain ⟨word,digits,ends⟩ := value_digits_total digit_text
    rcases ends with loop | ⟨blank,after_word,parts,is_blank,loop⟩
    · -- Nothing follows the value: the next blank is missing.
      rw [loop] at read
      obtain ⟨_,read⟩ := require_passed read (by simp)
      obtain ⟨spaced,_⟩ := require_passed read (fun failed same => failed (Prod.mk.inj same).1)
      simp [next_char] at spaced
    · rw [loop] at read
      obtain ⟨counted,read⟩ := require_passed read (by simp)
      simp only [char_some,ungetc_proper (isspace_proper is_blank)] at read
      obtain ⟨spaced,read⟩ := require_passed read (fun failed same => failed (Prod.mk.inj same).1)
      obtain ⟨b₃,fourth,blanks₃⟩ := next_char_sound spaced
      obtain ⟨address_word,rest,vaddr,address,fifth,rfl,rfl⟩ := address_procedure_sound read
      refine ⟨b₁ ++ chr 'D' :: c :: (b₂ ++ chr '0' :: chr 'x' :: (word ++ (b₃ ++ at_address address_word))),rest,?_,rfl,
        .write_data blanks₁ letter blanks₂ ⟨digits,counted,rfl⟩ blanks₃ address⟩
      have tail_is : tail = b₂ ++ ([chr '0',chr 'x'] ++ digit_text) := second.trans (congrArg (b₂ ++ ·) third)
      have after_is : blank :: after_word = b₃ ++ (at_address address_word ++ rest) :=
        fourth.trans (congrArg (b₃ ++ ·) fifth)
      rw [first,tail_is,parts,after_is]
      simp

/-- Blanks and an address are read to the end of the line. -/
theorem blanks_address {b digits : List byte} {vaddr : virt_addr_t} (blanks : Accepted.Blanks b)
    (address : Accepted.Address digits vaddr) (rest : List byte) :
    ∃ text, next_char (.reading (b ++ (at_address digits ++ rest))) = (.ERR_NONE,.reading text) ∧
      ∀ command, address_procedure (.reading text) command = (.ERR_NONE,{ command with vaddr := vaddr },.reading rest) :=
  ⟨at_address digits ++ rest,next_char_complete blanks (by decide) (by decide) _,address_procedure_complete address rest⟩

theorem read_instruction_complete {b₁ b₂ digits : List byte} {vaddr : virt_addr_t} (first : Accepted.Blanks b₁)
    (second : Accepted.Blanks b₂) (address : Accepted.Address digits vaddr) (command : command_t) (rest : List byte) :
    read_procedure (.reading (b₁ ++ chr 'I' :: (b₂ ++ (at_address digits ++ rest)))) command = (.ERR_NONE,
      { order := .READ, type := .INSTRUCTION, data_size := sizeof_word, write_data := 0, vaddr := vaddr },.reading rest) := by
  have spaced := next_char_complete first (c := chr 'I') (by decide) (by decide) (b₂ ++ (at_address digits ++ rest))
  obtain ⟨text,next,last⟩ := blanks_address second address rest
  have letter : ¬ chr 'I' = chr 'D' := by decide
  simp [read_procedure,spaced,letter,next,last]

theorem read_data_complete {b₁ b₂ digits : List byte} {c : byte} {size : Nat} {vaddr : virt_addr_t}
    (first : Accepted.Blanks b₁) (sized : Sized c size) (second : Accepted.Blanks b₂)
    (address : Accepted.Address digits vaddr) (command : command_t) (rest : List byte) :
    read_procedure (.reading (b₁ ++ chr 'D' :: c :: (b₂ ++ (at_address digits ++ rest)))) command = (.ERR_NONE,
      { order := .READ, type := .DATA, data_size := size, write_data := 0, vaddr := vaddr },.reading rest) := by
  have spaced := next_char_complete first (c := chr 'D') (by decide) (by decide) (c :: (b₂ ++ (at_address digits ++ rest)))
  obtain ⟨text,next,last⟩ := blanks_address second address rest
  simp [read_procedure,spaced,word_or_byte_complete sized,next,last]

/-- A blank ends a value, so that the blanks after it are still there. -/
theorem blanks_head {b : List byte} (blanks : Accepted.Blanks b) : ∃ c tail, b = c :: tail ∧ isspace c = true := by
  obtain ⟨w,all,some_blank,shape⟩ := blanks
  cases w with
  | nil => simp at some_blank
  | cons c w =>
    rcases shape with rfl | rfl
    · exact ⟨c,w,rfl,all c List.mem_cons_self⟩
    · exact ⟨c,w ++ [EOF],rfl,all c List.mem_cons_self⟩

theorem write_data_complete {b₁ b₂ b₃ word digits : List byte} {c : byte} {size : Nat} {value : word_t}
    {vaddr : virt_addr_t} (first : Accepted.Blanks b₁) (sized : Sized c size) (second : Accepted.Blanks b₂)
    (value_of : Accepted.Value word value) (third : Accepted.Blanks b₃) (address : Accepted.Address digits vaddr)
    (command : command_t) (rest : List byte) :
    write_procedure (.reading (b₁ ++ chr 'D' :: c :: (b₂ ++ chr '0' :: chr 'x' ::
        (word ++ (b₃ ++ (at_address digits ++ rest)))))) command = (.ERR_NONE,
      { order := .WRITE, type := .DATA, data_size := size, write_data := value, vaddr := vaddr },.reading rest) := by
  obtain ⟨text,next,last⟩ := blanks_address third address rest
  obtain ⟨digit,short,rfl⟩ := value_of
  obtain ⟨blank,tail,rfl,is_blank⟩ := blanks_head third
  have spaced := next_char_complete first (c := chr 'D') (by decide) (by decide)
    (c :: (b₂ ++ chr '0' :: chr 'x' :: (word ++ (blank :: tail ++ (at_address digits ++ rest)))))
  have valued := next_char_complete second (c := chr '0') (by decide) (by decide)
    (chr 'x' :: (word ++ (blank :: tail ++ (at_address digits ++ rest))))
  have started := expect_over [chr '0',chr 'x'] (word ++ (blank :: tail ++ (at_address digits ++ rest)))
  have loop := value_digits_over digit is_blank (tail ++ (at_address digits ++ rest))
  simp only [List.cons_append,List.nil_append] at spaced valued started loop next ⊢
  simp [write_procedure,spaced,word_or_byte_complete sized,valued,started,loop,
    ungetc_proper (isspace_proper is_blank),next,last]
  exact require_holds short _ _

/-- The procedure that the first letter of a line selects reads the line as its command. -/
theorem line_complete {line : List byte} {c : command_t} (accepted : Line Accepted line c) :
    ∃ first text, line = first :: text ∧
      ((first = chr 'R' ∧ ∀ command rest,
          read_procedure (.reading (text ++ rest)) command = (.ERR_NONE,c,.reading rest)) ∨
        (first = chr 'W' ∧ ∀ command rest,
          write_procedure (.reading (text ++ rest)) command = (.ERR_NONE,c,.reading rest))) := by
  cases accepted with
  | read_instruction first second address =>
    refine ⟨_,_,rfl,.inl ⟨rfl,fun command rest => ?_⟩⟩
    simpa using read_instruction_complete first second address command rest
  | read_data first sized second address =>
    refine ⟨_,_,rfl,.inl ⟨rfl,fun command rest => ?_⟩⟩
    simpa using read_data_complete first sized second address command rest
  | write_data first sized second value_of third address =>
    refine ⟨_,_,rfl,.inr ⟨rfl,fun command rest => ?_⟩⟩
    simpa using write_data_complete first sized second value_of third address command rest

/-! ### The file format and the parser -/

theorem hex_char_to_int_digit {c : byte} {d : Nat} (digit : hex_digit c = some d) : hex_char_to_int c = d := by
  unfold hex_digit at digit
  unfold hex_char_to_int
  simp only [show (chr '0').toNat = 48 from rfl,show (chr '9').toNat = 57 from rfl,show (chr 'A').toNat = 65 from rfl,
    show (chr 'F').toNat = 70 from rfl]
  split_ifs at digit ⊢ <;> simp_all
  omega

/-- On digits the loops of the parser read the number. -/
theorem read_word_correct {size n : Nat} {w : List byte} (hex : Hexadecimal w n) :
    (read_word w : BitVec size).toNat = n % 2 ^ size := by
  obtain ⟨digits,all,rfl⟩ := hex
  have loops : ∀ (w : List byte) (digits : List Nat) (s : BitVec size), w.map hex_digit = digits.map some →
      w.foldl push_digit s = digits.foldl (fun (w : BitVec size) d => w <<< 4 ||| BitVec.ofNat size d) s := by
    intro w
    induction w with
    | nil =>
      intro digits s all
      obtain rfl : digits = [] := by simpa using all.symm
      rfl
    | cons c w ih =>
      intro digits s all
      cases digits with
      | nil => cases all
      | cons d digits =>
        rw [List.map_cons,List.map_cons] at all
        obtain ⟨digit,rest⟩ := List.cons.inj all
        rw [List.foldl_cons,List.foldl_cons,push_digit,hex_char_to_int_digit digit]
        exact ih digits _ rest
  rw [← toNat_read_digits (digits_lt all),read_word,loops w digits 0 all]

/-- Hexadecimal digits are no blanks. -/
theorem isspace_digit {c : byte} {d : Nat} (digit : hex_digit c = some d) : isspace c = false := by
  by_contra blank
  unfold hex_digit at digit
  simp only [isspace,Bool.not_eq_false,decide_eq_true_eq] at blank
  rcases blank with rfl | ⟨low,high⟩
  · cases digit
  · rw [if_neg (by omega),if_neg (by omega)] at digit
    cases digit

theorem written_blanks {w : List byte} (written : Written.Blanks w) (short : w.length < 2 ^ 32) : Accepted.Blanks w := by
  obtain ⟨some_blank,blanks⟩ := written
  refine ⟨w,blanks,?_,.inl rfl⟩
  intro none_counted
  have counted := congrArg BitVec.toNat none_counted
  rw [BitVec.toNat_ofNat,Nat.mod_eq_of_lt short] at counted
  exact some_blank (List.eq_nil_of_length_eq_zero counted)

theorem written_value {w : List byte} {value : word_t} (written : Written.Value w value) : Accepted.Value w value := by
  obtain ⟨_,short,hex⟩ := written
  refine ⟨fun c member => ?_,?_,?_⟩
  · obtain ⟨d,digit⟩ := hexadecimal_digit hex member
    exact isspace_digit digit
  · interval_cases w.length <;> decide
  · apply BitVec.eq_of_toNat_eq
    rw [read_word_correct hex,Nat.mod_eq_of_lt value.isLt]

theorem written_address {w : List byte} {vaddr : virt_addr_t} (written : Written.Address w vaddr) :
    Accepted.Address w vaddr := by
  obtain ⟨sixteen,reserved,n,hex,numbered⟩ := written
  refine ⟨sixteen,reserved,?_⟩
  rw [numbered,read_word_correct hex]
  omega

theorem written_line {line : List byte} {c : command_t} (written : Line Written line c) (short : line.length < 2 ^ 32) :
    Line Accepted line c := by
  cases written with
  | read_instruction first second address =>
    simp only [List.length_cons,List.length_append] at short
    exact .read_instruction (written_blanks first (by omega)) (written_blanks second (by omega)) (written_address address)
  | read_data first sized second address =>
    simp only [List.length_cons,List.length_append] at short
    exact .read_data (written_blanks first (by omega)) sized (written_blanks second (by omega)) (written_address address)
  | write_data first sized second value_of third address =>
    simp only [List.length_cons,List.length_append] at short
    exact .write_data (written_blanks first (by omega)) sized (written_blanks second (by omega)) (written_value value_of)
      (written_blanks third (by omega)) (written_address address)

/-- The parser takes what the format allows, as long as its counter of blanks does not wrap. -/
theorem written_text {text : List byte} {cs : List command_t} (written : Text Written text cs)
    (short : text.length < 2 ^ 32) : Text Accepted text cs := by
  induction written with
  | nil => exact .nil
  | cons first _ ih =>
    rw [List.length_append] at short
    exact .cons (written_line first (by omega)) (ih (by omega))

end CacheEmulator.CommandGrammar
