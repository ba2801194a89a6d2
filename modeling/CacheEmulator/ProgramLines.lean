import CacheEmulator.ProgramRead

/-!
The lines of a text against the commands that are read from it. A text is made
of lines in one way only, even with the counters of the parser left out, so that
what is read of a text in the file format are the commands of its first lines.
-/
namespace CacheEmulator.ProgramLines
open CacheEmulator.Error CacheEmulator.Addr CacheEmulator.Stdio CacheEmulator.Numeral CacheEmulator.Commands
open CacheEmulator.CommandGrammar CacheEmulator.ProgramRead
open CacheEmulator.Memory (word_t)

/-! ### A grammar around both -/

/-- What the format and the parser both keep to: the parser without its counters. -/
def Loose : Lexicon where
  Blanks w := ∃ blanks, blanks ≠ [] ∧ (∀ c ∈ blanks, isspace c = true) ∧ (w = blanks ∨ w = blanks ++ [EOF])
  Value w value := (∀ c ∈ w, isspace c = false) ∧ value = read_word w
  Address w vaddr := Accepted.Address w vaddr

/-- The parts of one lexicon are parts of the other. -/
structure Within (L M : Lexicon) : Prop where
  blanks : ∀ {w : List byte}, L.Blanks w → M.Blanks w
  value : ∀ {w : List byte} {v : word_t}, L.Value w v → M.Value w v
  address : ∀ {w : List byte} {vaddr : virt_addr_t}, L.Address w vaddr → M.Address w vaddr

theorem Within.line {L M : Lexicon} (within : Within L M) {line : List byte} {c : command_t} (first : Line L line c) :
    Line M line c := by
  cases first with
  | read_instruction first second address =>
    exact .read_instruction (within.blanks first) (within.blanks second) (within.address address)
  | read_data first sized second address =>
    exact .read_data (within.blanks first) sized (within.blanks second) (within.address address)
  | write_data first sized second value third address =>
    exact .write_data (within.blanks first) sized (within.blanks second) (within.value value) (within.blanks third)
      (within.address address)

theorem Within.text {L M : Lexicon} (within : Within L M) {text : List byte} {cs : List command_t}
    (lines : Text L text cs) : Text M text cs := by
  induction lines with
  | nil => exact .nil
  | cons first _ ih => exact .cons (within.line first) ih

theorem written_within : Within Written Loose where
  blanks written := ⟨_,written.1,written.2,.inl rfl⟩
  value written := ⟨(written_value written).1,(written_value written).2.2⟩
  address := written_address

theorem accepted_within : Within Accepted Loose where
  blanks := by
    rintro w ⟨blanks,all,counted,shape⟩
    refine ⟨blanks,?_,all,shape⟩
    rintro rfl
    exact counted rfl
  value accepted := ⟨accepted.1,accepted.2.2⟩
  address := id

/-! ### One way to read a line -/

/-- Drops blanks and a byte 255 behind them. -/
def skip_blanks (text : List byte) : List byte :=
  let text := text.dropWhile isspace
  if text.head? = some EOF then text.tail else text

theorem skip_over {b : List byte} (blanks : Loose.Blanks b) {x : byte} (proper : isspace x = false) (visible : x ≠ EOF)
    (t : List byte) : skip_blanks (b ++ x :: t) = x :: t := by
  obtain ⟨w,_,all,rfl | rfl⟩ := blanks
  · rw [skip_blanks,List.dropWhile_append_of_pos all,List.dropWhile_cons_of_neg (by simp [proper])]
    simp [visible]
  · rw [skip_blanks,List.append_assoc,List.dropWhile_append_of_pos all,List.singleton_append,
      List.dropWhile_cons_of_neg (by simp)]
    simp

/-- Blanks end where the next character is. -/
theorem blanks_unique {b b' t t' : List byte} {x x' : byte} (first : Loose.Blanks b) (second : Loose.Blanks b')
    (proper : isspace x = false ∧ x ≠ EOF) (proper' : isspace x' = false ∧ x' ≠ EOF)
    (same : b ++ x :: t = b' ++ x' :: t') : b = b' ∧ x = x' ∧ t = t' := by
  have skipped := congrArg skip_blanks same
  rw [skip_over first proper.1 proper.2,skip_over second proper'.1 proper'.2] at skipped
  obtain ⟨rfl,rfl⟩ := List.cons.inj skipped
  exact ⟨List.append_cancel_right same,rfl,rfl⟩

theorem blanks_cons {b : List byte} (blanks : Loose.Blanks b) : ∃ c tail, b = c :: tail ∧ isspace c = true := by
  obtain ⟨w,some_blank,all,shape⟩ := blanks
  cases w with
  | nil => exact absurd rfl some_blank
  | cons c w =>
    rcases shape with rfl | rfl
    · exact ⟨c,w,rfl,all c List.mem_cons_self⟩
    · exact ⟨c,w ++ [EOF],rfl,all c List.mem_cons_self⟩

/-- A value ends at its first blank. -/
theorem value_unique {w w' b b' t t' : List byte} {v v' : word_t} (first : Loose.Value w v) (second : Loose.Value w' v')
    (behind : Loose.Blanks b) (behind' : Loose.Blanks b') (same : w ++ (b ++ t) = w' ++ (b' ++ t')) :
    w = w' ∧ v = v' ∧ b ++ t = b' ++ t' := by
  have taken : ∀ {w b t : List byte} {v : word_t}, Loose.Value w v → Loose.Blanks b →
      (w ++ (b ++ t)).takeWhile (fun c => !isspace c) = w := by
    intro w b t v value blanks
    obtain ⟨c,tail,rfl,blank⟩ := blanks_cons blanks
    rw [List.takeWhile_append_of_pos (fun c member => by simp [value.1 c member]),List.cons_append,
      List.takeWhile_cons_of_neg (by simp [blank]),List.append_nil]
  have words := congrArg (List.takeWhile (fun c => !isspace c)) same
  rw [taken first behind,taken second behind'] at words
  subst words
  exact ⟨rfl,first.2.trans second.2.symm,List.append_cancel_left same⟩

theorem address_unique {digits digits' r r' : List byte} {vaddr vaddr' : virt_addr_t}
    (first : Loose.Address digits vaddr) (second : Loose.Address digits' vaddr')
    (same : at_address digits ++ r = at_address digits' ++ r') : digits = digits' ∧ vaddr = vaddr' ∧ r = r' := by
  obtain ⟨sixteen,clear,numbered⟩ := first
  obtain ⟨sixteen',clear',numbered'⟩ := second
  have behind : digits ++ chr '\n' :: r = digits' ++ chr '\n' :: r' := by simpa [at_address] using same
  obtain ⟨rfl,rest⟩ := List.append_inj behind (sixteen.trans sixteen'.symm)
  exact ⟨rfl,eq_of_number (clear.trans clear'.symm) (numbered.trans numbered'.symm),(List.cons.inj rest).2⟩

/-- The end of a line, from the blanks before its address on. -/
theorem tail_unique {b b' digits digits' r r' : List byte} {vaddr vaddr' : virt_addr_t} (first : Loose.Blanks b)
    (second : Loose.Blanks b') (address : Loose.Address digits vaddr) (address' : Loose.Address digits' vaddr')
    (same : b ++ (at_address digits ++ r) = b' ++ (at_address digits' ++ r')) :
    b = b' ∧ digits = digits' ∧ vaddr = vaddr' ∧ r = r' := by
  have at_sign : ∀ digits r : List byte, at_address digits ++ r = chr '@' :: ((at_address digits).tail ++ r) :=
    fun digits r => rfl
  have proper : isspace (chr '@') = false ∧ chr '@' ≠ EOF := by decide
  have parts := same
  rw [at_sign digits,at_sign digits'] at parts
  obtain ⟨rfl,_,_⟩ := blanks_unique first second proper proper parts
  exact ⟨rfl,address_unique address address' (List.append_cancel_left same)⟩

theorem sized_unique {c : byte} {size size' : Nat} (first : Sized c size) (second : Sized c size') : size = size' := by
  cases first <;> cases second <;> rfl

/-- A text begins with one line at most. -/
theorem line_unique {line line' r r' : List byte} {c c' : command_t} (first : Line Loose line c)
    (second : Line Loose line' c') (same : line ++ r = line' ++ r') : line = line' ∧ c = c' ∧ r = r' := by
  have letters : (isspace (chr 'I') = false ∧ chr 'I' ≠ EOF) ∧ (isspace (chr 'D') = false ∧ chr 'D' ≠ EOF) ∧
      isspace (chr '0') = false ∧ chr '0' ≠ EOF := by decide
  obtain ⟨letter_I,letter_D,letter_0⟩ := letters
  cases first with
  | read_instruction b₁ b₂ address =>
    cases second with
    | read_instruction b₁' b₂' address' =>
      simp only [List.cons_append,List.append_assoc] at same
      obtain ⟨rfl,_,behind⟩ := blanks_unique b₁ b₁' letter_I letter_I (List.cons.inj same).2
      obtain ⟨rfl,rfl,rfl,rfl⟩ := tail_unique b₂ b₂' address address' behind
      exact ⟨rfl,rfl,rfl⟩
    | read_data b₁' sized' b₂' address' =>
      simp only [List.cons_append,List.append_assoc] at same
      obtain ⟨_,differ,_⟩ := blanks_unique b₁ b₁' letter_I letter_D (List.cons.inj same).2
      exact absurd differ (by decide)
    | write_data b₁' sized' b₂' value' b₃' address' => exact absurd (List.cons.inj same).1 (by decide)
  | read_data b₁ sized b₂ address =>
    cases second with
    | read_instruction b₁' b₂' address' =>
      simp only [List.cons_append,List.append_assoc] at same
      obtain ⟨_,differ,_⟩ := blanks_unique b₁ b₁' letter_D letter_I (List.cons.inj same).2
      exact absurd differ (by decide)
    | read_data b₁' sized' b₂' address' =>
      simp only [List.cons_append,List.append_assoc] at same
      obtain ⟨rfl,_,size⟩ := blanks_unique b₁ b₁' letter_D letter_D (List.cons.inj same).2
      obtain ⟨rfl,behind⟩ := List.cons.inj size
      obtain rfl := sized_unique sized sized'
      obtain ⟨rfl,rfl,rfl,rfl⟩ := tail_unique b₂ b₂' address address' behind
      exact ⟨rfl,rfl,rfl⟩
    | write_data b₁' sized' b₂' value' b₃' address' => exact absurd (List.cons.inj same).1 (by decide)
  | write_data b₁ sized b₂ value b₃ address =>
    cases second with
    | read_instruction b₁' b₂' address' => exact absurd (List.cons.inj same).1 (by decide)
    | read_data b₁' sized' b₂' address' => exact absurd (List.cons.inj same).1 (by decide)
    | write_data b₁' sized' b₂' value' b₃' address' =>
      simp only [List.cons_append,List.append_assoc] at same
      obtain ⟨rfl,_,size⟩ := blanks_unique b₁ b₁' letter_D letter_D (List.cons.inj same).2
      obtain ⟨rfl,blanks⟩ := List.cons.inj size
      obtain rfl := sized_unique sized sized'
      obtain ⟨rfl,_,zero⟩ := blanks_unique b₂ b₂' letter_0 letter_0 blanks
      obtain ⟨rfl,rfl,behind⟩ := value_unique value value' b₃ b₃' (List.cons.inj zero).2
      obtain ⟨rfl,rfl,rfl,rfl⟩ := tail_unique b₃ b₃' address address' behind
      exact ⟨rfl,rfl,rfl⟩

/-! ### One way to read a text -/

theorem line_some {L : Lexicon} {line : List byte} {c : command_t} (first : Line L line c) : line ≠ [] := by
  cases first <;> exact List.cons_ne_nil _ _

/-- Lines in front of a text of lines are its first ones. -/
theorem text_prefix {text whole : List byte} {cs ds : List command_t} (lines : Text Loose text cs)
    (front : Text Loose whole ds) : ∀ {rest : List byte}, text = whole ++ rest → ds <+: cs := by
  induction front generalizing text cs with
  | nil => exact fun _ => List.nil_prefix
  | @cons line whole d ds first _ ih =>
    intro rest same
    rw [List.append_assoc] at same
    cases lines with
    | nil => exact absurd (List.append_eq_nil_iff.mp same.symm).1 (line_some first)
    | @cons line' text' c cs' first' later =>
      obtain ⟨rfl,rfl,behind⟩ := line_unique first' first same
      exact List.cons_prefix_cons.mpr ⟨rfl,ih later behind⟩

/-- What is read of a text in the format: its commands, or the first hundred of them. -/
theorem reads_written {text : List byte} {cs ds : List command_t} (lines : Text Written text cs)
    (reads : Reads Accepted text ds) :
    ds = cs.take 100 ∧ ∃ whole rest, text = whole ++ rest ∧ Text Accepted whole (cs.take 100) := by
  obtain ⟨whole,rest,rfl,front,enough,ended⟩ := reads
  have loose := written_within.text lines
  have loose_front := accepted_within.text front
  have first_lines := text_prefix loose loose_front rfl
  have same : ds = cs.take 100 := by
    rcases ended with rfl | full
    · rw [List.append_nil] at loose
      have back := text_prefix loose_front loose (List.append_nil whole).symm
      have equal := first_lines.eq_of_length (Nat.le_antisymm first_lines.length_le back.length_le)
      rw [← equal,List.take_of_length_le enough]
    · rw [List.prefix_iff_eq_take.mp first_lines,full]
  exact ⟨same,whole,rest,rfl,same ▸ front⟩

/-! ### All commands, or the first hundred -/

/-- If the read succeeds, every line of the text has its command in the listing. -/
def ReadsAll (answer : Option (error_code × program_t)) (cs : List command_t) : Prop :=
  ∀ after, answer = some (.ERR_NONE,after) →
    after.nb_lines = cs.length ∧ ∀ k, k < cs.length → after.listing[k]? = cs[k]?

theorem filled_listing (program : program_t) (cs : List command_t) {k : Nat} (inside : k < cs.length) :
    (filled program cs).listing[k]? = cs[k]? := by
  simp only [filled,place,List.take_zero,List.nil_append]
  rw [List.getElem?_append_left inside]

/-- More than a hundred lines are read as a hundred. -/
theorem hundred_not_all {whole rest : List byte} {cs : List command_t} {start : program_t}
    (front : Text Accepted whole (cs.take 100)) (many : 100 < cs.length) (room : cs.length ≤ start.listing.length) :
    ¬ ReadsAll (program_read_into start (fopen (whole ++ rest))) cs := by
  intro all
  have hundred : (cs.take 100).length = 100 := by
    rw [List.length_take]
    omega
  have reads : Reads Accepted (whole ++ rest) (cs.take 100) := ⟨whole,rest,rfl,front,hundred.le,.inr hundred⟩
  have fits : (cs.take 100).length ≤ start.listing.length := by omega
  have executed := program_read_complete reads fits
  have counted : (cs.take 100).length = cs.length := (all _ executed).1
  omega

/-- Where there is room for them, the commands of a text are all read just when
    there are no more than a hundred, or when one of the first hundred lines
    is refused for a counter that wrapped. -/
theorem program_read_all_iff {text : List byte} {cs : List command_t} (lines : Text Written text cs) {start : program_t}
    (room : cs.length ≤ start.listing.length) :
    ReadsAll (program_read_into start (fopen text)) cs ↔
      cs.length ≤ 100 ∨ ¬ ∃ whole rest, text = whole ++ rest ∧ Text Accepted whole (cs.take 100) := by
  constructor
  · intro all
    by_contra neither
    rw [not_or,not_not] at neither
    obtain ⟨many,whole,rest,rfl,front⟩ := neither
    exact hundred_not_all front (by omega) room all
  · intro few after executed
    obtain ⟨ds,reads,_,rfl⟩ := program_read_sound executed
    obtain ⟨rfl,front⟩ := reads_written lines reads
    have whole : cs.take 100 = cs := by
      rcases few with few | unread
      · exact List.take_of_length_le few
      · exact absurd front unread
    rw [whole]
    exact ⟨rfl,fun k inside => filled_listing start cs inside⟩

theorem program_read_all_iff_one_line :
    ReadsAll (program_read_into program_init.2 (fopen read_zero_line)) [read_zero] ↔
      [read_zero].length ≤ 100 ∨
        ¬ ∃ whole rest, read_zero_line = whole ++ rest ∧ Text Accepted whole ([read_zero].take 100) := by
  have lines : Text Written read_zero_line [read_zero] := by
    have whole := Text.cons read_zero_written .nil
    rwa [List.append_nil] at whole
  exact program_read_all_iff lines (by decide)

/-- A program with room for as many commands as are wanted. -/
def roomy (size : Nat) : program_t := { listing := List.replicate size zero_command, nb_lines := 0, allocated := size }

/-- Of 101 lines the last one is dropped without an error. -/
theorem last_line_dropped :
    Text Written (List.replicate 101 read_zero_line).flatten (List.replicate 101 read_zero) ∧
      ¬ ReadsAll (program_read_into (roomy 101) (fopen (List.replicate 101 read_zero_line).flatten))
        (List.replicate 101 read_zero) := by
  refine ⟨text_replicate read_zero_written 101,?_⟩
  have hundred := text_replicate (written_line read_zero_written (by decide)) 100
  have parts : (List.replicate 101 read_zero_line).flatten =
      (List.replicate 100 read_zero_line).flatten ++ read_zero_line := by
    rw [List.replicate_succ',List.flatten_append,List.flatten_singleton]
  rw [parts]
  refine hundred_not_all (by rw [List.take_replicate]; exact hundred) ?_ ?_
  · rw [List.length_replicate]
    decide
  · rw [roomy,List.length_replicate,List.length_replicate]

end CacheEmulator.ProgramLines
