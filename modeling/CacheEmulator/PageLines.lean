import CacheEmulator.PageDump

/-!
The lines of a dump. `mem_dump_with_options` counts down what is left of a line
while it prints byte after byte; over a page this gives lines at even distances,
and from them the whole text of `vmem_page_dump_with_options`.
-/
namespace CacheEmulator.PageLines
open CacheEmulator.Error CacheEmulator.Memory CacheEmulator.Addr CacheEmulator.PageWalk
open CacheEmulator.Stdio CacheEmulator.Numeral CacheEmulator.PageDump
open CacheEmulator.Loader (PAGE_SIZE)
open CacheEmulator.Printing (Tells Distinct numeral numeral_inj tells_text tells_word tells_numeral tells_flatMap)

/-- A page as it is shown: where the memory is, the distance of the page from there, and its bytes. -/
structure page_t where
  reference : Nat
  start : Nat
  byte : Nat → byte_t

/-- The page is in memory. -/
def Holds (mem : mem_space) (p : page_t) : Prop := ∀ k < PAGE_SIZE, byte_at mem (p.start + k) = some (p.byte k)

/-! ### Lines -/
section
variable (p : page_t) (show_addr : addr_fmt_t) (line_size : Nat) (sep : List byte)

/-- The bytes of a page from one on. -/
def row (first count : Nat) : List printed := (List.range' first count).map (fun k => .byte (p.start + k) (p.byte k) sep)

def line (first count : Nat) : List printed := address_print show_addr (p.start + first) sep ++ row p sep first count ++ [.newline]

/-- Lines of one size; the last one may be shorter. -/
def lines (first last : Nat) : List printed :=
  (List.range ((last - first + line_size - 1) / line_size)).flatMap (fun r =>
    line p show_addr sep (first + r * line_size) (min line_size (last - (first + r * line_size))))

/-- What is printed for a page: the lines up to the address, its line, set in to
    its place, and the lines behind that. -/
def page_lines (offset : Nat) : List printed :=
  let indent := offset % line_size
  lines p show_addr line_size sep 0 offset ++ (if indent = 0 then [.newline] else []) ++
    address_print show_addr (p.start + offset) sep ++ List.replicate indent (.blanks sep) ++
    line p .NONE sep offset (line_size - indent) ++
    lines p show_addr line_size sep (offset + (line_size - indent)) PAGE_SIZE

end

section
variable {mem : mem_space} {p : page_t} {show_addr : addr_fmt_t} {line_size : Nat} {sep : List byte}

theorem lines_nil (positive : 0 < line_size) {first last : Nat} (ends : last ≤ first) :
    lines p show_addr line_size sep first last = [] := by
  have nothing : (last - first + line_size - 1) / line_size = 0 := Nat.div_eq_of_lt (by omega)
  rw [lines,nothing,List.range_zero,List.flatMap_nil]

theorem lines_cons (positive : 0 < line_size) {first last : Nat} (more : first < last) :
    lines p show_addr line_size sep first last =
      line p show_addr sep first (min line_size (last - first)) ++ lines p show_addr line_size sep (first + line_size) last := by
  have one_more : (last - first + line_size - 1) / line_size =
      (last - (first + line_size) + line_size - 1) / line_size + 1 := by
    rcases Nat.le_total line_size (last - first) with whole | part
    · rw [← Nat.add_div_right _ positive]
      congr 1
      omega
    · have once : (last - first + line_size - 1) / line_size = 1 := Nat.div_eq_of_lt_le (by omega) (by omega)
      have none_left : (last - (first + line_size) + line_size - 1) / line_size = 0 := Nat.div_eq_of_lt (by omega)
      rw [once,none_left]
  rw [lines,one_more,List.range_succ_eq_map,List.flatMap_cons,List.flatMap_map,lines]
  congr 1
  · simp
  · congr 1
    funext r
    have next : first + (r + 1) * line_size = first + line_size + r * line_size := by
      rw [Nat.add_mul]
      omega
    rw [next]

/-! ### The loop prints lines -/

theorem dump_bytes_add (later : Nat) : ∀ (count addr nb_to_print : Nat),
    dump_bytes mem show_addr line_size sep (count + later) addr nb_to_print =
      (dump_bytes mem show_addr line_size sep count addr nb_to_print).bind (fun first =>
        (dump_bytes mem show_addr line_size sep later (addr + count) first.2).map (fun second =>
          (first.1 ++ second.1,second.2))) := by
  intro count
  induction count with
  | zero =>
    intro addr nb_to_print
    simp [dump_bytes]
  | succ count ih =>
    intro addr nb_to_print
    rw [Nat.add_right_comm,dump_bytes,dump_bytes]
    cases byte_at mem addr with
    | none => rfl
    | some value =>
      have behind : addr + 1 + count = addr + (count + 1) := by omega
      simp only [Option.bind_eq_bind,Option.bind_some,ih,behind]
      cases dump_bytes mem show_addr line_size sep count (addr + 1) (if nb_to_print - 1 = 0 then line_size else nb_to_print - 1) with
      | none => rfl
      | some first =>
        simp only [Option.bind_some]
        cases dump_bytes mem show_addr line_size sep later (addr + (count + 1)) first.2 with
        | none => rfl
        | some second => simp

/-- Within a line: an address if the line begins here, and a line end if it is full. -/
theorem dump_row (holds : Holds mem p) : ∀ {count first nb_to_print : Nat}, 0 < count → count ≤ nb_to_print →
    nb_to_print ≤ line_size → first + count ≤ PAGE_SIZE →
    dump_bytes mem show_addr line_size sep count (p.start + first) nb_to_print =
      some ((if nb_to_print = line_size then address_print show_addr (p.start + first) sep else []) ++ row p sep first count ++
          (if count = nb_to_print then [.newline] else []),
        if count = nb_to_print then line_size else nb_to_print - count) := by
  intro count
  induction count with
  | zero => exact fun some_ => absurd some_ (Nat.lt_irrefl 0)
  | succ count ih =>
    intro first nb_to_print _ fits small inside
    rw [dump_bytes,holds first (by omega)]
    simp only [Option.bind_eq_bind,Option.bind_some]
    rcases Nat.eq_zero_or_pos count with rfl | more
    · by_cases full : nb_to_print = 1
      · simp [dump_bytes,row,full]
      · have others : ¬ nb_to_print - 1 = 0 := by omega
        have unfilled : ¬ 1 = nb_to_print := fun same => full same.symm
        simp [dump_bytes,row,others,unfilled]
    · have goes_on : ¬ nb_to_print - 1 = 0 := by omega
      have begun : ¬ nb_to_print - 1 = line_size := by omega
      have fullAlike : count = nb_to_print - 1 ↔ count + 1 = nb_to_print := by omega
      have left : nb_to_print - 1 - count = nb_to_print - (count + 1) := by omega
      have rest := @ih (first + 1) (nb_to_print - 1) more (by omega) (by omega) (by omega)
      rw [if_neg goes_on,Nat.add_assoc,rest]
      simp [row,List.range'_succ,goes_on,begun,fullAlike,left]

/-- From the start of a line the loop prints whole lines, and a last one whose end is
    still to come. -/
theorem dump_bytes_lines (show_addr : addr_fmt_t) (sep : List byte) (positive : 0 < line_size)
    (holds : Holds mem p) : ∀ (count first : Nat), first + count ≤ PAGE_SIZE →
    ∃ output last, dump_bytes mem show_addr line_size sep count (p.start + first) line_size = some (output,last) ∧
      output ++ (if last ≠ line_size then [.newline] else []) = lines p show_addr line_size sep first (first + count) := by
  intro count
  induction count using Nat.strong_induction_on with
  | _ count ih =>
    intro first inside
    rcases Nat.eq_zero_or_pos count with rfl | more
    · refine ⟨[],line_size,rfl,?_⟩
      rw [lines_nil positive (by omega)]
      simp
    · rw [lines_cons positive (by omega),Nat.add_sub_cancel_left]
      rcases Nat.lt_or_ge line_size count with longer | fits
      · obtain ⟨others,rfl⟩ : ∃ others, count = line_size + others := ⟨count - line_size,by omega⟩
        obtain ⟨output,last,dumped,shown⟩ := ih others (by omega) (first + line_size) (by omega)
        have whole : dump_bytes mem show_addr line_size sep line_size (p.start + first) line_size =
            some (line p show_addr sep first line_size,line_size) := by
          rw [dump_row holds positive le_rfl le_rfl (by omega)]
          simp [line]
        refine ⟨line p show_addr sep first line_size ++ output,last,?_,?_⟩
        · rw [dump_bytes_add,whole,Option.bind_some,Nat.add_assoc,dumped,Option.map_some]
        · rw [Nat.min_eq_left (Nat.le_add_right _ _),List.append_assoc,shown,Nat.add_assoc]
      · refine ⟨_,_,dump_row holds more fits le_rfl (by omega),?_⟩
        rw [lines_nil positive (by omega),Nat.min_eq_right fits]
        by_cases full : count = line_size
        · simp [full,line]
        · have unfilled : ¬ line_size - count = line_size := by omega
          simp [full,line,unfilled]

theorem mem_dump_lines (show_addr : addr_fmt_t) (sep : List byte) (positive : 0 < line_size) (holds : Holds mem p) (first : Nat)
    {last : Nat} (inside : last ≤ PAGE_SIZE) :
    mem_dump_with_options mem show_addr line_size sep (p.start + first) (p.start + last) =
      some (lines p show_addr line_size sep first last) := by
  have some_size : ¬ line_size = 0 := by omega
  rw [mem_dump_with_options,if_neg some_size,Nat.add_sub_add_left]
  rcases Nat.le_total first last with ahead | behind
  · obtain ⟨output,left,dumped,shown⟩ := dump_bytes_lines show_addr sep positive holds (last - first) first (by omega)
    rw [dumped,Option.map_some,shown]
    congr 2
    omega
  · have nothing : last - first = 0 := by omega
    rw [nothing,lines_nil positive behind]
    simp [dump_bytes]

/-- Where the line of the address ends. -/
theorem line_fits_iff (positive : 0 < line_size) (offset : Nat) :
    LineFits line_size offset ↔ offset + (line_size - offset % line_size) ≤ PAGE_SIZE := by
  rw [← parts_length positive]
  omega

/-- The dump of a page in memory, where the line of the address ends within the page. -/
theorem page_dump_lines (positive : 0 < line_size) {vaddr : virt_addr_t} {f : BitVec 20} (walked : frame mem vaddr = some f)
    (here : p.start = f.toNat * PAGE_SIZE) (holds : Holds mem p) (fits : LineFits line_size vaddr.page_offset.toNat) :
    vmem_page_dump_with_options mem show_addr line_size sep vaddr =
      some (.ERR_NONE,page_lines p show_addr line_size sep vaddr.page_offset.toNat) := by
  have small := vaddr.page_offset.isLt
  have rest := Nat.mod_lt vaddr.page_offset.toNat positive
  rw [line_fits_iff positive] at fits
  rw [vmem_page_dump_with_options,page_walk_correct,walked,Option.map_some]
  simp only [page_start_correct,← here,ne_eq,not_true_eq_false,↓reduceIte,Nat.add_assoc]
  generalize vaddr.page_offset.toNat = offset at *
  have before : offset ≤ PAGE_SIZE := by omega
  have above : mem_dump_with_options mem show_addr line_size sep p.start (p.start + offset) =
      some (lines p show_addr line_size sep 0 offset) := by
    have from_start := mem_dump_lines show_addr sep positive holds 0 before
    simpa using from_start
  have middle : mem_dump_with_options mem .NONE line_size sep (p.start + offset)
      (p.start + (offset + (line_size - offset % line_size))) = some (line p .NONE sep offset (line_size - offset % line_size)) := by
    rw [mem_dump_lines _ _ positive holds _ fits,lines_cons positive (by omega),lines_nil positive (by omega),
      Nat.add_sub_cancel_left,Nat.min_eq_right (by omega),List.append_nil]
  have below := mem_dump_lines show_addr sep positive holds (offset + (line_size - offset % line_size)) (Nat.le_refl PAGE_SIZE)
  simp only [above,middle,below,Option.bind_eq_bind,Option.bind_some,page_lines]

end

/-! ### The text -/

/-- The conversions of `address_print`; a pointer as glibc prints it. -/
def address_text (reference : Nat) : addr_fmt_t → Nat → List byte
  | .NONE, _ => []
  | .POINTER, addr => text "0x" ++ print_hex_lower 1 (reference + addr)
  | .OFFSET, addr => print_hex 1 addr
  | .OFFSET_U, addr => print_decimal addr

def printed_text (reference : Nat) : printed → List byte
  | .address show_addr addr sep => address_text reference show_addr addr ++ chr ':' :: sep
  | .byte _ value sep => print_hex 2 value.toNat ++ sep
  | .blanks sep => text "  " ++ sep
  | .newline => [chr '\n']

def page_text (show_addr : addr_fmt_t) (line_size : Nat) (sep : List byte) (offset : Nat) (p : page_t) : List byte :=
  (page_lines p show_addr line_size sep offset).flatMap (printed_text p.reference)

/-- The addresses that are shown are alike. -/
def SamePlace (show_addr : addr_fmt_t) (left right : page_t) : Prop :=
  match show_addr with
  | .NONE => True
  | .POINTER => left.reference + left.start = right.reference + right.start
  | _ => left.start = right.start

def SamePage (show_addr : addr_fmt_t) (left right : page_t) : Prop :=
  SamePlace show_addr left right ∧ ∀ k < PAGE_SIZE, left.byte k = right.byte k

section
variable (show_addr : addr_fmt_t) (line_size : Nat) (sep : List byte)

/-- An address tells the number that is printed. -/
theorem tells_colon {symbol : Nat → byte} {base : Nat} (more : 1 < base) (distinct : Distinct symbol base)
    (colon : ∀ d < base, symbol d ≠ chr ':') (number : page_t → Nat) (k : Nat) :
    Tells (fun _ _ => True) (fun p => numeral symbol base 1 (number p + k) ++ chr ':' :: sep)
      (fun p q => number p = number q) :=
  (tells_numeral more distinct colon (fun p => number p + k) 1 sep).congr (fun _ _ _ => Nat.add_right_cancel_iff)

theorem tells_address (k : Nat) :
    Tells (fun _ _ => True) (fun p : page_t => (address_print show_addr (p.start + k) sep).flatMap (printed_text p.reference))
      (SamePlace show_addr) := by
  have hex : ∀ d < 16, hex_char d ≠ chr ':' := by decide
  have hex_lower : ∀ d < 16, hex_char_lower d ≠ chr ':' := by decide
  have decimal : ∀ d < 10, decimal_char d ≠ chr ':' := by decide
  cases show_addr with
  | NONE => exact tells_text []
  | POINTER =>
    have pointer := (tells_colon sep (by decide) hex_char_lower_distinct hex_lower (fun p => p.reference + p.start) k).after_text
      (text "0x")
    change Tells _ _ (fun p q : page_t => p.reference + p.start = q.reference + q.start)
    simpa [address_print,printed_text,address_text,print_hex_lower,Nat.add_assoc] using pointer
  | OFFSET =>
    have offset : Tells _ (fun p : page_t => print_hex 1 (p.start + k) ++ chr ':' :: sep) _ :=
      tells_colon sep (by decide) hex_char_distinct hex page_t.start k
    change Tells _ _ (fun p q : page_t => p.start = q.start)
    simpa [address_print,printed_text,address_text] using offset
  | OFFSET_U =>
    have offset : Tells _ (fun p : page_t => print_decimal (p.start + k) ++ chr ':' :: sep) _ :=
      tells_colon sep (by decide) decimal_char_distinct decimal page_t.start k
    change Tells _ _ (fun p q : page_t => p.start = q.start)
    simpa [address_print,printed_text,address_text] using offset

theorem tells_byte (k : Nat) :
    Tells (fun _ _ => True) (fun p : page_t => print_hex 2 (p.byte k).toNat) (fun p q => p.byte k = q.byte k) := by
  refine tells_word 2 ?_ ?_
  · intro p
    obtain ⟨least,most⟩ := print_hex_length (le_refl 2) (p.byte k).isLt
    omega
  · intro p q
    constructor
    · intro same
      exact BitVec.eq_of_toNat_eq (numeral_inj (by decide) hex_char_distinct same)
    · intro same
      rw [same]

theorem tells_row (first count : Nat) :
    Tells (fun _ _ => True) (fun p : page_t => (row p sep first count).flatMap (printed_text p.reference))
      (fun p q => ∀ k ∈ List.range' first count, p.byte k = q.byte k) := by
  have bytes := tells_flatMap (List.range' first count) (fun k _ => (tells_byte k).beside (tells_text sep))
  simpa [row,List.flatMap_map,printed_text] using bytes

theorem tells_line (first count : Nat) :
    Tells (fun _ _ => True) (fun p : page_t => (line p show_addr sep first count).flatMap (printed_text p.reference))
      (fun p q => SamePlace show_addr p q ∧ ∀ k ∈ List.range' first count, p.byte k = q.byte k) := by
  have parts := ((tells_address show_addr sep first).beside (tells_row sep first count)).beside (tells_text [chr '\n'])
  simpa [line,printed_text] using parts

/-- Lines tell the bytes from the first to the last, and if there is any line, the place. -/
theorem tells_lines (positive : 0 < line_size) (first last : Nat) :
    Tells (fun _ _ => True) (fun p : page_t => (lines p show_addr line_size sep first last).flatMap (printed_text p.reference))
      (fun p q => (first < last → SamePlace show_addr p q) ∧ ∀ k, first ≤ k → k < last → p.byte k = q.byte k) := by
  have each := tells_flatMap (List.range ((last - first + line_size - 1) / line_size)) (fun r _ =>
    tells_line show_addr sep (first + r * line_size) (min line_size (last - (first + r * line_size))))
  simp only [lines,List.flatMap_assoc]
  refine each.congr ?_
  intro p q _
  constructor
  · intro told
    -- The line that shows a byte.
    have shown : ∀ k, first ≤ k → k < last → SamePlace show_addr p q ∧ p.byte k = q.byte k := by
      intro k from_first before
      have divided := Nat.div_add_mod (k - first) line_size
      have rest := Nat.mod_lt (k - first) positive
      rw [Nat.mul_comm] at divided
      have inLines : (k - first) / line_size ∈ List.range ((last - first + line_size - 1) / line_size) := by
        rw [List.mem_range,Nat.lt_iff_add_one_le,← Nat.add_div_right _ positive]
        exact Nat.div_le_div_right (by omega)
      obtain ⟨place,bytes⟩ := told _ inLines
      refine ⟨place,bytes k ?_⟩
      rw [List.mem_range'_1]
      omega
    exact ⟨fun some_ => (shown first le_rfl some_).1,fun k from_first before => (shown k from_first before).2⟩
  · rintro ⟨place,bytes⟩ r inLines
    have some_ : first < last := by
      by_contra none_left
      have no_line : (last - first + line_size - 1) / line_size = 0 := Nat.div_eq_of_lt (by omega)
      rw [no_line] at inLines
      cases inLines
    refine ⟨place some_,fun k member => ?_⟩
    rw [List.mem_range'_1] at member
    exact bytes k (by omega) (by omega)

theorem tells_blanks (count : Nat) :
    Tells (fun _ _ => True) (fun p : page_t => (List.replicate count (.blanks sep)).flatMap (printed_text p.reference))
      (fun _ _ => True) := by
  have blanks : Tells (fun _ _ : page_t => True) _ _ := tells_text (List.replicate count (text "  " ++ sep)).flatten
  simpa [List.flatMap_replicate,printed_text] using blanks

/-- A dump tells the bytes of its page, and the page where addresses are shown. -/
theorem tells_page (positive : 0 < line_size) {offset : Nat} (fits : LineFits line_size offset) :
    Tells (fun _ _ => True) (page_text show_addr line_size sep offset) (SamePage show_addr) := by
  rw [line_fits_iff positive] at fits
  have above := tells_lines show_addr line_size sep positive 0 offset
  have empty : Tells (fun _ _ => True) (fun p : page_t =>
      (if offset % line_size = 0 then [.newline] else []).flatMap (printed_text p.reference)) (fun _ _ => True) := by
    split_ifs
    · exact tells_text [chr '\n']
    · exact tells_text []
  have address := tells_address show_addr sep offset
  have blanks := tells_blanks sep (offset % line_size)
  have middle := tells_line .NONE sep offset (line_size - offset % line_size)
  have below := tells_lines show_addr line_size sep positive (offset + (line_size - offset % line_size)) PAGE_SIZE
  have parts := ((((above.beside empty).beside address).beside blanks).beside middle).beside below
  simp only [← List.flatMap_append] at parts
  refine parts.congr ?_
  rintro p q -
  simp only [SamePage,List.mem_range'_1]
  constructor
  · rintro ⟨⟨⟨⟨⟨⟨_,first⟩,_⟩,place⟩,_⟩,_,second⟩,_,third⟩
    refine ⟨place,fun k inside => ?_⟩
    rcases Nat.lt_or_ge k offset with before | behind
    · exact first k (Nat.zero_le k) before
    · rcases Nat.lt_or_ge k (offset + (line_size - offset % line_size)) with here | after
      · exact second k ⟨behind,here⟩
      · exact third k after inside
  · rintro ⟨place,bytes⟩
    exact ⟨⟨⟨⟨⟨⟨fun _ => place,fun k _ before => bytes k (by omega)⟩,trivial⟩,place⟩,trivial⟩,trivial,
      fun k within => bytes k (by omega)⟩,fun _ => place,fun k _ before => bytes k before⟩

end

/-! ### Where the memory lies -/

section
variable {mem : mem_space} {show_addr : addr_fmt_t} {line_size : Nat} {sep : List byte}

/-- The addresses in an output, if there are any, are in the format. -/
def InFormat (show_addr : addr_fmt_t) (output : List printed) : Prop :=
  ∀ f addr sep, .address f addr sep ∈ output → f = show_addr ∧ f ≠ .NONE

@[simp] theorem inFormat_append (show_addr : addr_fmt_t) (left right : List printed) :
    InFormat show_addr (left ++ right) ↔ InFormat show_addr left ∧ InFormat show_addr right := by
  constructor
  · intro both
    exact ⟨fun f addr sep member => both f addr sep (List.mem_append_left right member),
      fun f addr sep member => both f addr sep (List.mem_append_right left member)⟩
  · rintro ⟨first,second⟩ f addr sep member
    rcases List.mem_append.mp member with here | there
    · exact first f addr sep here
    · exact second f addr sep there

@[simp] theorem inFormat_address (show_addr : addr_fmt_t) (addr : Nat) (sep : List byte) :
    InFormat show_addr (address_print show_addr addr sep) := by
  intro f addr' sep' member
  unfold address_print at member
  split_ifs at member with none_shown
  · cases member
  · cases List.mem_singleton.mp member
    exact ⟨rfl,none_shown⟩

@[simp] theorem inFormat_byte (show_addr : addr_fmt_t) (addr : Nat) (value : byte_t) (sep : List byte) (rest : List printed) :
    InFormat show_addr (.byte addr value sep :: rest) ↔ InFormat show_addr rest := by simp [InFormat]

@[simp] theorem inFormat_newline (show_addr : addr_fmt_t) (rest : List printed) :
    InFormat show_addr (.newline :: rest) ↔ InFormat show_addr rest := by simp [InFormat]

@[simp] theorem inFormat_nil (show_addr : addr_fmt_t) : InFormat show_addr [] := by simp [InFormat]

@[simp] theorem inFormat_blanks (show_addr : addr_fmt_t) (count : Nat) (sep : List byte) :
    InFormat show_addr (List.replicate count (.blanks sep)) := by simp [InFormat]

/-- An output without addresses is in every format. -/
theorem inFormat_none {output : List printed} (formatted : InFormat .NONE output) : InFormat show_addr output := by
  intro f addr sep member
  obtain ⟨none_shown,shown⟩ := formatted f addr sep member
  exact absurd none_shown shown

theorem dump_bytes_inFormat : ∀ {count addr nb_to_print last : Nat} {output : List printed},
    dump_bytes mem show_addr line_size sep count addr nb_to_print = some (output,last) → InFormat show_addr output := by
  intro count
  induction count with
  | zero =>
    intro addr nb_to_print last output dumped
    cases dumped
    simp
  | succ count ih =>
    intro addr nb_to_print last output dumped
    obtain ⟨value,read,dumped⟩ := Option.bind_eq_some_iff.mp dumped
    obtain ⟨⟨rest,last'⟩,later,same⟩ := Option.bind_eq_some_iff.mp dumped
    cases same
    have behind := ih later
    split_ifs <;> simp [behind]

theorem mem_dump_inFormat {start to_ : Nat} {output : List printed}
    (dumped : mem_dump_with_options mem show_addr line_size sep start to_ = some output) : InFormat show_addr output := by
  unfold mem_dump_with_options at dumped
  split_ifs at dumped
  obtain ⟨⟨lines,last⟩,looped,rfl⟩ := Option.map_eq_some_iff.mp dumped
  have here := dump_bytes_inFormat looped
  split_ifs <;> simp [here]

theorem page_dump_inFormat {vaddr : virt_addr_t} {code : error_code} {output : List printed}
    (dumped : vmem_page_dump_with_options mem show_addr line_size sep vaddr = some (code,output)) :
    InFormat show_addr output := by
  unfold vmem_page_dump_with_options at dumped
  split at dumped
  · cases dumped
  · split_ifs at dumped
    · cases dumped
      simp
    · obtain ⟨above,first,dumped⟩ := Option.bind_eq_some_iff.mp dumped
      obtain ⟨line,second,dumped⟩ := Option.bind_eq_some_iff.mp dumped
      obtain ⟨below,third,same⟩ := Option.bind_eq_some_iff.mp dumped
      cases same
      have before := mem_dump_inFormat first
      have middle : InFormat show_addr line := inFormat_none (mem_dump_inFormat second)
      have after := mem_dump_inFormat third
      split_ifs <;> simp [before,middle,after]

/-- Only pointers tell where the memory lies. -/
theorem same_text {reference reference' : Nat} (placed : show_addr = .POINTER → reference = reference')
    {output : List printed} (formatted : InFormat show_addr output) :
    output.flatMap (printed_text reference) = output.flatMap (printed_text reference') := by
  refine List.flatMap_congr ?_
  intro piece member
  cases piece with
  | address f addr sep =>
    obtain ⟨rfl,_⟩ := formatted f addr sep member
    cases f with
    | POINTER => rw [placed rfl]
    | _ => rfl
  | _ => rfl

end

end CacheEmulator.PageLines
