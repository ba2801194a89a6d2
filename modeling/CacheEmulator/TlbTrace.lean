import CacheEmulator.AddrPrint
import CacheEmulator.Commands
import CacheEmulator.ListPrint
import CacheEmulator.TlbPlain

/-!
The trace of `test-tlb_simple.c`: for each line of a program, one search in the
fully associative TLB, and a report of its answer, of all lines of the table and
of the replacement list. The text is that of the plain TLB, whatever the
allocator does, and it shows least recently used replacement at work.
-/
namespace CacheEmulator.TlbTrace
open CacheEmulator.Error CacheEmulator.Memory CacheEmulator.Addr CacheEmulator.PageWalk CacheEmulator.LinkedList
open CacheEmulator.Tlb CacheEmulator.TlbRuns CacheEmulator.TlbPlain CacheEmulator.Recency CacheEmulator.Commands
open CacheEmulator.Stdio CacheEmulator.Numeral CacheEmulator.AddrPrint CacheEmulator.ListPrint
open CacheEmulator.Printing (Tells tells_text tells_flag tells_flatMap)
open CacheEmulator.Machine (run Agree)

/-! ### The loop of `main` -/

/-- The texts for the codes, which the loop picks by number. -/
def ERR_MESSAGES : List (List byte) :=
  [text "",text "Not enough memory",text "IO error",text "Bad parameter",text "End of file",text "Wrong address",
    text "Wrong size",text "Wrong size",text "Not found",text "no error (shall not be displayed)"]

def print_lines (tlb : tlb_t) : List byte :=
  (List.finRange TLB_LINES).flatMap (fun tlb_line_index =>
    print_decimal (tlb tlb_line_index).v.toNat ++ text "; " ++ print_hex_lower 1 (tlb tlb_line_index).tag.toNat ++
      text "; " ++ print_hex 5 (tlb tlb_line_index).phy_page_num.toNat ++ text ";\n")

def dashes : List byte := text "-------------------------------------------------------------------\n"

/-- What every report begins with. -/
def print_head (prog_line_index : Nat) (vaddr : virt_addr_t) : List byte :=
  dashes ++ text "After program line " ++ print_decimal prog_line_index ++ text "...\n\n" ++ text "VA = " ++
    (print_virtual_address vaddr).2

/-- What follows when the search returned no error; `list` is what `print_list` writes. -/
def print_found (paddr : phy_addr_t) (hit : Bool) (tlb : tlb_t) (list : List byte) : List byte :=
  text "; PA  = " ++ (print_physical_address paddr).2 ++ text "\n\n" ++
    (if hit then text "HIT...\n\n" else text "MISS...\n\n") ++ print_lines tlb ++ list

/-- The variables of `main` that the loop changes. -/
structure loop_state where
  prog_line_index : Nat
  paddr : phy_addr_t
  tlb : Tlb.state

/-- One turn of the loop, with the text it writes to `f_out`. -/
def turn (mem : mem_space) (s : loop_state) (command : command_t) : Option (List byte × loop_state) := do
  let searched ← tlb_search mem command.vaddr s.paddr s.tlb
  let rest ←
    if searched.code = .ERR_NONE then
      (print_list searched.state.heap searched.state.ll).map (fun list =>
        print_found searched.paddr searched.hit_or_miss searched.state.tlb list.2)
    else ERR_MESSAGES[searched.code.value]?.map (fun message =>
      text "error with tlb_search(): " ++ message ++ text "\n")
  some (print_head s.prog_line_index command.vaddr ++ rest ++ dashes,
    ⟨s.prog_line_index + 1,searched.paddr,searched.state⟩)

/-- The file that `main` writes for the lines of a program. -/
def trace (allocated : Nat → node_ptr) (mem : mem_space) (commands : List command_t) : Option (List byte) := do
  let filled ← fill_lines allocated TLB_LINES
  let written ← run (turn mem) ⟨0,⟨0,0⟩,⟨tlb_flush.2,filled.1,filled.2⟩⟩ commands
  some written.1.flatten

/-! ### The same over the plain TLB -/

structure report where
  prog_line_index : Nat
  vaddr : virt_addr_t
  found : found
  after : plain

def print_report (r : report) : List byte :=
  print_head r.prog_line_index r.vaddr ++
    print_found r.found.paddr r.found.hit r.after.tlb
      (sequence_text (r.after.order.lines.map (fun i => BitVec.ofNat 32 i.val))) ++
    dashes

def plain_turn (mem : mem_space) (s : Nat × plain) (command : command_t) : Option (report × (Nat × plain)) :=
  (plain_search mem s.2 command.vaddr).map (fun found =>
    (⟨s.1,command.vaddr,found.1,found.2⟩,(s.1 + 1,found.2)))

/-- The loops stand at the same line, with the list in the order of the plain TLB. -/
def Together (index : node_ptr → Fin TLB_LINES) (s : Nat × plain) (t : loop_state) : Prop :=
  s.1 = t.prog_line_index ∧ ∃ ps, Stands index ps t.tlb s.2

/-- The list is printed as the numbers of the lines in their order. -/
theorem stands_prints {index : node_ptr → Fin TLB_LINES} {ps : List node_ptr} {c : Tlb.state} {s : plain}
    (stands : Stands index ps c s) :
    print_list c.heap c.ll = some (ps.length,sequence_text (s.order.lines.map (fun i => BitVec.ofNat 32 i.val))) := by
  have holds : ListRuns.Holds c.heap c.ll (ps.map (fun p => (p,BitVec.ofNat 32 (index p).val))) := by
    refine ⟨?_,?_⟩
    · rw [List.map_map]
      exact (List.map_id ps).symm ▸ stands.list
    · intro cell member
      obtain ⟨p,inList,rfl⟩ := List.mem_map.mp member
      exact stands.indices p inList
  rw [(holds_prints holds).1,List.length_map,← stands.order,List.map_map,List.map_map]
  rfl

theorem turns_together (mem : mem_space) {index : node_ptr → Fin TLB_LINES} (s : Nat × plain) (t : loop_state)
    (command : command_t) (together : Together index s t) :
    Agree (fun a b => print_report a.1 = b.1 ∧ Together index a.2 b.2) (plain_turn mem s command) (turn mem t command) := by
  obtain ⟨sameLine,ps,stands⟩ := together
  rw [plain_turn,turn]
  rcases Machine.agree_cases (tlb_search_plain mem stands command.vaddr t.paddr) with
    ⟨defined,plainly⟩ | ⟨r,after,defined,plainly,code,same,ps',restored⟩
  · rw [defined,plainly]
    trivial
  · simp only [defined,plainly,code,stands_prints restored,Option.map_some,Option.bind_eq_bind,Option.bind_some,↓reduceIte,
      Agree]
    refine ⟨?_,by rw [sameLine],ps',restored⟩
    rw [print_report,same,sameLine,restored.tlb]

/-- Reports with the same text. -/
def Same (r r' : report) : Prop :=
  r.prog_line_index = r'.prog_line_index ∧ number r.vaddr = number r'.vaddr ∧ r.found = r'.found ∧ r.after = r'.after

theorem entry_eq_iff (left right : tlb_entry_t) :
    left = right ↔ left.v = right.v ∧ left.tag = right.tag ∧ left.phy_page_num = right.phy_page_num := by
  cases left; cases right
  simp only [tlb_entry_t.mk.injEq]
  tauto

theorem tells_lines : Tells (fun _ _ => True) print_lines (fun tlb tlb' => tlb = tlb') := by
  have semicolon : ∀ d < 16, hex_char d ≠ chr ';' := by decide
  have semicolon' : ∀ d < 16, hex_char_lower d ≠ chr ';' := by decide
  have line : ∀ i : Fin TLB_LINES, Tells (fun _ _ => True)
      (fun tlb : tlb_t => print_decimal (tlb i).v.toNat ++ text "; " ++ print_hex_lower 1 (tlb i).tag.toNat ++
        text "; " ++ print_hex 5 (tlb i).phy_page_num.toNat ++ text ";\n") (fun tlb tlb' => tlb i = tlb' i) := by
    intro i
    have frame := hex_after semicolon (fun tlb : tlb_t => (tlb i).phy_page_num) 5 (tells_text (text ";\n")) (fun _ => ⟨_,rfl⟩)
    have tag := hex_lower_after semicolon' (fun tlb : tlb_t => (tlb i).tag) 1 (frame.after_text (text "; ")) (fun _ => ⟨_,rfl⟩)
    have valid := decimal_after (show ∀ d < 10, decimal_char d ≠ chr ';' by decide) (fun tlb : tlb_t => (tlb i).v.toNat)
      (tag.after_text (text "; ")) (fun _ => ⟨_,rfl⟩)
    simp only [List.append_assoc]
    refine valid.congr (fun tlb tlb' _ => ?_)
    rw [entry_eq_iff]
    simp [BitVec.toNat_inj]
  refine (tells_flatMap (List.finRange TLB_LINES) (fun i _ => line i)).congr (fun tlb tlb' _ => ?_)
  simp [funext_iff]

theorem tells_order : Tells (fun _ _ => True)
    (fun order : order_t => sequence_text (order.lines.map (fun i => BitVec.ofNat 32 i.val)))
    (fun order order' => order = order') := by
  intro order order' _ rest rest'
  constructor
  · intro same
    have some_ : ∀ order : order_t, order.lines.map (fun i => BitVec.ofNat 32 i.val) ≠ [] :=
      fun order none => order.ne_nil (List.map_eq_nil_iff.mp none)
    obtain ⟨values,behind⟩ := sequence_text_split (some_ order) (some_ order') same
    refine ⟨order_t.ext (List.map_injective_iff.mpr ?_ values),behind⟩
    intro i j number
    have numbers := congrArg BitVec.toNat number
    rw [index_lt,index_lt] at numbers
    exact Fin.ext numbers
  · rintro ⟨rfl,rfl⟩
    rfl

/-- The reports of a trace can be told apart one by one. -/
theorem tells_report : Tells (fun _ _ => True) print_report Same := by
  have newline : ∀ d < 16, hex_char d ≠ chr '\n' := by decide
  have semicolon : ∀ d < 16, hex_char d ≠ chr ';' := by decide
  have order : Tells (fun _ _ => True) (fun r : report =>
      sequence_text (r.after.order.lines.map (fun i => BitVec.ofNat 32 i.val))) (fun r r' => r.after.order = r'.after.order) :=
    fun r r' _ => tells_order r.after.order r'.after.order trivial
  have lines : Tells (fun _ _ => True) (fun r : report => print_lines r.after.tlb) (fun r r' => r.after.tlb = r'.after.tlb) :=
    fun r r' _ => tells_lines r.after.tlb r'.after.tlb trivial
  have apart : ∀ rest rest', text "HIT...\n\n" ++ rest ≠ text "MISS...\n\n" ++ rest' :=
    fun _ _ same => absurd (List.cons.inj same).1 (by decide)
  have flag := (tells_flag apart (fun r : report => r.found.hit = true)).beside
    (lines.beside (order.beside (tells_text dashes)))
  have physical := physical_after newline (fun r : report => r.found.paddr) (flag.after_text (text "\n\n")) (fun _ => ⟨_,rfl⟩)
  have virtual := virtual_after semicolon (fun r : report => r.vaddr) (physical.after_text (text "; PA  = "))
    (fun _ => ⟨_,rfl⟩)
  have index := decimal_after (show ∀ d < 10, decimal_char d ≠ chr '.' by decide) (fun r : report => r.prog_line_index)
    ((virtual.after_text (text "VA = ")).after_text (text "...\n\n")) (fun _ => ⟨_,rfl⟩)
  have whole := (index.after_text (text "After program line ")).after_text dashes
  unfold print_report print_head print_found
  simp only [List.append_assoc]
  refine whole.congr (fun r r' _ => ?_)
  obtain ⟨index,vaddr,⟨hit,paddr⟩,⟨tlb,lines⟩⟩ := r
  obtain ⟨index',vaddr',⟨hit',paddr'⟩,⟨tlb',lines'⟩⟩ := r'
  simp only [Same,Bool.coe_iff_coe,found.mk.injEq,plain.mk.injEq]
  tauto

theorem print_report_ne_nil (r : report) : print_report r ≠ [] := by
  intro none
  unfold print_report print_head at none
  simp only [List.append_assoc] at none
  exact absurd (List.append_eq_nil_iff.mp none).1 (by decide)

/-! ### What the reports are settled by -/

/-- The pages that commands access. -/
def accessed (commands : List command_t) : List Nat := commands.map (fun c => page c.vaddr)

/-- The report that the line after the commands so far has to get: the translation, a hit just
    on a page that is among the most recent ones, and the lines in the order of their last use. -/
structure Correct (mem : mem_space) (before : List command_t) (command : command_t) (r : report) : Prop where
  prog_line_index : r.prog_line_index = before.length
  vaddr : r.vaddr = command.vaddr
  paddr : page_walk mem command.vaddr ⟨0,0⟩ = some (.ERR_NONE,r.found.paddr)
  hit : r.found.hit = true ↔ page command.vaddr ∈ mostRecent TLB_LINES (accessed before)
  after : ∃ free used, Ranked mem (accessed (before ++ [command])) r.after free used

/-- Commands whose page walks stay inside the memory. -/
def Inside (mem : mem_space) (commands : List command_t) : Prop := ∀ c ∈ commands, (frame mem c.vaddr).isSome

theorem run_correct {mem : mem_space} {commands : List command_t} (inside : Inside mem commands) :
    ∃ reports s, run (plain_turn mem) (0,TlbPlain.start) commands = some (reports,s) ∧ reports.length = commands.length ∧
      ∀ (k : Nat) (c : command_t) (r : report), commands[k]? = some c → reports[k]? = some r →
        Correct mem (commands.take k) c r := by
  obtain ⟨index,starts⟩ := start_reached mem
  have total : ∀ (before : List command_t) (s : Nat × plain) (c : command_t),
      (s.1 = before.length ∧ Reached mem index (accessed before) s.2) → (frame mem c.vaddr).isSome →
      ∃ r next, plain_turn mem s c = some (r,next) ∧
        (next.1 = (before ++ [c]).length ∧ Reached mem index (accessed (before ++ [c])) next.2) ∧
          Correct mem before c r := by
    rintro before s c ⟨line,reached⟩ walks
    obtain ⟨f,next,searched⟩ := plain_search_total walks s.2
    obtain ⟨after,hit,walked⟩ := plain_search_correct reached searched
    have concat : accessed before ++ [page c.vaddr] = accessed (before ++ [c]) := by simp [accessed]
    rw [concat] at after
    exact ⟨_,_,by rw [plain_turn,searched]; rfl,⟨by simp [line],after⟩,line,rfl,walked,hit,reached_ranked after⟩
  obtain ⟨reports,s,ran,_,answers⟩ := Machine.run_answers total commands [] (0,TlbPlain.start) ⟨rfl,starts⟩ inside
  obtain ⟨lengths,positions⟩ := Machine.answers_get answers
  exact ⟨reports,s,ran,lengths,positions⟩

/-- Two loads from page 0. -/
def zero_commands : List command_t :=
  [⟨.READ,.DATA,4,0,⟨0,0,0,0,0,0⟩⟩,⟨.READ,.DATA,4,0,⟨0,0,0,0,0,8⟩⟩]

theorem zero_commands_inside : Inside zero_mem zero_commands := by
  unfold Inside
  decide

/-- The same address with the same translation. -/
def Alike (mem mem' : mem_space) (c c' : command_t) : Prop :=
  virt_addr_t_to_uint64_t c.vaddr = virt_addr_t_to_uint64_t c'.vaddr ∧ frame mem c.vaddr = frame mem' c'.vaddr

theorem plain_search_alike {mem mem' : mem_space} {vaddr vaddr' : virt_addr_t} (same : number vaddr = number vaddr')
    (translated : frame mem vaddr = frame mem' vaddr') (s : plain) :
    plain_search mem s vaddr = plain_search mem' s vaddr' := by
  have samePage : page vaddr = page vaddr' := by rw [page_of_number,page_of_number,same]
  have sameOffset := ((number_eq_iff vaddr vaddr').mp same).2.2.2.2
  rw [plain_search,plain_search,samePage,sameOffset,translated]

/-- Two loops in the same state, each reached over its memory. -/
def Level (mem mem' : mem_space) (s s' : Nat × plain) : Prop :=
  s = s' ∧ (∃ index history, Reached mem index history s.2) ∧ ∃ index history, Reached mem' index history s'.2

theorem turns_told {mem mem' : mem_space} (s s' : Nat × plain) (c c' : command_t) (r r' : report) (next next' : Nat × plain)
    (level : Level mem mem' s s') (turned : plain_turn mem s c = some (r,next))
    (turned' : plain_turn mem' s' c' = some (r',next')) :
    (Same r r' ↔ Alike mem mem' c c') ∧ (Alike mem mem' c c' → Level mem mem' next next') := by
  obtain ⟨rfl,⟨index,history,reached⟩,index',history',reached'⟩ := level
  obtain ⟨⟨f,after⟩,searched,same⟩ := Option.map_eq_some_iff.mp turned
  obtain ⟨rfl,rfl⟩ := Prod.mk.inj same
  obtain ⟨⟨f',after'⟩,searched',same'⟩ := Option.map_eq_some_iff.mp turned'
  obtain ⟨rfl,rfl⟩ := Prod.mk.inj same'
  obtain ⟨restored,_,walked⟩ := plain_search_correct reached searched
  obtain ⟨restored',_,walked'⟩ := plain_search_correct reached' searched'
  have address : virt_addr_t_to_uint64_t c.vaddr = virt_addr_t_to_uint64_t c'.vaddr ↔ number c.vaddr = number c'.vaddr := by
    rw [← BitVec.toNat_inj,virt_addr_t_to_uint64_t_correct,virt_addr_t_to_uint64_t_correct]
  have equal : Alike mem mem' c c' → f = f' ∧ after = after' := by
    rintro ⟨sameNumber,translated⟩
    rw [plain_search_alike (address.mp sameNumber) translated,searched'] at searched
    exact (Prod.mk.inj (Option.some.inj searched)).imp Eq.symm Eq.symm
  refine ⟨⟨?_,?_⟩,?_⟩
  · rintro ⟨_,sameNumber,sameFound,_⟩
    refine ⟨address.mpr sameNumber,?_⟩
    simp only at sameFound
    rw [page_walk_correct,Option.map_eq_some_iff] at walked walked'
    obtain ⟨g,framed,here⟩ := walked
    obtain ⟨g',framed',here'⟩ := walked'
    have sameFrame : g = g' := by
      have whole := congrArg found.paddr sameFound
      rw [← (Prod.mk.inj here).2,← (Prod.mk.inj here').2] at whole
      exact (phy_addr_t.mk.inj whole).1
    rw [framed,framed',sameFrame]
  · intro alike
    obtain ⟨rfl,rfl⟩ := equal alike
    exact ⟨rfl,address.mp alike.1,rfl,rfl⟩
  · intro alike
    obtain ⟨rfl,rfl⟩ := equal alike
    exact ⟨rfl,⟨_,_,restored⟩,_,_,restored'⟩

end CacheEmulator.TlbTrace
