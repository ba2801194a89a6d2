import CacheEmulator.AddrPrint
import CacheEmulator.Commands
import CacheEmulator.TlbHrchyHistory

/-!
The trace of `test-tlb_hrchy.c`: for each line of a program, one search in the
hierarchy and a report of its answer and of all three tables. Every report is
settled by the lines of the program so far, and a trace tells two programs apart
just when they access other addresses, in another way, or find other translations.
-/
namespace CacheEmulator.TlbHrchyTrace
open CacheEmulator.Error CacheEmulator.Memory CacheEmulator.Addr CacheEmulator.PageWalk CacheEmulator.TlbHrchy
open CacheEmulator.TlbHrchyRuns CacheEmulator.TlbHrchyEffects CacheEmulator.TlbHrchyHistory CacheEmulator.History
open CacheEmulator.Commands
open CacheEmulator.Stdio CacheEmulator.Numeral CacheEmulator.AddrPrint
open CacheEmulator.Printing (Tells tells_text tells_flag tells_flatMap)
open CacheEmulator.DirectMapped (lookup)
open CacheEmulator.Machine (run)

/-! ### The loop of `main` -/

/-- What a turn of the loop has found for its program line. -/
structure report where
  prog_line_index : Nat
  command : command_t
  paddr : phy_addr_t
  hit : Bool
  tlbs : tlbs

/-- The variables of `main` that the loop changes. -/
structure state where
  prog_line_index : Nat
  paddr : phy_addr_t
  tlbs : tlbs

def start : state := ⟨0,⟨0,0⟩,flushed⟩

/-- One turn of the loop; the code that `tlb_search` returns is not looked at. -/
def turn (mem : mem_space) (s : state) (command : command_t) : Option (report × state) := do
  let access := if command.type = .DATA then .DATA else .INSTRUCTION
  let searched ← tlb_search mem command.vaddr s.paddr access s.tlbs
  some (⟨s.prog_line_index,command,searched.paddr,searched.hit_or_miss,searched.tlbs⟩,
    ⟨s.prog_line_index + 1,searched.paddr,searched.tlbs⟩)

def print_entry {type : tlb_t} (entry : tlb_entry_t type) : List byte :=
  if entry.v ≠ 0#1 then
    print_decimal entry.v.toNat ++ text "; " ++ print_hex 8 entry.tag.toNat ++ text "; " ++
      print_hex 5 entry.phy_page_num.toNat ++ text ";\n"
  else print_decimal entry.v.toNat ++ text "; --------; -----;\n"

def print_all_tlb_entries {type : tlb_t} (table : tlb type) : List byte :=
  [chr '\n',chr '\n'] ++ (List.finRange (lines type)).flatMap (fun tlb_line_index => print_entry (table tlb_line_index))

def access_value : mem_access_t → Nat
  | .INSTRUCTION => 0
  | .DATA => 1

def dashes : List byte := text "-------------------------------------------------------------------\n"

/-- What a turn writes to `f_out`. -/
def print_report (r : report) : List byte :=
  text "\n" ++ print_decimal r.prog_line_index ++ text ": DATA/INSTRUCTION = " ++
    print_decimal (access_value (if r.command.type = .DATA then .DATA else .INSTRUCTION)) ++ text "\n" ++
  dashes ++
  text "After program line " ++ print_decimal r.prog_line_index ++ text "...\n\n" ++
  text "VA = " ++ (print_virtual_address r.command.vaddr).2 ++
  text "; PA  = " ++ (print_physical_address r.paddr).2 ++
  text "\n\n" ++
  (if r.hit then text "HIT...\n\n" else text "MISS...\n\n") ++
  text "\n\nL1_ITLB:" ++ print_all_tlb_entries r.tlbs.l1_itlb ++
  text "\n\nL1_DTLB:" ++ print_all_tlb_entries r.tlbs.l1_dtlb ++
  text "\n\nL2_TLB:" ++ print_all_tlb_entries r.tlbs.l2_tlb ++
  dashes

/-- The file that `main` writes for the lines of a program. -/
def trace (mem : mem_space) (commands : List command_t) : Option (List byte) :=
  (run (turn mem) start commands).map (fun after => after.1.flatMap print_report)

/-! ### What a report tells -/

/-- The same valid lines, with the same tags and frames. -/
def ShowSame (s s' : tlbs) : Prop :=
  view s.l1_itlb = view s'.l1_itlb ∧ view s.l1_dtlb = view s'.l1_dtlb ∧ view s.l2_tlb = view s'.l2_tlb

/-- Reports with the same text. -/
def Same (r r' : report) : Prop :=
  r.prog_line_index = r'.prog_line_index ∧ r.command.type = r'.command.type ∧
    number r.command.vaddr = number r'.command.vaddr ∧ r.paddr = r'.paddr ∧ r.hit = r'.hit ∧ ShowSame r.tlbs r'.tlbs

section
variable {α : Type}

/-- The text of a line in the order in which it can be read. -/
theorem print_entry_eq {type : tlb_t} (entry : tlb_entry_t type) : print_entry entry =
    print_decimal entry.v.toNat ++ (text "; " ++
      if entry.v ≠ 0#1 then print_hex 8 entry.tag.toNat ++ (text "; " ++ (print_hex 5 entry.phy_page_num.toNat ++ text ";\n"))
      else text "--------; -----;\n") := by
  have cut : text "; --------; -----;\n" = text "; " ++ text "--------; -----;\n" := rfl
  unfold print_entry
  by_cases invalid : entry.v = 0#1 <;> simp [invalid,cut]

theorem tells_entry {type : tlb_t} (entry : α → tlb_entry_t type) :
    Tells (fun _ _ => True) (fun a => print_entry (entry a))
      (fun a b => (entry a).v = (entry b).v ∧ ((entry a).v ≠ 0#1 →
        (entry a).tag = (entry b).tag ∧ (entry a).phy_page_num = (entry b).phy_page_num)) := by
  have semicolon : ∀ d < 16, hex_char d ≠ chr ';' := by decide
  have frame := hex_after semicolon (fun a => (entry a).phy_page_num) 5 (tells_text (text ";\n")) (fun _ => ⟨_,rfl⟩)
  have valid := hex_after semicolon (fun a => (entry a).tag) 8 (frame.after_text (text "; ")) (fun _ => ⟨_,rfl⟩)
  have behind := Tells.choice (fun a => (entry a).v ≠ 0#1)
    (fun a b (here : True ∧ (entry a).v.toNat = (entry b).v.toNat) =>
      (show (entry a).v ≠ 0#1 ↔ (entry b).v ≠ 0#1 by rw [BitVec.eq_of_toNat_eq here.2]))
    (valid.weaken (fun _ _ _ => trivial)) (tells_text (text "--------; -----;\n"))
  have whole := (behind.after_text (text "; ")).after_numeral (by decide) decimal_char_distinct
    (show ∀ d < 10, decimal_char d ≠ chr ';' by decide) (fun a => (entry a).v.toNat) 1 (fun _ => ⟨_,rfl⟩)
  simp only [print_entry_eq]
  refine whole.congr (fun a b _ => ?_)
  simp [BitVec.toNat_inj]

theorem view_eq_iff {type : tlb_t} (table table' : tlb type) : view table = view table' ↔
    ∀ i, (table i).v = (table' i).v ∧ ((table i).v ≠ 0#1 →
      (table i).tag = (table' i).tag ∧ (table i).phy_page_num = (table' i).phy_page_num) := by
  rw [funext_iff]
  refine forall_congr' (fun i => ?_)
  have one_bit : ∀ b : BitVec 1, b = 0#1 ∨ b = 1#1 := by decide
  rcases one_bit (table i).v with off | on <;> rcases one_bit (table' i).v with off' | on'
  all_goals simp_all [view,BitVec.toNat_inj]

theorem tells_table {type : tlb_t} (table : α → tlb type) :
    Tells (fun _ _ => True) (fun a => print_all_tlb_entries (table a)) (fun a b => view (table a) = view (table b)) := by
  have entries := tells_flatMap (List.finRange (lines type)) (fun i _ => tells_entry (fun a => table a i))
  refine (entries.after_text [chr '\n',chr '\n']).congr (fun a b _ => ?_)
  simp [view_eq_iff]

end

theorem access_value_inj (left right : mem_access_t) : access_value (if left = .DATA then .DATA else .INSTRUCTION) =
    access_value (if right = .DATA then .DATA else .INSTRUCTION) ↔ left = right := by
  cases left <;> cases right <;> simp [access_value]

/-- The reports of a trace can be told apart one by one. -/
theorem tells_report : Tells (fun _ _ => True) print_report Same := by
  have newline : ∀ d < 16, hex_char d ≠ chr '\n' := by decide
  have semicolon : ∀ d < 16, hex_char d ≠ chr ';' := by decide
  have second := ((tells_table (fun r : report => r.tlbs.l2_tlb)).beside (tells_text dashes)).after_text (text "\n\nL2_TLB:")
  have data := ((tells_table (fun r : report => r.tlbs.l1_dtlb)).beside second).after_text (text "\n\nL1_DTLB:")
  have instruction := ((tells_table (fun r : report => r.tlbs.l1_itlb)).beside data).after_text (text "\n\nL1_ITLB:")
  have apart : ∀ rest rest', text "HIT...\n\n" ++ rest ≠ text "MISS...\n\n" ++ rest' :=
    fun _ _ same => absurd (List.cons.inj same).1 (by decide)
  have flag := (tells_flag apart (fun r : report => r.hit = true)).beside instruction
  have physical := physical_after newline (fun r : report => r.paddr) (flag.after_text (text "\n\n")) (fun _ => ⟨_,rfl⟩)
  have virtual := virtual_after semicolon (fun r : report => r.command.vaddr) (physical.after_text (text "; PA  = "))
    (fun _ => ⟨_,rfl⟩)
  have again := decimal_after (show ∀ d < 10, decimal_char d ≠ chr '.' by decide) (fun r : report => r.prog_line_index)
    ((virtual.after_text (text "VA = ")).after_text (text "...\n\n")) (fun _ => ⟨_,rfl⟩)
  have kind := decimal_after (show ∀ d < 10, decimal_char d ≠ chr '\n' by decide)
    (fun r : report => access_value (if r.command.type = .DATA then .DATA else .INSTRUCTION))
    (((again.after_text (text "After program line ")).after_text dashes).after_text (text "\n")) (fun _ => ⟨_,rfl⟩)
  have index := decimal_after (show ∀ d < 10, decimal_char d ≠ chr ':' by decide) (fun r : report => r.prog_line_index)
    (kind.after_text (text ": DATA/INSTRUCTION = ")) (fun _ => ⟨_,rfl⟩)
  have whole := index.after_text (text "\n")
  unfold print_report
  simp only [List.append_assoc]
  refine whole.congr (fun r r' _ => ?_)
  simp only [Same,ShowSame,access_value_inj,Bool.coe_iff_coe]
  tauto

theorem print_report_ne_nil (r : report) : print_report r ≠ [] := by
  intro none
  unfold print_report at none
  simp only [List.append_assoc] at none
  exact absurd (List.append_eq_nil_iff.mp none).1 (by decide)

/-- Traces are the same text just when they report the same line by line. -/
theorem reports_told (left right : List report) :
    left.flatMap print_report = right.flatMap print_report ↔ List.Forall₂ Same left right :=
  tells_report.sequence print_report_ne_nil left right

/-! ### What the reports are settled by -/

/-- The last command for the L2 line of the page was for the page. -/
def LastInL2 (page_number : Nat) (commands : List command_t) : Prop :=
  Since (fun c => page c.vaddr = page_number)
    (fun c => page c.vaddr ≠ page_number ∧ page c.vaddr % 64 = page_number % 64) commands

/-- The page was accessed in this way, and since then no other page of its L2 line at all,
    and none of its L1 line in this way. -/
def LastInL1 (access : mem_access_t) (page_number : Nat) (commands : List command_t) : Prop :=
  Since (fun c => c.type = access ∧ page c.vaddr = page_number)
    (fun c => page c.vaddr ≠ page_number ∧
      (page c.vaddr % 64 = page_number % 64 ∨ c.type = access ∧ page c.vaddr % 16 = page_number % 16)) commands

/-- The tables as the commands so far have left them. -/
structure Settled (mem : mem_space) (commands : List command_t) (s : tlbs) : Prop where
  first_level : ∀ access page_number, (lookup (view (l1 access s)) page_number).isSome ↔
    LastInL1 access page_number commands
  second_level : ∀ page_number, (lookup (view s.l2_tlb) page_number).isSome ↔ LastInL2 page_number commands
  translated : Invariant mem s

/-- The report that the line after the commands so far has to get. -/
structure Correct (mem : mem_space) (before : List command_t) (command : command_t) (r : report) : Prop where
  prog_line_index : r.prog_line_index = before.length
  same_command : r.command = command
  paddr : page_walk mem command.vaddr ⟨0,0⟩ = some (.ERR_NONE,r.paddr)
  hit : r.hit = true ↔ LastInL2 (page command.vaddr) before
  tlbs : Settled mem (before ++ [command]) r.tlbs

theorem turn_some {mem : mem_space} {s next : state} {command : command_t} {r : report}
    (turned : turn mem s command = some (r,next)) :
    ∃ found, tlb_search mem command.vaddr s.paddr command.type s.tlbs = some found ∧
      r = ⟨s.prog_line_index,command,found.paddr,found.hit_or_miss,found.tlbs⟩ ∧
      next = ⟨s.prog_line_index + 1,found.paddr,found.tlbs⟩ := by
  have access : (if command.type = .DATA then .DATA else .INSTRUCTION) = command.type := by
    cases command.type <;> rfl
  unfold turn at turned
  simp only [access,Option.bind_eq_bind,Option.bind_eq_some_iff,Option.some.injEq,Prod.mk.injEq] at turned
  obtain ⟨found,searched,rfl,rfl⟩ := turned
  exact ⟨found,searched,rfl,rfl⟩

theorem flushed_settled (mem : mem_space) : Settled mem [] flushed := by
  refine ⟨?_,?_,flushed_invariant mem⟩
  · intro access page_number
    refine iff_of_false ?_ not_since_nil
    cases access <;> exact Bool.false_ne_true
  · intro page_number
    exact iff_of_false Bool.false_ne_true not_since_nil

/-- A command as a search in the memory. -/
def asked (mem : mem_space) (command : command_t) : mem_space × call := (mem,⟨command.vaddr,command.type,⟨0,0⟩⟩)

theorem last_asked (mem : mem_space) (n : Nat) (commands : List command_t) :
    Since (fun i => page i.2.vaddr = n) (fun i => page i.2.vaddr ≠ n ∧ page i.2.vaddr % 64 = n % 64)
      (commands.map (asked mem)) ↔ LastInL2 n commands := by
  rw [since_map]
  rfl

theorem settled_kept {mem : mem_space} {before : List command_t} {s : tlbs} (settled : Settled mem before s) :
    Kept (before.map (asked mem)) s := by
  refine ⟨?_,fun n => (settled.second_level n).trans (last_asked mem n before).symm⟩
  intro access n found
  obtain ⟨f,held⟩ := Option.isSome_iff_exists.mp found
  exact Option.isSome_of_eq_some (settled.translated.backed access n f held)

/-- What one search does to settled tables. -/
theorem move_settled {mem : mem_space} {before : List command_t} {command : command_t} {s : tlbs} {r : search_t}
    (settled : Settled mem before s) (move : Move mem command.vaddr command.type s r) :
    (r.hit_or_miss = true ↔ LastInL2 (page command.vaddr) before) ∧ Settled mem (before ++ [command]) r.tlbs := by
  have kept := settled_kept settled
  obtain ⟨restored,hits⟩ := search_kept (i := asked mem command) kept move
  refine ⟨hits.trans (settled.second_level _),?_,?_,move_invariant settled.translated move⟩
  · intro access n
    rw [LastInL1,since_concat,move_first_level move]
    change _ ↔ _ ∨ LastInL1 access n before ∧ _
    rw [← settled.first_level]
    by_cases held : (lookup (view (l1 access s)) n).isSome
    · have second := kept.inclusive access n held
      by_cases here : page command.vaddr = n
      · have hit : r.hit_or_miss = true := hits.mpr (here ▸ second)
        simp [held,here,hit]
      · -- L2 holds the page, so that a search for another page of its line misses.
        have misses : page command.vaddr % 64 = n % 64 → r.hit_or_miss = false := by
          intro together
          rw [← Bool.not_eq_true,hits]
          exact fun found => here (DirectMapped.lookup_unique found second together)
        simp only [held,here,and_false,false_or,true_and,ne_eq,not_false_eq_true]
        tauto
    · simp [held]
  · intro n
    have last := restored.last_of_line n
    rw [← List.map_singleton,← List.map_append] at last
    exact last.trans (last_asked mem n _)

theorem turn_correct {mem : mem_space} {before : List command_t} {s next : state} {command : command_t} {r : report}
    (settled : Settled mem before s.tlbs ∧ s.prog_line_index = before.length)
    (turned : turn mem s command = some (r,next)) :
    (Settled mem (before ++ [command]) next.tlbs ∧ next.prog_line_index = (before ++ [command]).length) ∧
      Correct mem before command r := by
  obtain ⟨found,searched,rfl,rfl⟩ := turn_some turned
  have move := tlb_search_move searched
  obtain ⟨hits,after⟩ := move_settled settled.1 move
  refine ⟨⟨after,by simp [settled.2]⟩,settled.2,rfl,?_,hits,after⟩
  exact (move_translates settled.1.translated move ⟨0,0⟩).2

/-- Commands whose page walks stay inside the memory. -/
def Inside (mem : mem_space) (commands : List command_t) : Prop := ∀ c ∈ commands, (frame mem c.vaddr).isSome

/-- The loop runs to its end, and every report is the one its line has to get. -/
theorem run_correct {mem : mem_space} {commands : List command_t} (inside : Inside mem commands) :
    ∃ reports s, run (turn mem) start commands = some (reports,s) ∧ reports.length = commands.length ∧
      ∀ (k : Nat) (c : command_t) (r : report), commands[k]? = some c → reports[k]? = some r →
        Correct mem (commands.take k) c r := by
  have total : ∀ (before : List command_t) (s : state) (c : command_t),
      (Settled mem before s.tlbs ∧ s.prog_line_index = before.length) → (frame mem c.vaddr).isSome →
      ∃ r next, turn mem s c = some (r,next) ∧
        (Settled mem (before ++ [c]) next.tlbs ∧ next.prog_line_index = (before ++ [c]).length) ∧ Correct mem before c r := by
    intro before s c settled walks
    obtain ⟨found,searched⟩ := tlb_search_total walks s.paddr (if c.type = .DATA then .DATA else .INSTRUCTION) s.tlbs
    have turned : turn mem s c = some (⟨s.prog_line_index,c,found.paddr,found.hit_or_miss,found.tlbs⟩,
        ⟨s.prog_line_index + 1,found.paddr,found.tlbs⟩) := by
      unfold turn
      simp only [searched,Option.bind_eq_bind,Option.bind_some]
    exact ⟨_,_,turned,turn_correct settled turned⟩
  obtain ⟨reports,s,ran,_,answers⟩ := Machine.run_answers total commands [] start ⟨flushed_settled mem,rfl⟩ inside
  obtain ⟨lengths,positions⟩ := Machine.answers_get answers
  exact ⟨reports,s,ran,lengths,positions⟩

/-- The trace of a program has one report for each line, with the address that the page walk
    finds, a hit just when the last line for the L2 line of the page was for the page, and
    tables that hold just the pages that the lines up to this one have left in them. -/
theorem trace_correct {mem : mem_space} {commands : List command_t} (inside : Inside mem commands) :
    ∃ reports : List report, trace mem commands = some (reports.flatMap print_report) ∧ reports.length = commands.length ∧
      ∀ (k : Nat) (c : command_t) (r : report), commands[k]? = some c → reports[k]? = some r →
        Correct mem (commands.take k) c r := by
  obtain ⟨reports,s,ran,correct⟩ := run_correct inside
  exact ⟨reports,by rw [trace,ran,Option.map_some],correct⟩

/-- A fetch and a load from page 0. -/
def zero_commands : List command_t :=
  [⟨.READ,.INSTRUCTION,4,0,zero_vaddr⟩,⟨.READ,.DATA,4,0,zero_vaddr⟩]

theorem zero_commands_inside : Inside zero_mem zero_commands := by
  intro c member
  simp only [zero_commands,List.mem_cons,List.not_mem_nil,or_false] at member
  rcases member with rfl | rfl
  · exact zero_page_walks
  · exact zero_page_walks

theorem trace_correct_zero : ∃ reports : List report,
    trace zero_mem zero_commands = some (reports.flatMap print_report) ∧ reports.length = zero_commands.length ∧
      ∀ (k : Nat) (c : command_t) (r : report), zero_commands[k]? = some c → reports[k]? = some r →
        Correct zero_mem (zero_commands.take k) c r :=
  trace_correct zero_commands_inside

/-! ### When two traces are the same -/

/-- The same kind of access to the same address, with the same translation. -/
def Alike (mem mem' : mem_space) (c c' : command_t) : Prop :=
  c.type = c'.type ∧ virt_addr_t_to_uint64_t c.vaddr = virt_addr_t_to_uint64_t c'.vaddr ∧
    frame mem c.vaddr = frame mem' c'.vaddr

/-- A search depends on the address, its translation and the tables, not on what `paddr` held. -/
theorem search_alike {mem mem' : mem_space} {vaddr vaddr' : virt_addr_t} (same : number vaddr = number vaddr')
    (translated : frame mem vaddr = frame mem' vaddr') (paddr paddr' : phy_addr_t) (access : mem_access_t) (s : tlbs) :
    tlb_search mem vaddr paddr access s = tlb_search mem' vaddr' paddr' access s := by
  have samePage : page vaddr = page vaddr' := by rw [page_of_number,page_of_number,same]
  have sameOffset := ((number_eq_iff vaddr vaddr').mp same).2.2.2.2
  rw [tlb_search_correct,tlb_search_correct,samePage,sameOffset,translated]

/-- Two loops at the same line with the same tables. -/
structure Level (mem mem' : mem_space) (s s' : state) : Prop where
  prog_line_index : s.prog_line_index = s'.prog_line_index
  tlbs : s.tlbs = s'.tlbs
  translated : Invariant mem s.tlbs
  translated' : Invariant mem' s'.tlbs

theorem turns_told {mem mem' : mem_space} {s s' next next' : state} {c c' : command_t} {r r' : report}
    (level : Level mem mem' s s') (turned : turn mem s c = some (r,next)) (turned' : turn mem' s' c' = some (r',next')) :
    (Same r r' ↔ Alike mem mem' c c') ∧ (Alike mem mem' c c' → Level mem mem' next next') := by
  obtain ⟨found,searched,rfl,rfl⟩ := turn_some turned
  obtain ⟨found',searched',rfl,rfl⟩ := turn_some turned'
  have move := tlb_search_move searched
  have move' := tlb_search_move searched'
  have address : virt_addr_t_to_uint64_t c.vaddr = virt_addr_t_to_uint64_t c'.vaddr ↔ number c.vaddr = number c'.vaddr := by
    rw [← BitVec.toNat_inj,virt_addr_t_to_uint64_t_correct,virt_addr_t_to_uint64_t_correct]
  have equal : Alike mem mem' c c' → found = found' := by
    rintro ⟨access,sameNumber,translated⟩
    rw [search_alike (address.mp sameNumber) translated s.paddr s'.paddr,access,level.tlbs,searched'] at searched
    exact (Option.some.inj searched).symm
  refine ⟨⟨?_,?_⟩,?_⟩
  · rintro ⟨_,access,sameNumber,paddr,_⟩
    refine ⟨access,address.mpr sameNumber,?_⟩
    have walked := (move_translates level.translated move ⟨0,0⟩).2
    have walked' := (move_translates level.translated' move' ⟨0,0⟩).2
    rw [page_walk_correct,Option.map_eq_some_iff] at walked walked'
    obtain ⟨f,framed,here⟩ := walked
    obtain ⟨f',framed',here'⟩ := walked'
    have same : f = f' := by
      have whole := paddr
      simp only [← (Prod.mk.inj here).2,← (Prod.mk.inj here').2] at whole
      exact (phy_addr_t.mk.inj whole).1
    rw [framed,framed',same]
  · intro alike
    obtain rfl := equal alike
    exact ⟨level.prog_line_index,alike.1,address.mp alike.2.1,rfl,rfl,rfl,rfl,rfl⟩
  · intro alike
    obtain rfl := equal alike
    exact ⟨by rw [level.prog_line_index],rfl,move_invariant level.translated move,move_invariant level.translated' move'⟩

/-- Two traces are the same text just when the programs make the same accesses to the same
    addresses, line by line, and the memories translate these in the same way. -/
theorem traces_equal_iff {mem mem' : mem_space} {commands commands' : List command_t} (inside : Inside mem commands)
    (inside' : Inside mem' commands') : ∃ output output', trace mem commands = some output ∧
      trace mem' commands' = some output' ∧ (output = output' ↔ List.Forall₂ (Alike mem mem') commands commands') := by
  obtain ⟨reports,s,ran,_⟩ := run_correct inside
  obtain ⟨reports',s',ran',_⟩ := run_correct inside'
  refine ⟨_,_,by rw [trace,ran]; rfl,by rw [trace,ran']; rfl,?_⟩
  rw [reports_told]
  have told : ∀ (s s' : state) (c c' : command_t) (r r' : report) (next next' : state), Level mem mem' s s' →
      turn mem s c = some (r,next) → turn mem' s' c' = some (r',next') →
        (Same r r' ↔ Alike mem mem' c c') ∧ (Alike mem mem' c c' → Level mem mem' next next') :=
    fun _ _ _ _ _ _ _ _ level turned turned' => turns_told level turned turned'
  exact Machine.run_tells told commands commands' start s start s' reports reports'
    ⟨rfl,rfl,flushed_invariant mem,flushed_invariant mem'⟩ ran ran'

theorem traces_equal_iff_zero : ∃ output output', trace zero_mem zero_commands = some output ∧
    trace zero_mem zero_commands.reverse = some output' ∧
      (output = output' ↔ List.Forall₂ (Alike zero_mem zero_mem) zero_commands zero_commands.reverse) :=
  traces_equal_iff zero_commands_inside
    (fun c member => zero_commands_inside c (List.mem_reverse.mp member))

end CacheEmulator.TlbHrchyTrace
