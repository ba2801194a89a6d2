import CacheEmulator.LoaderTranslation
import CacheEmulator.LoaderCleanup
import CacheEmulator.PageLines

/-!
The program `test-memory.c`: it loads a memory and prints the pages of a list of
addresses. What goes to the standard error is left out.
-/
namespace CacheEmulator.MemoryTrace
open CacheEmulator.Error CacheEmulator.Memory CacheEmulator.Addr CacheEmulator.PageWalk
open CacheEmulator.Stdio CacheEmulator.Scanf CacheEmulator.PageDump CacheEmulator.PageLines
open CacheEmulator.Loader (PAGE_SIZE stop listed_page load_page)
open CacheEmulator.Image CacheEmulator.Description CacheEmulator.LoaderTranslation
open CacheEmulator.LoaderBounds ( Loaded Agrees vaddr_of listed block_of mem_init_listed frame_of entries frame_agrees)
open CacheEmulator.LoaderCleanup ( Unfailing machine outcome plain mem_init_plain mem_init_from_dumpfile
  mem_init_from_description)
open CacheEmulator.Printing (Tells tells_text tells_flatMap)

/-- The format that the first letter stands for. -/
def format (letters : List byte) : addr_fmt_t :=
  match letters with
  | [] => .NONE
  | c :: _ => if c = chr 'p' then .POINTER else if c = chr 'o' then .OFFSET else if c = chr 'u' then .OFFSET_U else .NONE

/-- The call of `sscanf`. -/
def vaddr64 (argument : List byte) : Option (BitVec 64) := (fscanf_unsigned 16 (fopen argument)).map Prod.fst

section
variable (reference : Nat) (t_fmt : addr_fmt_t) (sep : List byte)

/-- The call of `vmem_page_dump_with_options`, whose answer nothing looks at.
    Without a memory `page_walk` refuses, and nothing is printed. -/
def dump (memory : Option mem_space) (vaddr : virt_addr_t) : Option (List byte) :=
  match memory with
  | none => some []
  | some mem =>
    (vmem_page_dump_with_options mem t_fmt 16 sep vaddr).map (fun dumped => dumped.2.flatMap (printed_text reference))

/-- The loop over the addresses: what `main` returns behind it, and what is printed. -/
def loop (memory : Option mem_space) : List (List byte) → virt_addr_t → Option (Nat × List byte)
  | [], _ => some (0,[])
  | argument :: arguments, vaddr =>
    match vaddr64 argument with
    | none => (loop memory arguments vaddr).map (fun rest => (rest.1,text "pas compris ! ==> Abandon\n" ++ rest.2))
    | some number =>
      let initialised := init_virt_addr64 vaddr number
      if initialised.1 ≠ .ERR_NONE then some (2,text "Mauvaise adresse ==> Abandon\n") else do
        let page ← dump reference t_fmt sep memory initialised.2
        let rest ← loop memory arguments initialised.2
        some (rest.1,page ++ rest.2)

end

/-- The memory is asked for by one of two commands. -/
def load (sys : machine) (command filename : List byte) : outcome :=
  if command = text "dump" then mem_init_from_dumpfile sys none filename
  else mem_init_from_description sys none filename

/-- What `main` returns and prints. It stores behind the end of an empty spacer. -/
def main (sys : machine) (reference : Nat) (command filename letters spacer : List byte) (arguments : List (List byte)) :
    Option (Nat × List byte) :=
  if arguments = [] then some (1,[])
  else if command ≠ text "dump" ∧ command ≠ text "desc" then some (1,[])
  else
    let loaded := load sys command filename
    match loaded.stopped with
    | some (.returned _) => if spacer = [] then none else some (3,[])
    | some _ => none
    | none =>
      if spacer = [] then none
      else loop reference (format letters) (spacer.take 1) loaded.contents arguments ⟨0,0,0,0,0,0⟩

/-! ### What is printed -/

/-- The page that an address is in. -/
def page_of (reference : Nat) (mem : mem_space) (vaddr : virt_addr_t) : page_t :=
  let start := ((frame mem vaddr).getD 0).toNat * PAGE_SIZE
  { reference := reference
    start := start
    byte := fun k => (byte_at mem (start + k)).getD 0 }

/-- What is printed for an argument, with a page for each address. -/
def argument_text (t_fmt : addr_fmt_t) (sep : List byte) (pages : virt_addr_t → page_t) (argument : List byte) : List byte :=
  match vaddr64 argument with
  | none => text "pas compris ! ==> Abandon\n"
  | some number => page_text t_fmt 16 sep (vaddr_of number).page_offset.toNat (pages (vaddr_of number))

/-- The walks for the addresses, and the pages they lead to, are inside the memory. -/
def PagesInside (mem : mem_space) (arguments : List (List byte)) : Prop :=
  ∀ argument ∈ arguments, ∀ number ∈ vaddr64 argument, PageInside mem (vaddr_of number)

/-- The last line of a page is whole. -/
theorem line_fits (vaddr : virt_addr_t) : LineFits 16 vaddr.page_offset.toNat := by
  have small := vaddr.page_offset.isLt
  simp only [LineFits,PAGE_SIZE]
  omega

theorem init_again (vaddr : virt_addr_t) (number : BitVec 64) :
    init_virt_addr64 vaddr number = (.ERR_NONE,vaddr_of number) := by
  obtain ⟨after,executed,reserved,same⟩ := init_virt_addr64_correct vaddr number
  obtain ⟨after',executed',reserved',same'⟩ := init_virt_addr64_correct ⟨0,0,0,0,0,0⟩ number
  rw [executed,vaddr_of,executed',eq_of_number (reserved.trans reserved'.symm) (same.trans same'.symm)]

section
variable (reference : Nat) (t_fmt : addr_fmt_t) (sep : List byte) {mem : mem_space}

theorem page_of_holds {vaddr : virt_addr_t} (inside : PageInside mem vaddr) : Holds mem (page_of reference mem vaddr) := by
  obtain ⟨f,walked,within⟩ := inside
  intro k onPage
  have here : f.toNat * PAGE_SIZE + k < mem.capacity := by omega
  simp [page_of,walked,byte_at,here]

theorem dump_text {vaddr : virt_addr_t} (inside : PageInside mem vaddr) :
    dump reference t_fmt sep (some mem) vaddr =
      some (page_text t_fmt 16 sep vaddr.page_offset.toNat (page_of reference mem vaddr)) := by
  have holds := page_of_holds reference inside
  obtain ⟨f,walked,_⟩ := inside
  have here : (page_of reference mem vaddr).start = f.toNat * PAGE_SIZE := by simp [page_of,walked]
  rw [dump,page_dump_lines (by decide) walked here holds (line_fits vaddr)]
  rfl

/-- Within memory the loop prints the page of every address that is understood. -/
theorem loop_text {arguments : List (List byte)} (inside : PagesInside mem arguments) (vaddr : virt_addr_t) :
    loop reference t_fmt sep (some mem) arguments vaddr =
      some (0,arguments.flatMap (argument_text t_fmt sep (page_of reference mem))) := by
  induction arguments generalizing vaddr with
  | nil => rfl
  | cons argument arguments ih =>
    have others : PagesInside mem arguments := fun other member => inside other (List.mem_cons_of_mem argument member)
    rw [loop,List.flatMap_cons,argument_text]
    cases understood : vaddr64 argument with
    | none =>
      simp only
      rw [ih others,Option.map_some]
    | some number =>
      have here := inside argument List.mem_cons_self number understood
      simp only [init_again,ne_eq,not_true_eq_false,↓reduceIte,dump_text reference t_fmt sep here,ih others]
      rfl

/-- Only pointers tell where the memory lies. -/
theorem dump_reference {reference reference' : Nat} {t_fmt : addr_fmt_t} (placed : t_fmt = .POINTER → reference = reference')
    (sep : List byte) (memory : Option mem_space) (vaddr : virt_addr_t) :
    dump reference t_fmt sep memory vaddr = dump reference' t_fmt sep memory vaddr := by
  cases memory with
  | none => rfl
  | some mem =>
    rw [dump,dump]
    cases dumped : vmem_page_dump_with_options mem t_fmt 16 sep vaddr with
    | none => rfl
    | some page => rw [Option.map_some,Option.map_some,same_text placed (page_dump_inFormat dumped)]

theorem loop_reference {reference reference' : Nat} {t_fmt : addr_fmt_t} (placed : t_fmt = .POINTER → reference = reference')
    (sep : List byte) (memory : Option mem_space) (arguments : List (List byte)) (vaddr : virt_addr_t) :
    loop reference t_fmt sep memory arguments vaddr = loop reference' t_fmt sep memory arguments vaddr := by
  induction arguments generalizing vaddr with
  | nil => rfl
  | cons argument arguments ih => simp only [loop,dump_reference placed,ih]

/-- What is printed for an argument tells its page. -/
theorem tells_argument (argument : List byte) :
    Tells (fun _ _ => True) (fun pages => argument_text t_fmt sep pages argument)
      (fun pages pages' => ∀ number ∈ vaddr64 argument, SamePage t_fmt (pages (vaddr_of number)) (pages' (vaddr_of number))) := by
  unfold argument_text
  cases vaddr64 argument with
  | none => simpa using tells_text (text "pas compris ! ==> Abandon\n")
  | some number =>
    have told := (tells_page t_fmt 16 sep (by decide) (line_fits (vaddr_of number))).part
      (fun pages : virt_addr_t → page_t => pages (vaddr_of number))
    simpa using told

end

/-! ### The memories that are loaded -/

/-- A command loads a memory. -/
structure Loads (sys : machine) (command filename : List byte) (mem : mem_space) : Prop where
  known : command = text "dump" ∨ command = text "desc"
  stopped : (load sys command filename).stopped = none
  contents : (load sys command filename).contents = some mem

theorem main_loop {sys : machine} {command filename spacer : List byte} {mem : mem_space}
    (loads : Loads sys command filename mem) (some_spacer : spacer ≠ []) (reference : Nat) (letters : List byte)
    {arguments : List (List byte)} (some_argument : arguments ≠ []) :
    main sys reference command filename letters spacer arguments =
      loop reference (format letters) (spacer.take 1) (some mem) arguments ⟨0,0,0,0,0,0⟩ := by
  have known : ¬ (command ≠ text "dump" ∧ command ≠ text "desc") := fun neither => loads.known.elim neither.1 neither.2
  rw [main,if_neg some_argument,if_neg known]
  simp only [loads.stopped,loads.contents,if_neg some_spacer]

/-- A memory that was written to a file is loaded from it. -/
theorem saved_loads {sys : machine} {filename : List byte} {mem : mem_space} (small : mem.capacity < 2 ^ 64)
    (saved : sys.files filename = some (List.ofFn mem.byte)) (read : mem.capacity ≤ sys.reads 0)
    (met : sys.allocates .memory mem.capacity = true) : Loads sys (text "dump") filename mem := by
  have capacity : (BitVec.ofNat 64 mem.capacity).toNat = mem.capacity := by
    rw [BitVec.toNat_ofNat,Nat.mod_eq_of_lt small]
  have came : ((List.ofFn mem.byte).take mem.capacity).take (sys.reads 0) = List.ofFn mem.byte := by
    rw [List.take_take,List.take_of_length_le]
    simpa using read
  have block : LoaderCleanup.calloc sys .memory mem.capacity = some .memory := if_pos met
  refine ⟨.inl rfl,?_,?_⟩
  · simp [load,mem_init_from_dumpfile,saved,capacity,came,block]
  · have whole : Loader.store_bytes (zeros mem.capacity) 0 (List.ofFn mem.byte) = some mem := by
      rw [Loader.store_bytes,if_pos (by simp [zeros])]
      congr 1
      simp [zeros]
    simp [load,mem_init_from_dumpfile,saved,capacity,came,block,LoaderCleanup.cleared,whole]

/-- What a load of pages leaves: each page over those before it. -/
theorem load_all_contents {sys : Loader.system} {block : Option Nat} {ending : Option stop} (pages : List listed_page)
    {memory final : Option mem_space} {image : Contents} (loaded : Loaded memory block image)
    (ran : load_all (load_page sys) ending pages memory = (final,none)) :
    Loaded final block (pages.foldl (stored sys) image) := by
  induction pages generalizing memory image with
  | nil =>
    cases ran
    exact loaded
  | cons p pages ih =>
    obtain ⟨_,_,_,_,after,later,rest⟩ := load_all_step loaded ran
    exact ih later rest

section
variable {sys : machine} {master_filename : List byte} {mem : mem_space}

/-- The load of a description, where nothing fails. -/
theorem desc_load (unfailing : Unfailing sys) (loads : Loads sys (text "desc") master_filename mem) :
    ∃ mem_capacity_in_bytes pages memory ending, listed (plain sys) master_filename = some (mem_capacity_in_bytes,pages) ∧
      Ordered pages ∧ Loaded memory (block_of (plain sys) mem_capacity_in_bytes) (fun _ => 0) ∧
      load_all (load_page (plain sys)) ending pages memory = (some mem,none) := by
  have other : text "desc" ≠ text "dump" := by decide
  have stopped := loads.stopped
  have contents := loads.contents
  have same := mem_init_plain unfailing none master_filename
  rw [load,if_neg other] at stopped contents
  rw [stopped,contents] at same
  have executed := mem_init_listed (plain sys) master_filename
  cases names : listed (plain sys) master_filename with
  | none =>
    rw [names] at executed
    rw [executed] at same
    cases same
  | some description =>
    obtain ⟨mem_capacity_in_bytes,pages⟩ := description
    rw [names] at executed
    obtain ⟨ordered,memory,ending,_,loaded,executed⟩ := executed
    rw [executed] at same
    obtain ⟨final,_,none_left⟩ := Prod.mk.inj same |>.imp_right Prod.mk.inj
    exact ⟨mem_capacity_in_bytes,pages,memory,ending,rfl,ordered,loaded,Prod.ext final.symm none_left.symm⟩

/-- The memory of a description has the size and the pages that are listed. -/
theorem desc_contents (unfailing : Unfailing sys) (loads : Loads sys (text "desc") master_filename mem) :
    ∃ mem_capacity_in_bytes pages, listed (plain sys) master_filename = some (mem_capacity_in_bytes,pages) ∧
      sys.allocates .memory mem.capacity = true ∧ mem.capacity = mem_capacity_in_bytes.toNat ∧
      Agrees mem (pages.foldl (stored (plain sys)) (fun _ => 0)) := by
  obtain ⟨mem_capacity_in_bytes,pages,memory,ending,names,_,loaded,ran⟩ := desc_load unfailing loads
  have ended := load_all_contents pages loaded ran
  unfold block_of at ended
  split_ifs at ended with met
  · generalize block : some mem_capacity_in_bytes.toNat = b at ended
    cases ended with
    | block agrees =>
      have capacity := Option.some.inj block
      refine ⟨mem_capacity_in_bytes,pages,names,?_,capacity.symm,agrees⟩
      rw [← capacity]
      exact met
  · cases ended

/-- A memory that a description loads is also loaded from a file with its bytes. -/
theorem desc_saved (unfailing : Unfailing sys) (loads : Loads sys (text "desc") master_filename mem)
    {filename : List byte} (saved : sys.files filename = some (List.ofFn mem.byte)) : Loads sys (text "dump") filename mem := by
  obtain ⟨mem_capacity_in_bytes,_,_,met,capacity,_⟩ := desc_contents unfailing loads
  have small : mem.capacity < 2 ^ 64 := by
    rw [capacity]
    exact mem_capacity_in_bytes.isLt
  have read := unfailing.read 0 filename _ saved
  rw [List.length_ofFn] at read
  exact saved_loads small saved read met

/-- A memory that a description loads, written to a file, is shown from there as
    it is shown from the description, wherever the two lie unless pointers are shown. -/
theorem saved_memory_shown (unfailing : Unfailing sys) (loads : Loads sys (text "desc") master_filename mem)
    {filename : List byte} (saved : sys.files filename = some (List.ofFn mem.byte)) (reference reference' : Nat)
    {letters : List byte} (placed : format letters = .POINTER → reference = reference') (spacer : List byte)
    (arguments : List (List byte)) :
    main sys reference (text "dump") filename letters spacer arguments =
      main sys reference' (text "desc") master_filename letters spacer arguments := by
  have again := desc_saved unfailing loads saved
  by_cases some_argument : arguments = []
  · rw [main,main,if_pos some_argument,if_pos some_argument]
  · by_cases some_spacer : spacer = []
    · subst some_spacer
      simp [main,some_argument,again.stopped,loads.stopped]
    · rw [main_loop again some_spacer reference letters some_argument,
        main_loop loads some_spacer reference' letters some_argument,loop_reference placed]

/-- A page of memory whose first table entry leads back to it. -/
def one_page : mem_space := ⟨4096,fun a => [0,0,0,0,7,8,9].getD a.val 0⟩

/-- A description of the page by its first bytes, and a file with all of them. -/
def one_page_machine : machine where
  files name :=
    if name = [] then some (text "4096\nP\n0\n")
    else if name = text "P" then some [0,0,0,0,7,8,9]
    else if name = text "D" then some (List.ofFn one_page.byte)
    else none
  allocates _ _ := true
  reads _ := 4096
  text_fails := false

theorem one_page_unfailing : Unfailing one_page_machine where
  read k name bytes opened := by
    simp only [one_page_machine] at opened ⊢
    split_ifs at opened
    all_goals rw [← Option.some.inj opened]
    · decide
    · decide
    · exact List.length_ofFn.le
  named := rfl
  text := rfl

theorem one_page_loads : Loads one_page_machine (text "desc") [] one_page := by
  refine ⟨.inr rfl,by decide +kernel,?_⟩
  have stored : (load one_page_machine (text "desc") []).contents =
      Loader.store_bytes (zeros 4096) 0 [0,0,0,0,7,8,9] := rfl
  rw [stored,Loader.store_bytes,if_pos (by decide)]
  refine congrArg some (congrArg (mem_space.mk 4096) (funext fun a => ?_))
  by_cases inFile : a.val < 7
  · exact if_pos ⟨Nat.zero_le _,inFile⟩
  · refine (if_neg (fun both => inFile (by simpa using both.2))).trans (Eq.symm ?_)
    exact List.getD_eq_default _ _ (by simpa using inFile)

theorem one_page_inside : PagesInside one_page [text "4",text "x"] := by
  intro argument member number understood
  rcases List.mem_pair.mp member with rfl | rfl
  · have four : vaddr64 (text "4") = some 4 := rfl
    rw [four] at understood
    cases understood
    exact ⟨0,by decide +kernel,by decide⟩
  · have unread : vaddr64 (text "x") = none := rfl
    rw [unread] at understood
    cases understood

theorem saved_memory_shown_one_page : ∃ shown,
    main one_page_machine 16 (text "dump") (text "D") (text "o") (text ",") [text "4",text "x"] = some (0,shown) ∧
      main one_page_machine 32 (text "desc") [] (text "o") (text ",") [text "4",text "x"] = some (0,shown) := by
  have saved : one_page_machine.files (text "D") = some (List.ofFn one_page.byte) := rfl
  have placed : format (text "o") = .POINTER → 16 = 32 := by decide
  have same := saved_memory_shown one_page_unfailing one_page_loads saved 16 32 placed (text ",") [text "4",text "x"]
  have shown := main_loop one_page_loads (show text "," ≠ [] by decide) 32 (text "o")
    (show [text "4",text "x"] ≠ [] by decide)
  rw [loop_text _ _ _ one_page_inside] at shown
  exact ⟨_,same.trans shown,shown⟩

/-! ### The page files of a description -/

/-- The frame of a data page that is found, and its bytes. -/
theorem found_page {sys : Loader.system} {block : Option Nat} {image : Contents} {v : BitVec 64} {name : List byte}
    (loaded : Loaded (some mem) block image) (aligned : v.toNat % PAGE_SIZE = 0) (found : Found sys block image v name) :
    ∃ f bytes, sys.files name = some bytes ∧ bytes.length = PAGE_SIZE ∧ f.toNat * PAGE_SIZE + PAGE_SIZE ≤ mem.capacity ∧
      (∀ o < PAGE_SIZE, frame mem (vaddr_of (v + BitVec.ofNat 64 o)) = some f ∧
        (vaddr_of (v + BitVec.ofNat 64 o)).page_offset.toNat = o) ∧
      ∀ k < PAGE_SIZE, byte_at mem (f.toNat * PAGE_SIZE + k) = some (bytes.getD k 0) := by
  obtain ⟨capacity,bytes,allocated,opened,size,within,fits,contents⟩ := found
  cases loaded with
  | block agrees =>
    cases allocated
    refine ⟨frame_of image (vaddr_of v),bytes,opened,size,fits,?_,?_⟩
    · intro o onPage
      obtain ⟨samePage,offset⟩ := vaddr_of_add aligned onPage
      refine ⟨?_,offset⟩
      rw [frame_of_page mem samePage,frame_agrees agrees,if_pos within]
    · intro k onPage
      have here : (frame_of image (vaddr_of v)).toNat * PAGE_SIZE + k < mem.capacity := by omega
      have inFile : k < bytes.length := by omega
      rw [byte_at,dif_pos here,agrees]
      simp only [contents k inFile]
      simp [inFile]

/-- The page is shown as its file. -/
theorem page_of_file (reference : Nat) (t_fmt : addr_fmt_t) (sep : List byte) {vaddr : virt_addr_t} {f : BitVec 20}
    {bytes : List byte} (walked : frame mem vaddr = some f)
    (contents : ∀ k < PAGE_SIZE, byte_at mem (f.toNat * PAGE_SIZE + k) = some (bytes.getD k 0)) :
    page_text t_fmt 16 sep vaddr.page_offset.toNat (page_of reference mem vaddr) =
      page_text t_fmt 16 sep vaddr.page_offset.toNat ⟨reference,f.toNat * PAGE_SIZE,fun k => bytes.getD k 0⟩ := by
  have told := tells_page t_fmt 16 sep (by decide) (line_fits vaddr)
  refine (told.text_eq _ _).mpr ⟨?_,?_⟩
  · cases t_fmt <;> simp [SamePlace,page_of,walked]
  · intro k onPage
    simp [page_of,walked,contents k onPage]

/-- What is shown for an argument is the file of the data page that it is in. -/
def ShowsFile (sys : machine) (mem : mem_space) (pages : List listed_page) (reference : Nat) (t_fmt : addr_fmt_t)
    (sep argument shown : List byte) : Prop :=
  match vaddr64 argument with
  | none => shown = text "pas compris ! ==> Abandon\n"
  | some number => ∀ v name, .virtual v name ∈ pages → ∀ o < PAGE_SIZE, number = v + BitVec.ofNat 64 o →
      ∃ bytes f, sys.files name = some bytes ∧ bytes.length = PAGE_SIZE ∧ frame mem (vaddr_of number) = some f ∧
        shown = page_text t_fmt 16 sep o ⟨reference,f.toNat * PAGE_SIZE,fun k => bytes.getD k 0⟩

/-- The addresses are in data pages. -/
def InPages (pages : List listed_page) (arguments : List (List byte)) : Prop :=
  ∀ argument ∈ arguments, ∀ number ∈ vaddr64 argument,
    ∃ v name, .virtual v name ∈ pages ∧ ∃ o < PAGE_SIZE, number = v + BitVec.ofNat 64 o

/-- The data pages of a description that is loaded are found. -/
theorem desc_found (unfailing : Unfailing sys) (loads : Loads sys (text "desc") master_filename mem)
    {mem_capacity_in_bytes : BitVec 64} {pages : List listed_page}
    (names : listed (plain sys) master_filename = some (mem_capacity_in_bytes,pages)) (paged : Paged (plain sys) pages)
    (separate : Separate (walks (plain sys) pages (fun _ => 0))) :
    ∃ block last, Loaded (some mem) block last ∧ ∀ v name, .virtual v name ∈ pages → Found (plain sys) block last v name := by
  obtain ⟨_,_,memory,ending,names',⟨tables,data,rfl⟩,loaded,ran⟩ := desc_load unfailing loads
  rw [names] at names'
  cases names'
  obtain ⟨last,ended,found⟩ := pages_found tables data loaded ran paged separate
  refine ⟨_,last,ended,?_⟩
  intro v name member
  rcases List.mem_append.mp member with table | listed
  · obtain ⟨t,_,physical⟩ := List.mem_map.mp table
    cases physical
  · obtain ⟨d,inData,virtual⟩ := List.mem_map.mp listed
    cases virtual
    exact found d inData

/-- Addresses in the data pages of a description are inside its memory. -/
theorem inPages_inside (unfailing : Unfailing sys) (loads : Loads sys (text "desc") master_filename mem)
    {mem_capacity_in_bytes : BitVec 64} {pages : List listed_page}
    (names : listed (plain sys) master_filename = some (mem_capacity_in_bytes,pages)) (paged : Paged (plain sys) pages)
    (separate : Separate (walks (plain sys) pages (fun _ => 0))) {arguments : List (List byte)}
    (inPages : InPages pages arguments) : PagesInside mem arguments := by
  obtain ⟨block,last,loaded,found⟩ := desc_found unfailing loads names paged separate
  intro argument member number understood
  obtain ⟨v,name,listed,o,onPage,rfl⟩ := inPages argument member number understood
  obtain ⟨f,_,_,_,fits,walked,_⟩ := found_page loaded (paged.aligned v name listed) (found v name listed)
  exact ⟨f,(walked o onPage).1,fits⟩

/-- With a description whose pages keep to frames of their own, the program shows
    the page files: for every address in a data page the bytes of the file of that page. -/
theorem page_files_shown (unfailing : Unfailing sys) (loads : Loads sys (text "desc") master_filename mem)
    {mem_capacity_in_bytes : BitVec 64} {pages : List listed_page}
    (names : listed (plain sys) master_filename = some (mem_capacity_in_bytes,pages)) (paged : Paged (plain sys) pages)
    (separate : Separate (walks (plain sys) pages (fun _ => 0))) (reference : Nat) (letters : List byte) {spacer : List byte}
    (some_spacer : spacer ≠ []) {arguments : List (List byte)} (some_argument : arguments ≠ [])
    (inside : PagesInside mem arguments) :
    ∃ texts, main sys reference (text "desc") master_filename letters spacer arguments = some (0,texts.flatten) ∧
      List.Forall₂ (ShowsFile sys mem pages reference (format letters) (spacer.take 1)) arguments texts := by
  obtain ⟨block,last,loaded,found⟩ := desc_found unfailing loads names paged separate
  refine ⟨arguments.map (argument_text (format letters) (spacer.take 1) (page_of reference mem)),?_,?_⟩
  · rw [main_loop loads some_spacer reference letters some_argument,loop_text _ _ _ inside,List.flatMap_def]
  · rw [List.forall₂_map_right_iff,List.forall₂_same]
    intro argument _
    unfold ShowsFile argument_text
    cases vaddr64 argument with
    | none => rfl
    | some number =>
      rintro v name listed o onPage rfl
      obtain ⟨f,bytes,opened,size,_,walked,contents⟩ := found_page loaded (paged.aligned v name listed) (found v name listed)
      obtain ⟨here,offset⟩ := walked o onPage
      refine ⟨bytes,f,opened,size,here,?_⟩
      have shown := page_of_file reference (format letters) (spacer.take 1) here contents
      rw [offset] at shown
      simpa only [offset] using shown

/-- The machine of `two_data_pages_files`. -/
def two_data_pages_machine : machine where
  files := two_data_pages_files.files
  allocates _ _ := true
  reads _ := 4096
  text_fails := false

theorem two_data_pages_unfailing : Unfailing two_data_pages_machine where
  read k name bytes opened := by
    by_cases named : name = []
    · subst named
      have same : bytes = two_data_pages := (Option.some.inj opened).symm
      have short : two_data_pages.length ≤ 4096 := by decide
      rw [same]
      exact short
    · exact (two_data_pages_sizes named opened).le
  named := rfl
  text := rfl

/-- An address in each data page, and a word that is no number. -/
def three_arguments : List (List byte) := [text "200004",text "x",text "201008"]

theorem three_arguments_inPages : InPages two_data_pages_listed three_arguments := by
  have first : vaddr64 (text "200004") = some 0x200004 := rfl
  have unread : vaddr64 (text "x") = none := rfl
  have second : vaddr64 (text "201008") = some 0x201008 := rfl
  simp only [InPages,three_arguments,List.forall_mem_cons,first,unread,second]
  refine ⟨?_,?_,?_,?_⟩
  · rintro number ⟨⟩
    exact ⟨0x200000,[chr 'D'],by simp [two_data_pages_listed],4,by decide,rfl⟩
  · rintro number ⟨⟩
  · rintro number ⟨⟩
    exact ⟨0x201000,[chr 'E'],by simp [two_data_pages_listed],8,by decide,rfl⟩
  · exact fun argument member => absurd member List.not_mem_nil

theorem page_files_shown_two : ∃ mem texts,
    main two_data_pages_machine 16 (text "desc") [] (text "o") (text " ") three_arguments = some (0,texts.flatten) ∧
      List.Forall₂ (ShowsFile two_data_pages_machine mem two_data_pages_listed 16 (format (text "o")) [chr ' '])
        three_arguments texts := by
  have loaded : (load two_data_pages_machine (text "desc") []).contents.isSome := by decide +kernel
  obtain ⟨mem,contents⟩ := Option.isSome_iff_exists.mp loaded
  have loads : Loads two_data_pages_machine (text "desc") [] mem := ⟨.inr rfl,by decide +kernel,contents⟩
  have same : plain two_data_pages_machine = two_data_pages_files := rfl
  have names := two_data_pages_names
  have paged := two_data_pages_paged
  have separate := two_data_pages_separate
  rw [← same] at names paged separate
  have inside := inPages_inside two_data_pages_unfailing loads names paged separate three_arguments_inPages
  obtain ⟨texts,shown⟩ := page_files_shown two_data_pages_unfailing loads names paged separate 16 (text "o")
    (show text " " ≠ [] by decide) (by decide) inside
  exact ⟨mem,texts,shown⟩

/-! ### Two runs -/

/-- Two runs print the same for a list of addresses just when the pages of the
    addresses are the same, where the addresses are shown also in their place. -/
theorem memory_traces_equal_iff {sys' : machine} {command command' filename filename' : List byte} {mem' : mem_space}
    (loads : Loads sys command filename mem) (loads' : Loads sys' command' filename' mem') (reference reference' : Nat)
    (letters : List byte) {spacer : List byte} (some_spacer : spacer ≠ []) {arguments : List (List byte)}
    (some_argument : arguments ≠ []) (inside : PagesInside mem arguments) (inside' : PagesInside mem' arguments) :
    ∃ output output', main sys reference command filename letters spacer arguments = some (0,output) ∧
      main sys' reference' command' filename' letters spacer arguments = some (0,output') ∧
      (output = output' ↔ ∀ argument ∈ arguments, ∀ number ∈ vaddr64 argument,
        SamePage (format letters) (page_of reference mem (vaddr_of number)) (page_of reference' mem' (vaddr_of number))) := by
  refine ⟨arguments.flatMap (argument_text (format letters) (spacer.take 1) (page_of reference mem)),
    arguments.flatMap (argument_text (format letters) (spacer.take 1) (page_of reference' mem')),?_,?_,?_⟩
  · rw [main_loop loads some_spacer reference letters some_argument,loop_text _ _ _ inside]
  · rw [main_loop loads' some_spacer reference' letters some_argument,loop_text _ _ _ inside']
  · have told := tells_flatMap arguments (fun argument _ => tells_argument (format letters) (spacer.take 1) argument)
    exact told.text_eq _ _

/-- One page of zeros, loaded from a file with its bytes. -/
def zeros_file : machine where
  files _ := some (List.ofFn (zeros 4096).byte)
  allocates _ _ := true
  reads _ := 4096
  text_fails := false

theorem zeros_loads : Loads zeros_file (text "dump") [] (zeros 4096) := saved_loads (by decide) rfl le_rfl rfl

theorem zero_inside : PagesInside (zeros 4096) [text "0"] := by
  intro argument member number understood
  obtain rfl := List.mem_singleton.mp member
  have zero : vaddr64 (text "0") = some 0 := rfl
  rw [zero] at understood
  cases understood
  exact ⟨0,by decide +kernel,by decide⟩

theorem memory_traces_equal_iff_zeros :
    ∃ output output', main zeros_file 16 (text "dump") [] (text "o") (text ",") [text "0"] = some (0,output) ∧
      main zeros_file 32 (text "dump") [] (text "o") (text ",") [text "0"] = some (0,output') ∧
      (output = output' ↔ ∀ argument ∈ [text "0"], ∀ number ∈ vaddr64 argument,
        SamePage (format (text "o")) (page_of 16 (zeros 4096) (vaddr_of number))
          (page_of 32 (zeros 4096) (vaddr_of number))) :=
  memory_traces_equal_iff zeros_loads zeros_loads 16 32 (text "o") (by decide) (by decide) zero_inside zero_inside

end

end CacheEmulator.MemoryTrace
