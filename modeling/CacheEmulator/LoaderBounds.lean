import CacheEmulator.Description

/-!
The loader against the bytes it should leave: a block of memory agrees with the
contents that the pages loaded so far describe. From there, which descriptions
keep the loader inside its block.
-/
namespace CacheEmulator.LoaderBounds
open CacheEmulator.Error CacheEmulator.Memory CacheEmulator.Addr CacheEmulator.PageWalk
open CacheEmulator.Stdio CacheEmulator.Scanf CacheEmulator.Loader CacheEmulator.Image CacheEmulator.Description
open CacheEmulator.Error.error_code ( ERR_IO)

/-- The virtual address of a data page. -/
def vaddr_of (virtual_address : BitVec 64) : virt_addr_t := (init_virt_addr64 ⟨0,0,0,0,0,0⟩ virtual_address).2

/-! ### A walk over contents -/
section walk
variable (image : Contents) (vaddr : virt_addr_t)

/-- The word that an entry of a table is in. -/
def entry_index (page_start : pte_t) (index : BitVec 9) : Nat := page_start.toNat / 4 + index.toNat

def pgd_index : Nat := entry_index 0 vaddr.pgd_entry
def pud_index : Nat := entry_index (word image (pgd_index vaddr)) vaddr.pud_entry
def pmd_index : Nat := entry_index (word image (pud_index image vaddr)) vaddr.pmd_entry
def pte_index : Nat := entry_index (word image (pmd_index image vaddr)) vaddr.pte_entry

/-- The words that a walk reads. -/
def entries : List Nat := [pgd_index vaddr,pud_index image vaddr,pmd_index image vaddr,pte_index image vaddr]

/-- The frame that a walk finds, and the address in it. -/
def frame_of : BitVec 20 := (word image (pte_index image vaddr) >>> PAGE_OFFSET).setWidth 20
def translated : Nat := (frame_of image vaddr).toNat * 2 ^ PAGE_OFFSET + vaddr.page_offset.toNat

end walk

/-! ### Memory and contents -/

/-- A block has the bytes of the contents. -/
def Agrees (mem : mem_space) (image : Contents) : Prop := ∀ a : Fin mem.capacity, mem.byte a = image a

/-- Memory of a size, where there is any, with the bytes of the contents. -/
inductive Loaded : Option mem_space → Option Nat → Contents → Prop
  | missing (image : Contents) : Loaded none none image
  | block {mem : mem_space} {image : Contents} (agrees : Agrees mem image) : Loaded (some mem) (some mem.capacity) image

theorem zeros_agrees (capacity : Nat) : Agrees (zeros capacity) (fun _ => 0) := fun _ => rfl

theorem load_agrees {mem : mem_space} {image : Contents} (agrees : Agrees mem image) (index : Nat) :
    load mem index = if 4 * index + 3 < mem.capacity then some (word image index) else none := by
  unfold load
  split_ifs with inside
  · rw [agrees,agrees,agrees,agrees]
    rfl
  · rfl

theorem read_entry_agrees {mem : mem_space} {image : Contents} (agrees : Agrees mem image) {page_start : pte_t}
    {index : BitVec 9} {i : Nat} (here : entry_index page_start index = i) :
    read_page_entry mem page_start (index.setWidth 16) =
      if 4 * i + 3 < mem.capacity then some (word image i) else none := by
  have wide : (index.setWidth 16).toNat = index.toNat := CacheEmulator.Bits.toNat_widen _ (by decide)
  rw [← here,read_page_entry,wide]
  exact load_agrees agrees _

/-- A walk finds its frame just when all its entries are inside. -/
theorem frame_agrees {mem : mem_space} {image : Contents} (agrees : Agrees mem image) (vaddr : virt_addr_t) :
    frame mem vaddr =
      if ∀ i ∈ entries image vaddr, 4 * i + 3 < mem.capacity then some (frame_of image vaddr) else none := by
  have pgd := read_entry_agrees agrees (rfl : _ = pgd_index vaddr)
  have pud := read_entry_agrees agrees (rfl : _ = pud_index image vaddr)
  have pmd := read_entry_agrees agrees (rfl : _ = pmd_index image vaddr)
  have pte := read_entry_agrees agrees (rfl : _ = pte_index image vaddr)
  simp only [frame,entry,entries,List.forall_mem_cons,pgd]
  by_cases first : 4 * pgd_index vaddr + 3 < mem.capacity
  · by_cases second : 4 * pud_index image vaddr + 3 < mem.capacity
    · by_cases third : 4 * pmd_index image vaddr + 3 < mem.capacity
      · by_cases fourth : 4 * pte_index image vaddr + 3 < mem.capacity
        · simp [first,second,third,fourth,pud,pmd,pte,frame_of]
        · simp [first,second,third,fourth,pud,pmd,pte]
      · simp [first,second,third,pud,pmd]
    · simp [first,second,pud]
  · simp [first]

theorem store_bytes_agrees {mem : mem_space} {image : Contents} (agrees : Agrees mem image) {start : Nat}
    {bytes : List byte} (inside : start + bytes.length ≤ mem.capacity) :
    ∃ after, store_bytes mem start bytes = some after ∧ after.capacity = mem.capacity ∧
      Agrees after (overlay image start bytes) := by
  refine ⟨_,if_pos inside,rfl,?_⟩
  intro a
  simp only [overlay]
  split_ifs
  · rfl
  · exact agrees a

/-! ### One page -/

def filename : listed_page → List byte
  | .physical _ name => name
  | .virtual _ name => name

/-- Where a page is stored, given the contents before it. -/
def start (image : Contents) : listed_page → Nat
  | .physical address _ => address.toNat
  | .virtual address _ => translated image (vaddr_of address)

/-- The walk for a page, if it needs one, reads inside the block. -/
def Walks (block : Option Nat) (image : Contents) : listed_page → Prop
  | .physical _ _ => True
  | .virtual address _ => ∀ capacity, block = some capacity → ∀ i ∈ entries image (vaddr_of address), 4 * i + 3 < capacity

/-- The loader gets as far as storing a page: its file exists, and a walk for it has a memory to read. -/
def Stores (sys : system) (block : Option Nat) (p : listed_page) (bytes : List byte) : Prop :=
  sys.files (filename p) = some bytes ∧ (block = none → ∃ address, p = .physical address (filename p))

/-- All of the bytes have a place in the block. -/
def Inside (block : Option Nat) (start : Nat) (bytes : List byte) : Prop :=
  bytes = [] ∨ ∃ capacity, block = some capacity ∧ start + bytes.length ≤ capacity

/-- What may come of loading a page into a block with the contents. -/
def LoadCorrect (sys : system) (block : Option Nat) (image : Contents) (p : listed_page) :
    Option mem_space × Option stop → Prop
  | (after,none) => Walks block image p ∧ ∃ bytes, Stores sys block p bytes ∧ Inside block (start image p) bytes ∧
      Loaded after block (overlay image (start image p) bytes)
  | (_,some (.returned _)) => Walks block image p ∧ ∀ bytes, ¬ Stores sys block p bytes
  | (_,some (.undefined .memory)) => ¬ Walks block image p ∨
      ∃ bytes, Stores sys block p bytes ∧ ¬ Inside block (start image p) bytes
  | _ => False

theorem paddr_toNat (frame : BitVec 20) (offset : BitVec 12) :
    (frame.setWidth 32 <<< PAGE_OFFSET ||| offset.setWidth 32).toNat = frame.toNat * 2 ^ PAGE_OFFSET + offset.toNat := by
  have high : (frame.setWidth 32).toNat = frame.toNat := CacheEmulator.Bits.toNat_widen _ (by decide)
  have low : (offset.setWidth 32).toNat = offset.toNat := CacheEmulator.Bits.toNat_widen _ (by decide)
  have frame_small := frame.isLt
  rw [CacheEmulator.Bits.toNat_shift_or,high,low]
  · rw [low]
    exact offset.isLt
  · rw [high,PAGE_OFFSET]
    omega

/-- What may come of storing a file at an address. -/
def FillCorrect (sys : system) (memory : Option mem_space) (block : Option Nat) (image : Contents) (start : Nat)
    (name : List byte) (result : Option mem_space × Option stop) : Prop :=
  match sys.files name with
  | none => result = (memory,some (.returned ERR_IO))
  | some bytes =>
    (Inside block start bytes ∧ ∃ after, result = (after,none) ∧ Loaded after block (overlay image start bytes)) ∨
      (¬ Inside block start bytes ∧ result = (memory,some (.undefined .memory)))

/-- Storing a file succeeds just when its bytes are inside the block. -/
theorem fill_correct (sys : system) {memory : Option mem_space} {block : Option Nat} {image : Contents}
    (loaded : Loaded memory block image) (address : BitVec 32) (name : List byte) :
    FillCorrect sys memory block image address.toNat name (fill_mem_at_address sys memory address name) := by
  unfold FillCorrect
  cases found : sys.files name with
  | none => simp [fill_mem_at_address,found]
  | some bytes =>
    by_cases nothing : bytes = []
    · subst nothing
      refine .inl ⟨.inl rfl,memory,by simp [fill_mem_at_address,found,fread],?_⟩
      rw [overlay_nil]
      exact loaded
    · cases loaded with
      | missing =>
        refine .inr ⟨?_,by simp [fill_mem_at_address,found,fread,nothing]⟩
        rintro (none_left | ⟨capacity,⟨⟩,_⟩)
        exact nothing none_left
      | @block mem _ agrees =>
        by_cases fits : address.toNat + bytes.length ≤ mem.capacity
        · obtain ⟨after,stored,capacity,later⟩ := store_bytes_agrees agrees fits
          refine .inl ⟨.inr ⟨_,rfl,fits⟩,some after,by simp [fill_mem_at_address,found,fread,nothing,stored],?_⟩
          rw [← capacity]
          exact .block later
        · have outside : store_bytes mem address.toNat bytes = none := if_neg fits
          refine .inr ⟨?_,by simp [fill_mem_at_address,found,fread,nothing,outside]⟩
          rintro (none_left | ⟨capacity,same,inside⟩)
          · exact nothing none_left
          · cases same
            exact fits inside

/-- A page whose walk stays inside ends as the filling at its address does. -/
theorem load_filled {sys : system} {memory : Option mem_space} {block : Option Nat} {image : Contents} (p : listed_page)
    {result : Option mem_space × Option stop} (walks : Walks block image p)
    (walkable : block = none → ∃ address, p = .physical address (filename p))
    (filled : FillCorrect sys memory block image (start image p) (filename p) result) :
    LoadCorrect sys block image p result := by
  unfold FillCorrect at filled
  cases found : sys.files (filename p) with
  | none =>
    rw [found] at filled
    rw [filled]
    refine ⟨walks,fun bytes stores => ?_⟩
    have := stores.1.symm.trans found
    cases this
  | some bytes =>
    rw [found] at filled
    have stores : Stores sys block p bytes := ⟨found,walkable⟩
    rcases filled with ⟨inside,after,rfl,later⟩ | ⟨outside,rfl⟩
    · exact ⟨walks,bytes,stores,inside,later⟩
    · exact .inr ⟨bytes,stores,outside⟩

/-- The address where a turn stores a virtual page. -/
theorem fill_translated_walks (sys : system) {mem : mem_space} {image : Contents} (agrees : Agrees mem image)
    (virtual_address : BitVec 64) (name : List byte) :
    ∃ address : BitVec 32, address.toNat = translated image (vaddr_of virtual_address) ∧
      fill_translated sys (some mem) virtual_address name =
        if ∀ i ∈ entries image (vaddr_of virtual_address), 4 * i + 3 < mem.capacity then
          fill_mem_at_address sys (some mem) address name
        else (some mem,some (.undefined .memory)) := by
  obtain ⟨vaddr,initialised,_⟩ := init_virt_addr64_correct ⟨0,0,0,0,0,0⟩ virtual_address
  have named : vaddr_of virtual_address = vaddr := congrArg Prod.snd initialised
  rw [named]
  refine ⟨_,paddr_toNat (frame_of image vaddr) vaddr.page_offset,?_⟩
  simp only [fill_translated,initialised,↓reduceIte]
  rw [page_walk_correct,frame_agrees agrees]
  split_ifs
  · rfl
  · rfl

/-- A page that is not loaded for want of a memory to walk. -/
theorem fill_translated_missing (sys : system) (virtual_address : BitVec 64) (name : List byte) :
    fill_translated sys none virtual_address name = (none,some (.returned .ERR_BAD_PARAMETER)) := by
  obtain ⟨vaddr,initialised,_⟩ := init_virt_addr64_correct ⟨0,0,0,0,0,0⟩ virtual_address
  simp only [fill_translated,initialised,↓reduceIte]

theorem load_page_correct (sys : system) {memory : Option mem_space} {block : Option Nat} {image : Contents}
    (loaded : Loaded memory block image) (p : listed_page) :
    LoadCorrect sys block image p (load_page sys p memory) := by
  cases p with
  | physical address name =>
    exact load_filled (.physical address name) trivial (fun _ => ⟨address,rfl⟩) (fill_correct sys loaded address name)
  | virtual address name =>
    rw [load_page]
    cases loaded with
    | missing =>
      rw [fill_translated_missing]
      refine ⟨fun capacity none_some => ?_,fun bytes stores => ?_⟩
      · cases none_some
      · obtain ⟨a,physical⟩ := stores.2 rfl
        cases physical
    | @block mem _ agrees =>
      obtain ⟨a,target,walked⟩ := fill_translated_walks sys agrees address name
      rw [walked]
      split_ifs with within
      · have walks : Walks (some mem.capacity) image (.virtual address name) := by
          rintro capacity ⟨⟩
          exact within
        have filled := fill_correct sys (.block agrees) a name
        rw [target] at filled
        exact load_filled (.virtual address name) walks (fun none_left => by cases none_left) filled
      · exact .inl (fun walks => within (walks _ rfl))

/-! ### Whole descriptions -/

/-- All that is stored and read for the pages, in order, is inside the block. A page
    that the loader refuses is the last one. -/
def Fits (sys : system) (block : Option Nat) : List listed_page → Contents → Prop
  | [], _ => True
  | p :: pages, image => Walks block image p ∧ ∀ bytes, Stores sys block p bytes →
      Inside block (start image p) bytes ∧ Fits sys block pages (overlay image (start image p) bytes)

/-- A load of pages in order ends, and it leaves the block just when they do not fit. -/
theorem load_all_fits (sys : system) {block : Option Nat} {ending : Option stop} (ofText : ∀ why ∈ ending, OfText why)
    (pages : List listed_page) {memory : Option mem_space} {image : Contents} (loaded : Loaded memory block image) :
    (load_all (load_page sys) ending pages memory).2 ≠ some .unfinished ∧
      ((load_all (load_page sys) ending pages memory).2 ≠ some (.undefined .memory) ↔ Fits sys block pages image) := by
  induction pages generalizing memory image with
  | nil =>
    simp only [load_all,Fits,iff_true]
    constructor
    all_goals
      rintro rfl
      rcases ofText _ rfl with impossible | impossible
      · cases impossible
      · cases impossible
  | cons p pages ih =>
    have correct := load_page_correct sys loaded p
    rw [load_all,Fits]
    generalize load_page sys p memory = result at correct ⊢
    rcases result with ⟨after,_ | (code | why | _)⟩
    · obtain ⟨walks,bytes,stores,inside,later⟩ := correct
      have only : ∀ other, Stores sys block p other → other = bytes :=
        fun other again => Option.some.inj (again.1.symm.trans stores.1)
      obtain ⟨finished,fits⟩ := ih later
      refine ⟨finished,fits.trans ⟨fun rest => ⟨walks,fun other again => ?_⟩,fun all => (all.2 bytes stores).2⟩⟩
      rw [only other again]
      exact ⟨inside,rest⟩
    · obtain ⟨walks,refused⟩ := correct
      exact ⟨by simp,iff_of_true (by simp) ⟨walks,fun bytes stores => absurd stores (refused bytes)⟩⟩
    · cases why with
      | memory =>
        refine ⟨by simp,iff_of_false (fun inside => inside rfl) ?_⟩
        rintro ⟨walks,fits⟩
        rcases correct with leaves | ⟨bytes,stores,outside⟩
        · exact leaves walks
        · exact outside (fits bytes stores).1
      | filename => exact False.elim correct
    · exact False.elim correct

/-- The capacity that a description asks for, and its pages. -/
def listed (sys : system) (master_filename : List byte) : Option (BitVec 64 × List listed_page) :=
  (sys.files master_filename).bind (fun text =>
    (fscanf_unsigned 10 (fopen text)).map (fun scanned => (scanned.1,(description scanned.2).1)))

/-- The block that `calloc` finds, by its size. -/
def block_of (sys : system) (mem_capacity_in_bytes : BitVec 64) : Option Nat :=
  if sys.allocates mem_capacity_in_bytes.toNat then some mem_capacity_in_bytes.toNat else none

/-- A load with nothing listed answers with an error; any other loads the pages into the new block. -/
theorem mem_init_listed (sys : system) (master_filename : List byte) :
    match listed sys master_filename with
    | none => mem_init_from_description sys master_filename = (none,none,some (.returned ERR_IO))
    | some (mem_capacity_in_bytes,pages) =>
      Ordered pages ∧ ∃ memory ending, (∀ why ∈ ending, OfText why) ∧
        Loaded memory (block_of sys mem_capacity_in_bytes) (fun _ => 0) ∧
        mem_init_from_description sys master_filename =
          ((load_all (load_page sys) ending pages memory).1,some mem_capacity_in_bytes,
            (load_all (load_page sys) ending pages memory).2) := by
  unfold listed mem_init_from_description
  cases sys.files master_filename with
  | none => rfl
  | some text =>
    simp only [Option.bind_some]
    cases fscanf_unsigned 10 (fopen text) with
    | none => rfl
    | some scanned =>
      obtain ⟨mem_capacity_in_bytes,entree⟩ := scanned
      obtain ⟨_,ordered,ofText⟩ := description_reads entree
      simp only [Option.map_some,load_pages_eq]
      refine ⟨ordered,_,_,ofText,?_,rfl⟩
      unfold block_of
      split_ifs
      · exact .block (zeros_agrees _)
      · exact .missing _

/-- The loader stays inside the block: it stores no byte and reads no entry outside it.
    A run that a file name longer than its buffer stops has stayed inside up to there. -/
def InBounds (sys : system) (master_filename : List byte) : Prop :=
  (mem_init_from_description sys master_filename).2.2 ≠ some (.undefined .memory)

/-- The loops of the loader are given enough turns. -/
theorem mem_init_finished (sys : system) (master_filename : List byte) :
    (mem_init_from_description sys master_filename).2.2 ≠ some .unfinished := by
  have loads := mem_init_listed sys master_filename
  cases found : listed sys master_filename with
  | none =>
    rw [found] at loads
    rw [loads]
    simp
  | some description =>
    rw [found] at loads
    obtain ⟨_,memory,ending,ofText,loaded,executed⟩ := loads
    rw [executed]
    exact (load_all_fits sys ofText description.2 loaded).1

/-- The loader makes no test of its own: it stays inside just when the pages of
    the description fit. -/
theorem load_in_bounds_iff (sys : system) (master_filename : List byte) :
    InBounds sys master_filename ↔
      ∀ mem_capacity_in_bytes pages, listed sys master_filename = some (mem_capacity_in_bytes,pages) →
        Fits sys (block_of sys mem_capacity_in_bytes) pages (fun _ => 0) := by
  have loads := mem_init_listed sys master_filename
  unfold InBounds
  cases found : listed sys master_filename with
  | none =>
    rw [found] at loads
    rw [loads]
    refine iff_of_true (by simp) ?_
    rintro _ _ ⟨⟩
  | some description =>
    rw [found] at loads
    obtain ⟨_,memory,ending,ofText,loaded,executed⟩ := loads
    rw [executed]
    refine (load_all_fits sys ofText description.2 loaded).2.trans ⟨?_,fun all => all _ _ rfl⟩
    rintro fits _ _ ⟨⟩
    exact fits

/-- One page of memory, one byte for the PGD and one translation page of a byte behind the memory. -/
def behind_memory : List byte :=
  ['4','0','9','6','\n','P','\n','1','\n','0','x','1','0','0','0',' ','P','\n'].map chr

def behind_memory_files : system where
  files name := if name = [] then some behind_memory else if name = [chr 'P'] then some [0] else none
  allocates _ := true

/-- The byte behind the memory is stored all the same. -/
theorem behind_memory_stored : ¬ InBounds behind_memory_files [] := by
  intro inside
  exact inside (by decide +kernel)

end CacheEmulator.LoaderBounds
