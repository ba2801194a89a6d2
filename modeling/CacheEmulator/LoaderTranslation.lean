import CacheEmulator.LoaderBounds

/-!
Where the loader leaves the data pages. A page is stored in the frame that a walk
finds while memory is still being filled; pages that keep to frames of their own
do not disturb any walk, and each walk finds its page in the end.
-/
namespace CacheEmulator.LoaderTranslation
open CacheEmulator.Error CacheEmulator.Memory CacheEmulator.Addr CacheEmulator.PageWalk
open CacheEmulator.Stdio CacheEmulator.Scanf CacheEmulator.Loader CacheEmulator.Image CacheEmulator.Description
open CacheEmulator.LoaderBounds

/-- The contents after a page has been stored. -/
def stored (sys : system) (image : Contents) (p : listed_page) : Contents :=
  overlay image (start image p) ((sys.files (filename p)).getD [])

/-- The frames that the virtual pages are stored in, each with the entries its walk reads. -/
def walks (sys : system) : List listed_page → Contents → List (BitVec 20 × List Nat)
  | [], _ => []
  | .physical address name :: pages, image => walks sys pages (stored sys image (.physical address name))
  | .virtual address name :: pages, image =>
    (frame_of image (vaddr_of address),entries image (vaddr_of address)) ::
      walks sys pages (stored sys image (.virtual address name))

/-- The frames of the pages differ, and none of them holds an entry that a walk reads. -/
structure Separate (walks : List (BitVec 20 × List Nat)) : Prop where
  frames : (walks.map Prod.fst).Nodup
  tables : ∀ w ∈ walks, ∀ other ∈ walks, ∀ i ∈ other.2, 4 * i / PAGE_SIZE ≠ w.1.toNat

/-- The page files are pages, and the virtual addresses are aligned. -/
structure Paged (sys : system) (pages : List listed_page) : Prop where
  sizes : ∀ p ∈ pages, ∀ bytes ∈ sys.files (filename p), bytes.length = PAGE_SIZE
  aligned : ∀ v name, .virtual v name ∈ pages → v.toNat % PAGE_SIZE = 0

/-! ### Addresses in a page -/

theorem vaddr_of_number (v : BitVec 64) : number (vaddr_of v) = v.toNat % 2 ^ 48 := by
  obtain ⟨vaddr,initialised,_,correct⟩ := init_virt_addr64_correct ⟨0,0,0,0,0,0⟩ v
  rw [← correct,vaddr_of,initialised]

/-- An address in an aligned page: the page is the same, and the offset is added. -/
theorem vaddr_of_add {v : BitVec 64} (aligned : v.toNat % PAGE_SIZE = 0) {o : Nat} (inside : o < PAGE_SIZE) :
    page (vaddr_of (v + BitVec.ofNat 64 o)) = page (vaddr_of v) ∧
      (vaddr_of (v + BitVec.ofNat 64 o)).page_offset.toNat = o := by
  have here := vaddr_of_number v
  have there := vaddr_of_number (v + BitVec.ofNat 64 o)
  have small := (vaddr_of v).page_offset.isLt
  have small' := (vaddr_of (v + BitVec.ofNat 64 o)).page_offset.isLt
  have bound := v.isLt
  rw [BitVec.toNat_add,BitVec.toNat_ofNat] at there
  simp only [number,PAGE_OFFSET,PAGE_SIZE] at here there aligned inside
  omega

theorem vaddr_of_aligned {v : BitVec 64} (aligned : v.toNat % PAGE_SIZE = 0) : (vaddr_of v).page_offset.toNat = 0 := by
  have here := (vaddr_of_add aligned (o := 0) (by decide)).2
  simpa using here

/-- An aligned address is translated to the start of its frame. -/
theorem translated_aligned {v : BitVec 64} (aligned : v.toNat % PAGE_SIZE = 0) (image : Contents) :
    translated image (vaddr_of v) = (frame_of image (vaddr_of v)).toNat * PAGE_SIZE := by
  have size : 2 ^ PAGE_OFFSET = PAGE_SIZE := rfl
  rw [translated,vaddr_of_aligned aligned,size,Nat.add_zero]

/-! ### What later pages leave alone -/

/-- A walk depends on the words that it reads. -/
theorem entries_congr {left right : Contents} {vaddr : virt_addr_t}
    (same : ∀ i ∈ entries left vaddr, word right i = word left i) :
    entries right vaddr = entries left vaddr ∧ frame_of right vaddr = frame_of left vaddr := by
  simp only [entries,List.forall_mem_cons] at same
  obtain ⟨pgd,pud,pmd,pte,_⟩ := same
  have second : pud_index right vaddr = pud_index left vaddr := by rw [pud_index,pgd,pud_index]
  have third : pmd_index right vaddr = pmd_index left vaddr := by rw [pmd_index,second,pud,pmd_index]
  have fourth : pte_index right vaddr = pte_index left vaddr := by rw [pte_index,third,pmd,pte_index]
  exact ⟨by rw [entries,second,third,fourth,entries],by rw [frame_of,fourth,pte,frame_of]⟩

/-- Contents that differ at most in the frames of some pages. -/
def Keeps (walks : List (BitVec 20 × List Nat)) (left right : Contents) : Prop :=
  ∀ a, (∀ w ∈ walks, a / PAGE_SIZE ≠ w.1.toNat) → right a = left a

theorem keeps_word {ws : List (BitVec 20 × List Nat)} {left right : Contents} (keeps : Keeps ws left right) {index : Nat}
    (apart : ∀ w ∈ ws, 4 * index / PAGE_SIZE ≠ w.1.toNat) : word right index = word left index := by
  apply word_congr
  intro a inWord
  apply keeps
  intro w member same
  apply apart w member
  simp only [PAGE_SIZE] at same ⊢
  omega

/-- A page is where the walk for its address leads. -/
def Found (sys : system) (block : Option Nat) (image : Contents) (address : BitVec 64) (name : List byte) : Prop :=
  ∃ capacity bytes, block = some capacity ∧ sys.files name = some bytes ∧ bytes.length = PAGE_SIZE ∧
    (∀ i ∈ entries image (vaddr_of address), 4 * i + 3 < capacity) ∧
    (frame_of image (vaddr_of address)).toNat * PAGE_SIZE + PAGE_SIZE ≤ capacity ∧
    ∀ o (inside : o < bytes.length), image ((frame_of image (vaddr_of address)).toNat * PAGE_SIZE + o) = bytes[o]

/-- A page stays found when the frames that change hold neither the page nor its entries. -/
theorem found_kept {sys : system} {block : Option Nat} {ws : List (BitVec 20 × List Nat)} {left right : Contents}
    {address : BitVec 64} {name : List byte} (keeps : Keeps ws left right)
    (frames : ∀ w ∈ ws, frame_of left (vaddr_of address) ≠ w.1)
    (tables : ∀ w ∈ ws, ∀ i ∈ entries left (vaddr_of address), 4 * i / PAGE_SIZE ≠ w.1.toNat)
    (found : Found sys block left address name) : Found sys block right address name := by
  obtain ⟨capacity,bytes,allocated,opened,size,within,fits,contents⟩ := found
  have kept : ∀ i ∈ entries left (vaddr_of address), word right i = word left i :=
    fun i member => keeps_word keeps (fun w changed => tables w changed i member)
  obtain ⟨sameEntries,sameFrame⟩ := entries_congr kept
  refine ⟨capacity,bytes,allocated,opened,size,?_,?_,?_⟩
  · rw [sameEntries]
    exact within
  · rw [sameFrame]
    exact fits
  · intro o inside
    rw [sameFrame,← contents o inside]
    apply keeps
    intro w member same
    apply frames w member
    apply BitVec.eq_of_toNat_eq
    rw [← same]
    simp only [size,PAGE_SIZE] at inside ⊢
    omega

section page
variable {sys : system} {block : Option Nat} {image : Contents} {address : BitVec 64} {name bytes : List byte}

/-- A page is stored in its frame. -/
theorem stored_keeps (opened : sys.files name = some bytes) (size : bytes.length = PAGE_SIZE)
    (aligned : address.toNat % PAGE_SIZE = 0) (read : List Nat) :
    Keeps [(frame_of image (vaddr_of address),read)] image (stored sys image (.virtual address name)) := by
  intro a apart
  have other := apart _ List.mem_cons_self
  simp only [stored,filename,opened,Option.getD_some,start,translated_aligned aligned]
  apply overlay_outside
  simp only [size,PAGE_SIZE] at other ⊢
  omega

/-- A page that covers none of the entries for its address does not disturb its walk. -/
theorem stored_walk (opened : sys.files name = some bytes) (size : bytes.length = PAGE_SIZE)
    (aligned : address.toNat % PAGE_SIZE = 0)
    (apart : ∀ i ∈ entries image (vaddr_of address), 4 * i / PAGE_SIZE ≠ (frame_of image (vaddr_of address)).toNat) :
    entries (stored sys image (.virtual address name)) (vaddr_of address) = entries image (vaddr_of address) ∧
      frame_of (stored sys image (.virtual address name)) (vaddr_of address) = frame_of image (vaddr_of address) := by
  apply entries_congr
  intro i member
  apply keeps_word (stored_keeps opened size aligned [])
  intro w only
  rw [List.mem_singleton.mp only]
  exact apart i member

/-- A page is found where it has just been stored. -/
theorem stored_found (walked : Walks block image (.virtual address name))
    (stores : Stores sys block (.virtual address name) bytes)
    (inside : Inside block (translated image (vaddr_of address)) bytes) (size : bytes.length = PAGE_SIZE)
    (aligned : address.toNat % PAGE_SIZE = 0)
    (apart : ∀ i ∈ entries image (vaddr_of address), 4 * i / PAGE_SIZE ≠ (frame_of image (vaddr_of address)).toNat) :
    Found sys block (stored sys image (.virtual address name)) address name := by
  have opened : sys.files name = some bytes := stores.1
  obtain ⟨sameEntries,sameFrame⟩ := stored_walk opened size aligned apart
  rcases inside with nothing | ⟨capacity,allocated,fits⟩
  · rw [nothing] at size
    cases size
  · rw [translated_aligned aligned,size] at fits
    refine ⟨capacity,bytes,allocated,opened,size,?_,?_,?_⟩
    · rw [sameEntries]
      exact walked capacity allocated
    · rw [sameFrame]
      exact fits
    · intro o inside
      rw [sameFrame]
      simp only [stored,filename,opened,Option.getD_some,start,translated_aligned aligned]
      exact overlay_inside image _ inside

end page

/-! ### Loading in order -/
section loading
variable {sys : system} {block : Option Nat} {ending : Option stop}

/-- A load that nothing stops has stored its first page. -/
theorem load_all_step {p : listed_page} {pages : List listed_page} {memory final : Option mem_space} {image : Contents}
    (loaded : Loaded memory block image) (ran : load_all (load_page sys) ending (p :: pages) memory = (final,none)) :
    Walks block image p ∧ ∃ bytes, Stores sys block p bytes ∧ Inside block (start image p) bytes ∧
      ∃ after, Loaded after block (stored sys image p) ∧ load_all (load_page sys) ending pages after = (final,none) := by
  have correct := load_page_correct sys loaded p
  rw [load_all] at ran
  generalize load_page sys p memory = result at correct ran
  rcases result with ⟨after,_ | why⟩
  · obtain ⟨walked,bytes,stores,inside,later⟩ := correct
    refine ⟨walked,bytes,stores,inside,after,?_,ran⟩
    rw [stored,stores.1]
    exact later
  · cases ran

theorem separate_tail {w : BitVec 20 × List Nat} {ws : List (BitVec 20 × List Nat)} (separate : Separate (w :: ws)) :
    Separate ws :=
  ⟨(List.nodup_cons.mp separate.frames).2,
    fun v member u other => separate.tables v (List.mem_cons_of_mem w member) u (List.mem_cons_of_mem w other)⟩

theorem paged_tail {p : listed_page} {pages : List listed_page} (paged : Paged sys (p :: pages)) : Paged sys pages :=
  ⟨fun other member => paged.sizes other (List.mem_cons_of_mem p member),
    fun v name member => paged.aligned v name (List.mem_cons_of_mem p member)⟩

/-- The data pages are found in the end, and only their frames have changed. -/
theorem data_found (data : List (BitVec 64 × List byte)) {memory final : Option mem_space} {image : Contents}
    (loaded : Loaded memory block image)
    (ran : load_all (load_page sys) ending (data.map (fun d => .virtual d.1 d.2)) memory = (final,none))
    (paged : Paged sys (data.map (fun d => .virtual d.1 d.2)))
    (separate : Separate (walks sys (data.map (fun d => .virtual d.1 d.2)) image)) :
    ∃ last, Loaded final block last ∧ Keeps (walks sys (data.map (fun d => .virtual d.1 d.2)) image) image last ∧
      ∀ d ∈ data, Found sys block last d.1 d.2 := by
  induction data generalizing memory image with
  | nil =>
    cases ran
    exact ⟨image,loaded,fun _ _ => rfl,fun d none_left => by cases none_left⟩
  | cons d data ih =>
    obtain ⟨address,name⟩ := d
    rw [List.map_cons] at ran paged separate ⊢
    rw [walks] at separate ⊢
    obtain ⟨walked,bytes,stores,inside,after,later,rest⟩ := load_all_step loaded ran
    obtain ⟨last,ended,keeps,found⟩ := ih later rest (paged_tail paged) (separate_tail separate)
    have opened : sys.files name = some bytes := stores.1
    have size : bytes.length = PAGE_SIZE := paged.sizes _ List.mem_cons_self bytes opened
    have aligned : address.toNat % PAGE_SIZE = 0 := paged.aligned address name List.mem_cons_self
    refine ⟨last,ended,?_,?_⟩
    · intro a apart
      rw [keeps a (fun w member => apart w (List.mem_cons_of_mem _ member))]
      refine stored_keeps opened size aligned (entries image (vaddr_of address)) a (fun w only => ?_)
      rw [List.mem_singleton.mp only]
      exact apart _ List.mem_cons_self
    · intro d member
      rcases List.mem_cons.mp member with rfl | member
      · have apart := separate.tables _ List.mem_cons_self _ List.mem_cons_self
        obtain ⟨sameEntries,sameFrame⟩ := stored_walk opened size aligned apart
        refine found_kept keeps ?_ ?_ (stored_found walked stores inside size aligned apart)
        · intro w later same
          rw [sameFrame] at same
          exact (List.nodup_cons.mp separate.frames).1 (List.mem_map.mpr ⟨w,later,same.symm⟩)
        · intro w later
          rw [sameEntries]
          exact separate.tables w (List.mem_cons_of_mem _ later) _ List.mem_cons_self
      · exact found d member

/-- The pages of tables come first, and leave what they are for the data pages to find. -/
theorem pages_found (tables : List (BitVec 32 × List byte)) (data : List (BitVec 64 × List byte))
    {memory final : Option mem_space} {image : Contents} (loaded : Loaded memory block image)
    (ran : load_all (load_page sys) ending
      (tables.map (fun t => .physical t.1 t.2) ++ data.map (fun d => .virtual d.1 d.2)) memory = (final,none))
    (paged : Paged sys (tables.map (fun t => .physical t.1 t.2) ++ data.map (fun d => .virtual d.1 d.2)))
    (separate : Separate
      (walks sys (tables.map (fun t => .physical t.1 t.2) ++ data.map (fun d => .virtual d.1 d.2)) image)) :
    ∃ last, Loaded final block last ∧ ∀ d ∈ data, Found sys block last d.1 d.2 := by
  induction tables generalizing memory image with
  | nil =>
    obtain ⟨last,ended,_,found⟩ := data_found data loaded ran paged separate
    exact ⟨last,ended,found⟩
  | cons t tables ih =>
    obtain ⟨_,_,_,_,after,later,rest⟩ := load_all_step loaded ran
    exact ih later rest (paged_tail paged) separate

end loading

/-- Memory has a byte at a physical address. -/
def HasByte (mem : mem_space) (paddr : phy_addr_t) (b : byte) : Prop :=
  ∃ a : Fin mem.capacity, a.val = paddr.phy_page_num.toNat * PAGE_SIZE + paddr.page_offset.toNat ∧ mem.byte a = b

/-- A walk for an address in a page that is found leads to its byte. -/
theorem found_walk {sys : system} {memory : Option mem_space} {block : Option Nat} {image : Contents} {v : BitVec 64}
    {name : List byte} (loaded : Loaded memory block image) (aligned : v.toNat % PAGE_SIZE = 0)
    (found : Found sys block image v name) :
    ∃ mem bytes, memory = some mem ∧ sys.files name = some bytes ∧ bytes.length = PAGE_SIZE ∧
      ∀ o (inside : o < bytes.length) (paddr : phy_addr_t), ∃ target,
        page_walk mem (vaddr_of (v + BitVec.ofNat 64 o)) paddr = some (.ERR_NONE,target) ∧
          HasByte mem target bytes[o] := by
  obtain ⟨capacity,bytes,allocated,opened,size,within,fits,contents⟩ := found
  cases loaded with
  | missing => cases allocated
  | @block mem _ agrees =>
    cases allocated
    refine ⟨mem,bytes,rfl,opened,size,fun o inside paddr => ?_⟩
    have onPage : o < PAGE_SIZE := size ▸ inside
    obtain ⟨samePage,offset⟩ := vaddr_of_add aligned onPage
    refine ⟨⟨frame_of image (vaddr_of v),(vaddr_of (v + BitVec.ofNat 64 o)).page_offset⟩,?_,?_⟩
    · rw [page_walk_correct,frame_of_page mem samePage,frame_agrees agrees,if_pos within]
      rfl
    · have below : (frame_of image (vaddr_of v)).toNat * PAGE_SIZE + o < mem.capacity := by omega
      refine ⟨⟨_,below⟩,?_,?_⟩
      · rw [offset]
      · rw [agrees]
        exact contents o inside

/-- Once a description is loaded, every walk for an address in one of its data
    pages leads to the byte of the page file. -/
theorem data_pages_translated (sys : system) (master_filename : List byte) {mem_capacity_in_bytes : BitVec 64}
    {pages : List listed_page} (names : listed sys master_filename = some (mem_capacity_in_bytes,pages))
    (loads : (mem_init_from_description sys master_filename).2.2 = none) (paged : Paged sys pages)
    (separate : Separate (walks sys pages (fun _ => 0))) :
    ∀ v name, .virtual v name ∈ pages → ∃ mem bytes,
      (mem_init_from_description sys master_filename).1 = some mem ∧ sys.files name = some bytes ∧
        bytes.length = PAGE_SIZE ∧ ∀ o (inside : o < bytes.length) (paddr : phy_addr_t), ∃ target,
          page_walk mem (vaddr_of (v + BitVec.ofNat 64 o)) paddr = some (.ERR_NONE,target) ∧
            HasByte mem target bytes[o] := by
  intro v name member
  have executed := mem_init_listed sys master_filename
  rw [names] at executed
  obtain ⟨⟨tables,data,rfl⟩,memory,ending,_,loaded,executed⟩ := executed
  rw [executed] at loads ⊢
  obtain ⟨last,ended,found⟩ := pages_found tables data loaded (Prod.ext rfl loads) paged separate
  refine found_walk ended (paged.aligned v name member) ?_
  rcases List.mem_append.mp member with table | listed
  · obtain ⟨t,_,physical⟩ := List.mem_map.mp table
    cases physical
  · obtain ⟨d,inData,virtual⟩ := List.mem_map.mp listed
    cases virtual
    exact found d inData

/-! ### Two data pages -/

/-- Four pages of memory: two of tables and two of data. -/
def two_data_pages : List byte :=
  ['1','6','3','8','4','\n','P','\n','1','\n','0','x','1','0','0','0',' ','T','\n',
    '0','x','2','0','0','0','0','0',' ','D','\n','0','x','2','0','1','0','0','0',' ','E','\n'].map chr

/-- The first three tables in one page: entry 0 leads back to it, and entry 1 to the page of the last table. -/
def pgd_page : List byte := [0,0,0,0,0,0x10,0,0] ++ List.replicate 4088 0
/-- The last table leads to the frames behind it. -/
def pte_page : List byte := [0,0x20,0,0,0,0x30,0,0] ++ List.replicate 4088 0

def two_data_pages_files : system where
  files name :=
    if name = [] then some two_data_pages
    else if name = [chr 'P'] then some pgd_page
    else if name = [chr 'T'] then some pte_page
    else if name = [chr 'D'] then some (List.replicate 4096 7)
    else if name = [chr 'E'] then some (List.replicate 4096 8)
    else none
  allocates _ := true

def two_data_pages_listed : List listed_page :=
  [.physical 0 [chr 'P'],.physical 0x1000 [chr 'T'],.virtual 0x200000 [chr 'D'],.virtual 0x201000 [chr 'E']]

theorem two_data_pages_names : listed two_data_pages_files [] = some (16384,two_data_pages_listed) := by decide +kernel

theorem two_data_pages_sizes {name bytes : List byte} (named : name ≠ [])
    (opened : two_data_pages_files.files name = some bytes) : bytes.length = PAGE_SIZE := by
  simp only [two_data_pages_files,if_neg named] at opened
  split_ifs at opened
  all_goals
    cases opened
    simp only [pgd_page,pte_page,List.length_append,List.length_replicate]
    rfl

theorem two_data_pages_paged : Paged two_data_pages_files two_data_pages_listed where
  sizes p member bytes opened := by
    refine two_data_pages_sizes ?_ opened
    have named : ∀ p ∈ two_data_pages_listed, filename p ≠ [] := by decide
    exact named p member
  aligned := by
    have aligned : ∀ p ∈ two_data_pages_listed, ∀ v name, p = .virtual v name → v.toNat % PAGE_SIZE = 0 := by
      simp [two_data_pages_listed,PAGE_SIZE]
    exact fun v name member => aligned _ member v name rfl

theorem two_data_pages_separate : Separate (walks two_data_pages_files two_data_pages_listed (fun _ => 0)) := by
  have walked : walks two_data_pages_files two_data_pages_listed (fun _ => 0) =
      [(2,[0,0,1,1024]),(3,[0,0,1,1025])] := by decide +kernel
  rw [walked]
  exact ⟨by decide,by decide⟩

theorem data_pages_translated_two : listed two_data_pages_files [] = some (16384,two_data_pages_listed) ∧
    ∀ v name, .virtual v name ∈ two_data_pages_listed → ∃ mem bytes,
      (mem_init_from_description two_data_pages_files []).1 = some mem ∧ two_data_pages_files.files name = some bytes ∧
        bytes.length = PAGE_SIZE ∧ ∀ o (inside : o < bytes.length) (paddr : phy_addr_t), ∃ target,
          page_walk mem (vaddr_of (v + BitVec.ofNat 64 o)) paddr = some (.ERR_NONE,target) ∧
            HasByte mem target bytes[o] := by
  have loads : (mem_init_from_description two_data_pages_files []).2.2 = none := by decide +kernel
  exact ⟨two_data_pages_names,data_pages_translated two_data_pages_files [] two_data_pages_names loads two_data_pages_paged
    two_data_pages_separate⟩

end CacheEmulator.LoaderTranslation
