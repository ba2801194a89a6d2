import CacheEmulator.LoaderBounds

/-!
The memory loaders with what may fail under them: `calloc` finds no block,
`fread` gives less than the file has, a read of the description fails. What
becomes of `*memory` and of the blocks is kept beside what is loaded. The
arguments themselves point to something.
-/
namespace CacheEmulator.LoaderCleanup
open CacheEmulator.Error CacheEmulator.Memory
open CacheEmulator.Stdio CacheEmulator.Scanf CacheEmulator.Image CacheEmulator.Description
open CacheEmulator.Loader ( FILENAME_SIZE fault stop listed_page load_pages go_to_next_char)
open CacheEmulator.LoaderBounds ( Walks Stores Inside start filename Loaded LoadCorrect load_page_correct zeros_agrees)
open CacheEmulator.Error.error_code ( ERR_IO ERR_MEM)

/-- The blocks of the heap: what the caller may have left in `*memory`, and the
    two that a call asks for. A pointer is a block or NULL. -/
inductive block
  | callers
  | memory
  | page_filename
  deriving DecidableEq, Repr

/-- The files by name; whether `calloc` finds so many bytes for a block; how many
    bytes `fread` can give at its call of a number; whether a read fails
    behind the text of a description. -/
structure machine where
  files : List byte → Option (List byte)
  allocates : block → Nat → Bool
  reads : Nat → Nat
  text_fails : Bool

/-- What a call leaves: `*memory`, the capacity where it was set, the bytes of the
    block, the blocks allocated and freed, whether a NULL pointer was stored
    through, and what stopped the load, where it does not return `ERR_NONE`. -/
structure outcome where
  memory : Option block
  mem_capacity_in_bytes : Option (BitVec 64)
  contents : Option mem_space
  allocated : List block
  freed : List block
  through_NULL : Bool
  stopped : Option stop

variable (sys : machine)

def calloc (b : block) (size : Nat) : Option block := if sys.allocates b size then some b else none

/-- The bytes of a block, all zero. -/
def cleared (memory : Option block) (size : Nat) : Option mem_space := memory.map (fun _ => zeros size)

/-- An error before anything was done. -/
def unopened (memory : Option block) : outcome where
  memory := memory
  mem_capacity_in_bytes := none
  contents := none
  allocated := []
  freed := []
  through_NULL := false
  stopped := some (.returned ERR_IO)

/-- The error exits of this loader free nothing. -/
def mem_init_from_dumpfile (memory : Option block) (filename : List byte) : outcome :=
  match sys.files filename with
  | none => unopened memory
  | some entree =>
    let mem_capacity_in_bytes := BitVec.ofNat 64 entree.length
    let memory := calloc sys .memory mem_capacity_in_bytes.toNat
    let came := (entree.take mem_capacity_in_bytes.toNat).take (sys.reads 0)
    { memory := memory
      mem_capacity_in_bytes := some mem_capacity_in_bytes
      contents := (cleared memory mem_capacity_in_bytes.toNat).bind (fun mem => Loader.store_bytes mem 0 came)
      allocated := memory.toList
      freed := []
      through_NULL := false
      stopped :=
        if memory = none then some (.returned ERR_MEM)
        else if came.length ≠ mem_capacity_in_bytes.toNat then some (.returned ERR_MEM)
        else none }

/-! ### Pages of a description -/

/-- The files as one call of `fread` gives them. -/
def came (k : Nat) : Loader.system where
  files name := (sys.files name).map (fun bytes => bytes.take (sys.reads k))
  allocates := sys.allocates .memory

/-- A call of `fread` gives the whole of a file. -/
def whole (k : Nat) (name : List byte) : Bool :=
  match sys.files name with
  | none => true
  | some bytes => bytes.length ≤ sys.reads k

/-- The memory, and the number of calls of `fread` so far. The last step of loading
    a page is the test of `nb_ok` in `fill_mem_at_address`, behind its `fread`. -/
def load_page (p : listed_page) (s : Option mem_space × Nat) : (Option mem_space × Nat) × Option stop :=
  match Loader.load_page (came sys s.2) p s.1 with
  | (memory,some why) => ((memory,s.2 + 1),some why)
  | (memory,none) =>
    if whole sys s.2 (filename p) then ((memory,s.2 + 1),none) else ((memory,s.2 + 1),some (.returned ERR_MEM))

/-- A failing read gives `EOF` without the end-of-file indicator: where the loop
    over the data pages would end, its next `fscanf` returns `EOF`. -/
def behind_text (stopped : Option stop) : Option stop :=
  if sys.text_fails ∧ stopped = none then some (.returned ERR_IO) else stopped

/-- What comes after the blocks. The first conversion for a file name stores
    through `page_filename`, which nothing tests; it stores nothing when it
    finds no word. -/
def load_named (page_filename : Option block) (entree : FILE) (s : Option mem_space × Nat) :
    (Option mem_space × Nat) × Option stop :=
  match page_filename with
  | some _ =>
    let loaded := load_pages (load_page sys) entree s
    (loaded.1,behind_text sys loaded.2)
  | none =>
    match fscanf_string (go_to_next_char entree).2 with
    | none => (s,some (.returned ERR_IO))
    | some _ => (s,some (.undefined .filename))

/-- The exits behind the blocks: one with an error frees both, the last one keeps
    the memory. `free` of NULL frees nothing. -/
def leave (memory page_filename : Option block) (mem_capacity_in_bytes : BitVec 64)
    (loaded : (Option mem_space × Nat) × Option stop) : outcome where
  memory := memory
  mem_capacity_in_bytes := some mem_capacity_in_bytes
  contents := loaded.1.1
  allocated := memory.toList ++ page_filename.toList
  freed :=
    match loaded.2 with
    | none => page_filename.toList
    | some (.returned _) => memory.toList ++ page_filename.toList
    | some _ => []
  through_NULL := (memory = none ∧ loaded.2 = some (.undefined .memory)) ∨
    (page_filename = none ∧ loaded.2 = some (.undefined .filename))
  stopped := loaded.2

/-- The test after the first `calloc` is made on the file, which is open. The
    blanks skipped between the two calls of `calloc` are no way out. -/
def mem_init_from_description (memory : Option block) (master_filename : List byte) : outcome :=
  match sys.files master_filename with
  | none => unopened memory
  | some text =>
    match fscanf_unsigned 10 (fopen text) with
    | none => unopened memory
    | some (mem_capacity_in_bytes,entree) =>
      let memory := calloc sys .memory mem_capacity_in_bytes.toNat
      let page_filename := calloc sys .page_filename FILENAME_SIZE
      leave memory page_filename mem_capacity_in_bytes
        (load_named sys page_filename entree (cleared memory mem_capacity_in_bytes.toNat,0))

/-- An error code comes with `*memory` NULL and with every allocated block freed
    once, and nothing is stored through NULL. A run that is undefined returns no code,
    and nothing is asked of the blocks it leaves. -/
def LeavesNothing (result : outcome) : Prop :=
  (∀ code, result.stopped = some (.returned code) →
    result.memory = none ∧ ∀ b ∈ result.allocated, result.freed.count b = 1) ∧ result.through_NULL = false

/-! ### Which pages let a load go on -/

/-- The pages are there and read whole, as far as the loader stays inside the
    block, and the text ends behind them. -/
def Completes (capacity : Nat) (ending : Option stop) : List listed_page → Nat → Contents → Prop
  | [], _, _ => ∀ code, ending ≠ some (.returned code)
  | p :: pages, k, image => Walks (some capacity) image p → ∃ bytes, sys.files (filename p) = some bytes ∧
      (Inside (some capacity) (start image p) (bytes.take (sys.reads k)) →
        bytes.length ≤ sys.reads k ∧ Completes capacity ending pages (k + 1) (overlay image (start image p) bytes))

/-- Without a block no byte comes for a page, as far as the loader gets: to a
    file that is missing or cut short, or to a page that needs a walk. -/
def Unstored : List listed_page → Nat → Prop
  | .physical _ name :: pages, k => ∀ bytes, sys.files name = some bytes →
      bytes.take (sys.reads k) = [] ∧ (bytes = [] → Unstored pages (k + 1))
  | _, _ => True

variable {sys}

theorem whole_iff {k : Nat} {name bytes : List byte} (found : sys.files name = some bytes) :
    whole sys k name = true ↔ bytes.length ≤ sys.reads k := by
  simp [whole,found]

/-- What came for a page is the front of its file. -/
theorem came_stores {k : Nat} {b : Option Nat} {p : listed_page} {front : List byte}
    (stores : Stores (came sys k) b p front) :
    ∃ bytes, sys.files (filename p) = some bytes ∧ bytes.take (sys.reads k) = front :=
  Option.map_eq_some_iff.mp stores.1

theorem stores_came {k capacity : Nat} {p : listed_page} {bytes : List byte}
    (found : sys.files (filename p) = some bytes) :
    Stores (came sys k) (some capacity) p (bytes.take (sys.reads k)) :=
  ⟨Option.map_eq_some_iff.mpr ⟨bytes,found,rfl⟩,fun none_left => by cases none_left⟩

/-- A load into a block returns no error just when its pages let it go on. -/
theorem load_all_completes {capacity : Nat} {ending : Option stop} (pages : List listed_page) {k : Nat}
    {memory : Option mem_space} {image : Contents} (loaded : Loaded memory (some capacity) image) :
    (∀ code, (load_all (load_page sys) ending pages (memory,k)).2 ≠ some (.returned code)) ↔
      Completes sys capacity ending pages k image := by
  induction pages generalizing memory image k with
  | nil => rfl
  | cons p pages ih =>
    have correct := load_page_correct (came sys k) loaded p
    rw [load_all,load_page,Completes]
    generalize Loader.load_page (came sys k) p memory = result at correct ⊢
    rcases result with ⟨after,_ | (code | why | _)⟩
    · obtain ⟨walks,front,stores,inside,later⟩ := correct
      obtain ⟨bytes,found,rfl⟩ := came_stores stores
      have only : ∀ other, sys.files (filename p) = some other → other = bytes :=
        fun other again => Option.some.inj (again.symm.trans found)
      by_cases all : bytes.length ≤ sys.reads k
      · rw [List.take_of_length_le all] at later inside
        simp only [(whole_iff found).mpr all,↓reduceIte]
        refine (ih later).trans ⟨fun rest _ => ⟨bytes,found,fun _ => ⟨all,rest⟩⟩,fun step => ?_⟩
        obtain ⟨other,again,goes_on⟩ := step walks
        obtain rfl := only other again
        rw [List.take_of_length_le all] at goes_on
        exact (goes_on inside).2
      · have cut : whole sys k (filename p) = false := by
          rw [← Bool.not_eq_true,whole_iff found]
          exact all
        simp only [cut,Bool.false_eq_true,↓reduceIte]
        refine iff_of_false (fun returns => returns _ rfl) (fun step => ?_)
        obtain ⟨other,again,goes_on⟩ := step walks
        obtain rfl := only other again
        exact all (goes_on inside).1
    · obtain ⟨walks,refused⟩ := correct
      refine iff_of_false (fun returns => returns code rfl) (fun step => ?_)
      obtain ⟨bytes,found,_⟩ := step walks
      exact refused _ (stores_came found)
    · cases why with
      | memory =>
        refine iff_of_true (by simp) (fun walks => ?_)
        rcases correct with leaves | ⟨front,stores,outside⟩
        · exact absurd walks leaves
        · obtain ⟨bytes,found,rfl⟩ := came_stores stores
          exact ⟨bytes,found,fun inside => absurd inside outside⟩
      | filename => exact False.elim correct
    · exact False.elim correct

/-- A physical page without a block. -/
theorem load_physical_missing (address : BitVec 32) (name : List byte) (k : Nat) :
    load_page sys (.physical address name) (none,k) =
      match sys.files name with
      | none => ((none,k + 1),some (.returned ERR_IO))
      | some bytes =>
        if bytes.take (sys.reads k) = [] then
          if bytes = [] then ((none,k + 1),none) else ((none,k + 1),some (.returned ERR_MEM))
        else ((none,k + 1),some (.undefined .memory)) := by
  cases found : sys.files name with
  | none => simp [load_page,Loader.load_page,Loader.fill_mem_at_address,came,found]
  | some bytes =>
    by_cases nothing : bytes.take (sys.reads k) = []
    · have all : whole sys k name = true ↔ bytes = [] := by
        rw [whole_iff found]
        constructor
        · intro fits
          rw [List.take_of_length_le fits] at nothing
          exact nothing
        · rintro rfl
          exact Nat.zero_le _
      simp [load_page,Loader.load_page,Loader.fill_mem_at_address,Loader.fread,came,found,nothing,filename,all]
    · simp [load_page,Loader.load_page,Loader.fill_mem_at_address,Loader.fread,came,found,nothing]

/-- A load without a block stores through NULL unless no byte comes for its pages. -/
theorem load_all_unstored {ending : Option stop} (ofText : ∀ why ∈ ending, OfText why) (pages : List listed_page)
    (k : Nat) :
    (load_all (load_page sys) ending pages (none,k)).2 ≠ some (.undefined .memory) ↔ Unstored sys pages k := by
  induction pages generalizing k with
  | nil =>
    refine iff_of_true ?_ trivial
    rintro rfl
    rcases ofText _ rfl with impossible | impossible
    · cases impossible
    · cases impossible
  | cons p pages ih =>
    rw [load_all]
    cases p with
    | virtual address name =>
      have refused : load_page sys (.virtual address name) (none,k) =
          ((none,k + 1),some (.returned .ERR_BAD_PARAMETER)) := by
        rw [load_page,Loader.load_page,LoaderBounds.fill_translated_missing]
      rw [refused]
      exact iff_of_true (by simp) trivial
    | physical address name =>
      rw [load_physical_missing,Unstored]
      cases found : sys.files name with
      | none => simp
      | some bytes =>
        by_cases nothing : bytes.take (sys.reads k) = []
        · by_cases empty : bytes = []
          · simp [empty,ih]
          · simp only [nothing,empty,↓reduceIte]
            refine iff_of_true (by simp) ?_
            rintro _ ⟨⟩
            exact ⟨nothing,fun none_left => absurd none_left empty⟩
        · simp only [nothing,↓reduceIte]
          exact iff_of_false (fun stays => stays rfl) (fun step => nothing (step bytes rfl).1)

/-! ### What a failed call leaves -/

variable (sys)

/-- A read that fails behind the text changes what the text ends with. -/
theorem behind_load_all {σ : Type} (load : listed_page → σ → σ × Option stop) (ending : Option stop)
    (pages : List listed_page) (s : σ) :
    behind_text sys (load_all load ending pages s).2 = (load_all load (behind_text sys ending) pages s).2 := by
  induction pages generalizing s with
  | nil => rfl
  | cons p pages ih =>
    rw [load_all,load_all]
    rcases load p s with ⟨after,_ | why⟩
    · exact ih after
    · simp [behind_text]

theorem behind_ofText {ending : Option stop} (ofText : ∀ why ∈ ending, OfText why) :
    ∀ why ∈ behind_text sys ending, OfText why := by
  intro why member
  unfold behind_text at member
  split_ifs at member
  · cases member
    exact .inl rfl
  · exact ofText why member

/-- An error is not clean with a pointer left in `*memory`. -/
theorem dangling_not_clean {result : outcome} (code : error_code) (b : block)
    (returned : result.stopped = some (.returned code)) (kept : result.memory = some b) : ¬ LeavesNothing result := by
  intro leaves
  have null := (leaves.1 code returned).1
  rw [kept] at null
  cases null

theorem leaves_unopened (memory : Option block) : LeavesNothing (unopened memory) ↔ memory = none := by
  constructor
  · intro leaves
    exact (leaves.1 _ rfl).1
  · intro null
    exact ⟨fun _ _ => ⟨null,by rintro _ ⟨⟩⟩,rfl⟩

/-- The file cannot be opened, or all of it is read if there is a block for it. -/
def DumpRead (memory : Option block) (filename : List byte) : Prop :=
  match sys.files filename with
  | none => memory = none
  | some bytes =>
    sys.allocates .memory (BitVec.ofNat 64 bytes.length).toNat → (BitVec.ofNat 64 bytes.length).toNat ≤ sys.reads 0

/-- The description cannot be opened or has no size; with both blocks its pages
    are loaded to the end; without the memory nothing is stored; without
    either there is no name. -/
def DescriptionRead (memory : Option block) (master_filename : List byte) : Prop :=
  match (sys.files master_filename).bind (fun text => fscanf_unsigned 10 (fopen text)) with
  | none => memory = none
  | some (mem_capacity_in_bytes,entree) =>
    if sys.allocates .memory mem_capacity_in_bytes.toNat then
      sys.allocates .page_filename FILENAME_SIZE = true ∧
        Completes sys mem_capacity_in_bytes.toNat (behind_text sys (description entree).2) (description entree).1 0
          (fun _ => 0)
    else if sys.allocates .page_filename FILENAME_SIZE then Unstored sys (description entree).1 0
    else fscanf_string (go_to_next_char entree).2 = none

theorem dumpfile_clean_iff (memory : Option block) (filename : List byte) :
    LeavesNothing (mem_init_from_dumpfile sys memory filename) ↔ DumpRead sys memory filename := by
  unfold mem_init_from_dumpfile DumpRead
  cases sys.files filename with
  | none => exact leaves_unopened memory
  | some bytes =>
    have size : (BitVec.ofNat 64 bytes.length).toNat ≤ bytes.length := by
      rw [BitVec.toNat_ofNat]
      exact Nat.mod_le _ _
    have all : ((bytes.take (BitVec.ofNat 64 bytes.length).toNat).take (sys.reads 0)).length =
        (BitVec.ofNat 64 bytes.length).toNat ↔ (BitVec.ofNat 64 bytes.length).toNat ≤ sys.reads 0 := by
      rw [List.length_take,List.length_take]
      omega
    by_cases met : sys.allocates .memory (BitVec.ofNat 64 bytes.length).toNat
    · by_cases enough : (BitVec.ofNat 64 bytes.length).toNat ≤ sys.reads 0
      · refine iff_of_true ⟨?_,rfl⟩ (fun _ => enough)
        intro code returned
        simp only [calloc,met,↓reduceIte,all.mpr enough,ne_eq,not_true_eq_false,reduceCtorEq] at returned
      · refine iff_of_false ?_ (fun read => enough (read met))
        have cut : ((bytes.take (BitVec.ofNat 64 bytes.length).toNat).take (sys.reads 0)).length ≠
            (BitVec.ofNat 64 bytes.length).toNat := fun same => enough (all.mp same)
        have kept : calloc sys .memory (BitVec.ofNat 64 bytes.length).toNat = some .memory := if_pos met
        refine dangling_not_clean ERR_MEM .memory ?_ kept
        simp only [kept,cut,ne_eq,not_false_eq_true,reduceCtorEq,↓reduceIte]
    · refine iff_of_true ⟨fun _ _ => ⟨by simp only [calloc,met,Bool.false_eq_true,↓reduceIte],?_⟩,rfl⟩
        (fun found => absurd found met)
      simp only [calloc,met,Bool.false_eq_true,↓reduceIte,Option.toList_none]
      rintro _ ⟨⟩

theorem calloc_none {b : block} {size : Nat} : calloc sys b size = none ↔ sys.allocates b size = false := by
  unfold calloc
  split_ifs with met
  · simp [met]
  · simpa using met

/-- Behind the blocks an error frees each of them once. -/
theorem leave_frees (size length : Nat) (mem_capacity_in_bytes : BitVec 64) {loaded : (Option mem_space × Nat) × Option stop}
    {code : error_code} (returned : loaded.2 = some (.returned code)) :
    ∀ b ∈ (leave (calloc sys .memory size) (calloc sys .page_filename length) mem_capacity_in_bytes loaded).allocated,
      (leave (calloc sys .memory size) (calloc sys .page_filename length) mem_capacity_in_bytes loaded).freed.count b = 1 := by
  have different : ((calloc sys .memory size).toList ++ (calloc sys .page_filename length).toList).Nodup := by
    unfold calloc
    split_ifs <;> decide
  intro b member
  simp only [leave,returned] at member ⊢
  exact List.count_eq_one_of_mem different member

/-- Behind the blocks an error is clean just when there is no memory, since nothing
    resets `*memory`. -/
theorem leave_clean_iff (size length : Nat) (mem_capacity_in_bytes : BitVec 64)
    (loaded : (Option mem_space × Nat) × Option stop) :
    LeavesNothing (leave (calloc sys .memory size) (calloc sys .page_filename length) mem_capacity_in_bytes loaded) ↔
      (sys.allocates .memory size → ∀ code, loaded.2 ≠ some (.returned code)) ∧
        (sys.allocates .memory size = false → loaded.2 ≠ some (.undefined .memory)) ∧
        (sys.allocates .page_filename length = false → loaded.2 ≠ some (.undefined .filename)) := by
  constructor
  · rintro ⟨null,stored⟩
    obtain ⟨memory,page_filename⟩ := not_or.mp (of_decide_eq_false stored)
    refine ⟨?_,fun unmet same => memory ⟨(calloc_none sys).mpr unmet,same⟩,
      fun unmet same => page_filename ⟨(calloc_none sys).mpr unmet,same⟩⟩
    intro met code returned
    have unmet := (calloc_none sys).mp (null code returned).1
    rw [met] at unmet
    cases unmet
  · rintro ⟨returns,memory,page_filename⟩
    refine ⟨?_,decide_eq_false (not_or.mpr ⟨fun both => memory ((calloc_none sys).mp both.1) both.2,
      fun both => page_filename ((calloc_none sys).mp both.1) both.2⟩)⟩
    intro code returned
    refine ⟨(calloc_none sys).mpr ?_,leave_frees sys size length mem_capacity_in_bytes returned⟩
    rw [← Bool.not_eq_true]
    exact fun met => returns met code returned

/-- With both blocks the load is that of the pages. -/
theorem load_named_some (b : block) (entree : FILE) (s : Option mem_space × Nat) :
    (load_named sys (some b) entree s).2 =
      (load_all (load_page sys) (behind_text sys (description entree).2) (description entree).1 s).2 := by
  rw [load_named,load_pages_eq]
  exact behind_load_all sys (load_page sys) _ _ s

theorem description_clean_iff (memory : Option block) (master_filename : List byte) :
    LeavesNothing (mem_init_from_description sys memory master_filename) ↔ DescriptionRead sys memory master_filename := by
  unfold mem_init_from_description DescriptionRead
  cases sys.files master_filename with
  | none => exact leaves_unopened memory
  | some text =>
    simp only [Option.bind_some]
    cases fscanf_unsigned 10 (fopen text) with
    | none => exact leaves_unopened memory
    | some scanned =>
      obtain ⟨mem_capacity_in_bytes,entree⟩ := scanned
      obtain ⟨_,_,ofText⟩ := description_reads entree
      refine (leave_clean_iff sys _ _ _ _).trans ?_
      cases met : sys.allocates .memory mem_capacity_in_bytes.toNat <;>
        cases named : sys.allocates .page_filename FILENAME_SIZE
      all_goals simp only [calloc,cleared,met,named,Bool.false_eq_true,↓reduceIte,Option.map_none,Option.map_some]
      -- Neither block: the first name is stored through NULL.
      · cases word : fscanf_string (go_to_next_char entree).2 with
        | none => simp [load_named,word]
        | some name => simp [load_named,word]
      -- No memory: the bytes of a page are stored through NULL.
      · rw [load_named_some,← load_all_unstored (behind_ofText sys ofText)]
        simp
      -- No buffer for the names: an error, or the first name stored through NULL.
      · cases word : fscanf_string (go_to_next_char entree).2 with
        | none => simp [load_named,word]
        | some name => simp [load_named,word]
      · have zero : Loaded (some (zeros mem_capacity_in_bytes.toNat)) (some mem_capacity_in_bytes.toNat) (fun _ => 0) :=
          .block (zeros_agrees _)
        rw [load_named_some,← load_all_completes _ zero]
        simp

/-- Either loader leaves nothing behind an error just when its files are read to the end
    or the error comes before its memory. -/
theorem failed_init_clean_iff (memory : Option block) (filename master_filename : List byte) :
    (LeavesNothing (mem_init_from_dumpfile sys memory filename) ↔ DumpRead sys memory filename) ∧
      (LeavesNothing (mem_init_from_description sys memory master_filename) ↔
        DescriptionRead sys memory master_filename) :=
  ⟨dumpfile_clean_iff sys memory filename,description_clean_iff sys memory master_filename⟩

/-- A description that is a size alone, and a dump of one byte that is not read. -/
def size_only : List byte := ['4','0','9','6','\n'].map chr

def cut_short : machine where
  files name := if name = [] then some size_only else if name = [chr 'D'] then some [7] else none
  allocates _ _ := true
  reads _ := 0
  text_fails := false

/-- Both loads answer with an error and leave a pointer to their memory, which one
    has freed and the other has not. -/
theorem cut_short_kept :
    ¬ LeavesNothing (mem_init_from_dumpfile cut_short none [chr 'D']) ∧
      ¬ LeavesNothing (mem_init_from_description cut_short none []) := by
  constructor
  · exact dangling_not_clean ERR_MEM .memory rfl rfl
  · exact dangling_not_clean ERR_IO .memory (by decide +kernel) (by decide +kernel)

/-! ### Nothing fails -/

/-- Everything asked for is given, but for the memory. -/
structure Unfailing : Prop where
  read : ∀ k name bytes, sys.files name = some bytes → bytes.length ≤ sys.reads k
  named : sys.allocates .page_filename FILENAME_SIZE = true
  text : sys.text_fails = false

/-- The files and the memory of the loader that knows no other failure. -/
def plain : Loader.system where
  files := sys.files
  allocates := sys.allocates .memory

variable {sys}

theorem came_plain (unfailing : Unfailing sys) (k : Nat) : came sys k = plain sys := by
  rw [came,plain,Loader.system.mk.injEq]
  refine ⟨funext fun name => ?_,rfl⟩
  cases found : sys.files name with
  | none => rfl
  | some bytes => rw [Option.map_some,List.take_of_length_le (unfailing.read k name bytes found)]

theorem load_page_plain (unfailing : Unfailing sys) (p : listed_page) (memory : Option mem_space) (k : Nat) :
    load_page sys p (memory,k) =
      (((Loader.load_page (plain sys) p memory).1,k + 1),(Loader.load_page (plain sys) p memory).2) := by
  have all : whole sys k (filename p) = true := by
    unfold whole
    cases found : sys.files (filename p) with
    | none => rfl
    | some bytes => exact decide_eq_true (unfailing.read k _ bytes found)
  rw [load_page,came_plain unfailing]
  rcases Loader.load_page (plain sys) p memory with ⟨after,_ | why⟩
  · simp only [all,↓reduceIte]
  · rfl

theorem load_all_plain (unfailing : Unfailing sys) (ending : Option stop) (pages : List listed_page)
    (memory : Option mem_space) (k : Nat) :
    (load_all (load_page sys) ending pages (memory,k)).1.1 =
        (load_all (Loader.load_page (plain sys)) ending pages memory).1 ∧
      (load_all (load_page sys) ending pages (memory,k)).2 =
        (load_all (Loader.load_page (plain sys)) ending pages memory).2 := by
  induction pages generalizing memory k with
  | nil => exact ⟨rfl,rfl⟩
  | cons p pages ih =>
    rw [load_all,load_all,load_page_plain unfailing]
    rcases Loader.load_page (plain sys) p memory with ⟨after,_ | why⟩
    · exact ih after (k + 1)
    · exact ⟨rfl,rfl⟩

theorem behind_plain (unfailing : Unfailing sys) (stopped : Option stop) : behind_text sys stopped = stopped := by
  simp [behind_text,unfailing.text]

/-- Where nothing else fails the loader is `Loader.mem_init_from_description`. -/
theorem mem_init_plain (unfailing : Unfailing sys) (memory : Option block) (master_filename : List byte) :
    ((mem_init_from_description sys memory master_filename).contents,
        (mem_init_from_description sys memory master_filename).mem_capacity_in_bytes,
        (mem_init_from_description sys memory master_filename).stopped) =
      Loader.mem_init_from_description (plain sys) master_filename := by
  unfold mem_init_from_description Loader.mem_init_from_description
  have files : (plain sys).files = sys.files := rfl
  rw [files]
  cases sys.files master_filename with
  | none => rfl
  | some text =>
    simp only
    cases fscanf_unsigned 10 (fopen text) with
    | none => rfl
    | some scanned =>
      obtain ⟨mem_capacity_in_bytes,entree⟩ := scanned
      have block : cleared (calloc sys .memory mem_capacity_in_bytes.toNat) mem_capacity_in_bytes.toNat =
          if (plain sys).allocates mem_capacity_in_bytes.toNat then some (zeros mem_capacity_in_bytes.toNat) else none := by
        cases met : sys.allocates .memory mem_capacity_in_bytes.toNat with
        | false => simp [cleared,calloc,plain,met]
        | true => simp [cleared,calloc,plain,met]
      have name : calloc sys .page_filename FILENAME_SIZE = some .page_filename := if_pos unfailing.named
      simp only [← block]
      generalize cleared (calloc sys .memory mem_capacity_in_bytes.toNat) mem_capacity_in_bytes.toNat = start
      obtain ⟨contents,stopped⟩ := load_all_plain unfailing (description entree).2 (description entree).1 start 0
      simp only [leave,name,load_named,load_pages_eq,behind_plain unfailing,contents,stopped]

end CacheEmulator.LoaderCleanup
