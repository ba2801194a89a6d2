import CacheEmulator.Addr
import CacheEmulator.Cache

/-!
The cache operations of `cache_mng.c`. The macros that return from the function
they stand in take that return, and what follows them, as arguments. What a
local variable holds before it is written is an argument too. A step that
reads through NULL, outside an array, or through a pointer to entries of
another type has no result. The branches that only tell the instruction cache
from the data cache are one, since the two have the same macros.
-/
namespace CacheEmulator.CacheMng
open CacheEmulator.Error CacheEmulator.Memory CacheEmulator.Addr CacheEmulator.Cache

variable {g : geometry} {α : Type}

/-- The enumeration of the caches; a conversion can give it any other value. -/
inductive cache_t
  | L1_ICACHE
  | L1_DCACHE
  | L2_CACHE
  | unknown (value : BitVec 32)
  deriving DecidableEq

def cache_t.of_value (value : BitVec 32) : cache_t :=
  if value = 0 then .L1_ICACHE else if value = 1 then .L1_DCACHE else if value = 2 then .L2_CACHE else .unknown value
def cache_t.value : cache_t → Nat
  | .L1_ICACHE => 0
  | .L1_DCACHE => 1
  | .L2_CACHE => 2
  | .unknown value => value.toNat

/-- The replacement policies; `other` is any value that is not in the enumeration. -/
inductive cache_replace_t
  | LRU
  | other
  deriving DecidableEq

/-- The two cache arguments, which the program passes as `void *`. -/
inductive cache_ptr
  | l1_cache
  | l2_cache
  deriving DecidableEq

abbrev cache_ptr.type : cache_ptr → geometry
  | .l1_cache => L1
  | .l2_cache => L2

structure caches where
  l1_cache : cache L1
  l2_cache : cache L2

def caches.deref (cs : caches) : (ptr : cache_ptr) → cache ptr.type
  | .l1_cache => cs.l1_cache
  | .l2_cache => cs.l2_cache
def caches.assign (cs : caches) : (ptr : cache_ptr) → cache ptr.type → caches
  | .l1_cache, cache => { cs with l1_cache := cache }
  | .l2_cache, cache => { cs with l2_cache := cache }

@[simp] theorem caches.deref_assign (cs : caches) (ptr : cache_ptr) (cache : cache ptr.type) :
    (cs.assign ptr cache).deref ptr = cache := by
  cases ptr <;> rfl
theorem caches.deref_assign_of_ne (cs : caches) {ptr other : cache_ptr} (different : other ≠ ptr) (cache : cache ptr.type) :
    (cs.assign ptr cache).deref other = cs.deref other := by
  cases ptr with
  | l1_cache =>
    cases other with
    | l1_cache => exact absurd rfl different
    | l2_cache => rfl
  | l2_cache =>
    cases other with
    | l1_cache => rfl
    | l2_cache => exact absurd rfl different
@[simp] theorem caches.assign_deref (cs : caches) (ptr : cache_ptr) : cs.assign ptr (cs.deref ptr) = cs := by
  cases ptr <;> rfl

/-- The argument whose entries have the type that the enumeration names. -/
def cache_t.cast : cache_t → Option cache_ptr
  | .L1_ICACHE => some .l1_cache
  | .L1_DCACHE => some .l1_cache
  | .L2_CACHE => some .l2_cache
  | .unknown _ => none

/-- Pointers to the words of a line: those of an entry, or an array on the stack. -/
inductive line_ptr
  | NULL
  | entry (cache : cache_ptr) (line_index way : Nat)
  | array (words : line_t)

def HIT_WAY_MISS : BitVec 8 := -1
def HIT_INDEX_MISS : BitVec 16 := -1
def L1_INDEX_MASK : BitVec 32 := 63
def L2_INDEX_MASK : BitVec 32 := 511
def WORDS_AND_BYTE_BITS : Nat := 4
def L2_NUMBER_OF_BITS_OF_INDEX_SELECT : Nat := 9
def ALIGNED_OF_WORDS_NUMBER : Nat := 4
def OCTET : Nat := 8
def BYTE_MASK : BitVec 32 := 255
def WORD_INDEX_MASK : BitVec 32 := 3

def read_line (cs : caches) : line_ptr → Nat → Option word_t
  | .NULL, _ => none
  | .entry cache line_index way, i => do
    let entry ← cache_entry (cs.deref cache) line_index way
    if inside : i < L1_ICACHE_WORDS_PER_LINE then some (entry.line ⟨i,inside⟩) else none
  | .array words, i => if inside : i < L1_ICACHE_WORDS_PER_LINE then some (words ⟨i,inside⟩) else none

/-- The loops that copy words into a line. -/
def copy_words (read : Nat → Option word_t) (words_per_line : Nat) (line : line_t) : Option line_t :=
  (List.range words_per_line).foldlM (fun (line : line_t) i => do
    let word ← read i
    if inside : i < L1_ICACHE_WORDS_PER_LINE then some (Function.update line ⟨i,inside⟩ word) else none) line

def paddr_to_uint32_t (paddr : phy_addr_t) : BitVec 32 :=
  (paddr.phy_page_num.setWidth 32 <<< PAGE_OFFSET) ||| paddr.page_offset.setWidth 32

/-- The word index at which the block of `lines` bytes around the address starts. -/
def get_line_from_mem_space (physical_address : BitVec 32) (lines : Nat) : Nat :=
  (physical_address.toNat - physical_address.toNat % lines) / 4

def entry_init (mem : mem_space) (physical_address : BitVec 32) (old : cache_entry_t g) :
    Option (error_code × cache_entry_t g) := do
  let address := get_line_from_mem_space physical_address L1_ICACHE_LINE
  let line ← copy_words (fun i => load mem (address + i)) L1_ICACHE_WORDS_PER_LINE old.line
  some (.ERR_NONE,
    { v := 1#1
      age := 0
      tag := (physical_address >>> g.TAG_REMAINING_BITS).setWidth g.TAG_BITS
      line := line })

def cache_entry_init (mem : mem_space) (paddr : phy_addr_t) {ptr : cache_ptr} (old : cache_entry_t ptr.type)
    (cache_type : cache_t) : Option (error_code × cache_entry_t ptr.type) :=
  let physical_address := paddr_to_uint32_t paddr
  match cache_type.cast with
  | none => some (.ERR_BAD_PARAMETER,old)
  | some cast =>
    M_REQUIRE (physical_address.toNat % L1_ICACHE_LINE = 0) (some (.ERR_BAD_PARAMETER,old)) <|
      if cast = ptr then entry_init mem physical_address old else none

def cache_flush_process (g : geometry) : cache g := fun _ _ => { v := 0#1, age := 0, tag := 0, line := fun _ => 0 }

def cache_flush (cs : caches) (ptr : cache_ptr) (cache_type : cache_t) : Option (error_code × caches) :=
  match cache_type.cast with
  | none => some (.ERR_BAD_PARAMETER,cs)
  | some cast => if cast = ptr then some (.ERR_NONE,cs.assign ptr (cache_flush_process ptr.type)) else none

def cache_insert_process (cache_line_index : BitVec 16) (cache_way : BitVec 8) (cache_line_in : cache_entry_t g)
    (cache : cache g) : Option (Cache.cache g) :=
  write_entry cache cache_line_index.toNat cache_way.toNat (fun _ => cache_line_in)

/-- `source` says which type of entry `cache_line_in` points to. -/
def cache_insert (cache_line_index : BitVec 16) (cache_way : BitVec 8) {source : cache_ptr}
    (cache_line_in : cache_entry_t source.type) (cs : caches) (ptr : cache_ptr) (cache_type : cache_t) :
    Option (error_code × caches) :=
  match cache_type.cast with
  | none => some (.ERR_BAD_PARAMETER,cs)
  | some cast =>
    M_REQUIRE (cache_way.toNat < cast.type.WAYS ∧ cache_line_index.toNat < cast.type.LINES)
      (some (.ERR_BAD_PARAMETER,cs)) <|
      if cast = source ∧ ptr = source then
        (cache_insert_process cache_line_index cache_way cache_line_in (cs.deref source)).map (fun inserted =>
          (.ERR_NONE,cs.assign source inserted))
      else none

/-- The loop of `cache_hit_process`: it stops at an invalid way. -/
def find_way (cache : cache g) (index_line : Nat) (tag : BitVec 32) : List (Fin g.WAYS) → Option (Option (Fin g.WAYS))
  | [] => some none
  | way :: ways => do
    let entry ← cache_entry cache index_line way.val
    if entry.v = 0#1 then some none
    else if entry.tag.setWidth 32 = tag then some (some way)
    else find_way cache index_line tag ways

/-- What a lookup returns, leaves behind and writes through its pointers. -/
structure hit_t where
  code : error_code
  caches : caches
  line : line_ptr
  hit_way : BitVec 8
  hit_index : BitVec 16

def cache_hit_process (paddr_converted : BitVec 32) (line : line_ptr) (cs : caches) (ptr : cache_ptr) : Option hit_t := do
  let index_line := paddr_converted.toNat / L1_ICACHE_LINE % ptr.type.LINES
  let tag := paddr_converted >>> ptr.type.TAG_REMAINING_BITS
  match ← find_way (cs.deref ptr) index_line tag (List.finRange ptr.type.WAYS) with
  | none => some ⟨.ERR_NONE,cs,line,HIT_WAY_MISS,HIT_INDEX_MISS⟩
  | some way =>
    let cache ← LRU_age_update (cs.deref ptr) way.val index_line
    some ⟨.ERR_NONE,cs.assign ptr cache,.entry ptr index_line way.val,BitVec.ofNat 8 way.val,BitVec.ofNat 16 index_line⟩

def cache_hit (cs : caches) (ptr : cache_ptr) (paddr : phy_addr_t) (line : line_ptr) (cache_type : cache_t) :
    Option hit_t :=
  match cache_type.cast with
  | none => some ⟨.ERR_BAD_PARAMETER,cs,line,HIT_WAY_MISS,HIT_INDEX_MISS⟩
  | some cast => if cast = ptr then cache_hit_process (paddr_to_uint32_t paddr) line cs ptr else none

def get_index_word (paddr : BitVec 32) (cache_type : cache_t) : BitVec 8 :=
  match cache_type with
  | .unknown _ => 3
  | _ => ((paddr >>> 2) % BitVec.ofNat 32 L1_ICACHE_WORDS_PER_LINE).setWidth 8

/-- The variables that `search_empty_space_or_old_entry` writes; the line to
    eject is that of a slot of the cache searched. -/
structure place_t where
  cold_case : BitVec 8
  age_max_found : BitVec 8
  way_to_insert : BitVec 8
  line_to_eject : Option (Nat × Nat)
  paddr_evicted : BitVec 32

def search_turn (cache : cache g) (line_index : Nat) (found : place_t) (index_of_way : Fin g.WAYS) : Option place_t := do
  let entry ← cache_entry cache line_index index_of_way.val
  let found :=
    if entry.v = 0#1 then { found with cold_case := 1, way_to_insert := BitVec.ofNat 8 index_of_way.val } else found
  let age_of_current_way : BitVec 8 := entry.age.setWidth 8
  if found.age_max_found < age_of_current_way then
    some { found with
      age_max_found := age_of_current_way
      way_to_insert := BitVec.ofNat 8 index_of_way.val
      line_to_eject := some (line_index,index_of_way.val)
      paddr_evicted := (entry.tag.setWidth 32 <<< g.TAG_REMAINING_BITS) |||
        (BitVec.ofNat 32 line_index <<< WORDS_AND_BYTE_BITS) }
  else some found

def search_empty_space_or_old_entry (cache : cache g) (line_index : Nat) (line_to_eject : Option (Nat × Nat)) :
    Option place_t :=
  (List.finRange g.WAYS).foldlM (search_turn cache line_index) ⟨0,-1,-1,line_to_eject,-1⟩

/-- `uninitialised` is what the line of the new entry holds before it is written. -/
def find_place_in_cache (errno : Int) (ptr : cache_ptr) (LINE : line_ptr) (PADDR_CONVERTED : BitVec 32)
    (CACHE_TYPE : cache_t) (CACHE_WORDS_PER_LINE : Nat) (INDEX_MASK : BitVec 32) (uninitialised : line_t) (cs : caches)
    (ret : error_code → caches → Option α) (next : caches → BitVec 32 → line_ptr → Option α) : Option α := do
  let line_index : BitVec 16 := ((PADDR_CONVERTED >>> WORDS_AND_BYTE_BITS) &&& INDEX_MASK).setWidth 16
  let found ← search_empty_space_or_old_entry (cs.deref ptr) line_index.toNat none
  let line ← copy_words (read_line cs LINE) CACHE_WORDS_PER_LINE uninitialised
  let new_cache_entry : cache_entry_t ptr.type :=
    { v := 1#1
      tag := (PADDR_CONVERTED >>> ptr.type.TAG_REMAINING_BITS).setWidth ptr.type.TAG_BITS
      age := 0
      line := line }
  let insertion := (cache_insert line_index found.way_to_insert new_cache_entry cs .l1_cache CACHE_TYPE).bind
    (fun inserted => ret inserted.1 inserted.2)
  if found.cold_case = 1 then
    M_REQUIRE_NO_ERRNO errno insertion <|
      (LRU_age_increase (cs.deref ptr) found.way_to_insert.toNat line_index.toNat).bind (fun aged =>
        ret .ERR_NONE (cs.assign ptr aged))
  else
    M_REQUIRE_NO_ERRNO errno insertion <|
      (LRU_age_update (cs.deref ptr) found.way_to_insert.toNat line_index.toNat).bind (fun aged =>
        next (cs.assign ptr aged) found.paddr_evicted
          (match found.line_to_eject with
            | none => .NULL
            | some slot => .entry ptr slot.1 slot.2))

def find_place_in_l1 (errno : Int) (LINE : line_ptr) (new_paddr : BitVec 32) (CACHE_TYPE : cache_t)
    (CACHE_WORDS_PER_LINE : Nat) (uninitialised : line_t) (cs : caches) (ret : error_code → caches → Option α)
    (next : caches → Option α) : Option α :=
  find_place_in_cache errno .l1_cache LINE new_paddr CACHE_TYPE CACHE_WORDS_PER_LINE L1_INDEX_MASK uninitialised cs ret
    (fun cs paddr_to_evict line_of_old_entry =>
      find_place_in_cache errno .l2_cache line_of_old_entry paddr_to_evict .L2_CACHE L1_ICACHE_WORDS_PER_LINE
        L2_INDEX_MASK uninitialised cs ret (fun cs _ _ => next cs))

def deplacement_from_level2_to_level1 (errno : Int) (LINE : line_ptr) (CACHE_TYPE : cache_t)
    (CACHE_WORDS_PER_LINE : Nat) (HIT_INDEX : BitVec 32) (hit_way : BitVec 8) (hit_index : BitVec 16)
    (uninitialised : line_t) (cs : caches) (ret : error_code → caches → Option α) (next : caches → Option α) :
    Option α := do
  let cache ← write_entry cs.l2_cache hit_index.toNat hit_way.toNat (fun entry => { entry with v := 0#1 })
  let entry ← cache_entry cache hit_index.toNat hit_way.toNat
  let new_paddr := ((entry.tag.setWidth 32 <<< L2_NUMBER_OF_BITS_OF_INDEX_SELECT) ||| HIT_INDEX) <<< WORDS_AND_BYTE_BITS
  find_place_in_l1 errno LINE new_paddr CACHE_TYPE CACHE_WORDS_PER_LINE uninitialised { cs with l2_cache := cache }
    ret next

/-- What the entries on the stack hold before they are written. -/
structure stack_t where
  the_new_cache_entry : line_t
  new_cache_entry : line_t

/-- The first-level cache of an access. -/
def l1_type : mem_access_t → cache_t
  | .INSTRUCTION => .L1_ICACHE
  | .DATA => .L1_DCACHE

/-- What a read returns and leaves behind. -/
structure read_t where
  code : error_code
  caches : caches
  word : word_t

/-- `word` is what the caller's word holds before the call. The calls given to
    `M_REQUIRE_NO_ERRNO` are returned from, without a word, when `errno` is set. -/
def cache_read (errno : Int) (mem : mem_space) (paddr : phy_addr_t) (access : mem_access_t) (cs : caches)
    (word : word_t) (replace : cache_replace_t) (stack : stack_t) : Option read_t :=
  M_REQUIRE (replace = .LRU) (some ⟨.ERR_POLICY,cs,word⟩) <|
  let paddr_converted := paddr_to_uint32_t paddr
  let cache_type := l1_type access
  M_REQUIRE (paddr_converted.toNat % L1_ICACHE_LINE = 0) (some ⟨.ERR_BAD_PARAMETER,cs,word⟩) <|
  let line : line_ptr := .NULL
  let hit_way := HIT_WAY_MISS
  let hit_index := HIT_INDEX_MISS
  M_REQUIRE_NO_ERRNO errno
    ((cache_hit cs .l1_cache paddr line cache_type).map (fun hit => ⟨hit.code,hit.caches,word⟩)) <|
  if hit_way ≠ HIT_WAY_MISS then
    match line with
    | .NULL => some ⟨.ERR_BAD_PARAMETER,cs,word⟩
    | _ => (read_line cs line (get_index_word paddr_converted cache_type).toNat).map (fun word => ⟨.ERR_NONE,cs,word⟩)
  else
    let line : line_ptr := .NULL
    M_REQUIRE_NO_ERRNO errno
      ((cache_hit cs .l2_cache paddr line cache_type).map (fun hit => ⟨hit.code,hit.caches,word⟩)) <|
    if hit_way = HIT_WAY_MISS then
      let the_new_cache_entry : cache_entry_t cache_ptr.l2_cache.type :=
        { v := 0, age := 0, tag := 0, line := stack.the_new_cache_entry }
      M_REQUIRE_NO_ERRNO errno
        ((cache_entry_init mem paddr the_new_cache_entry .L2_CACHE).map (fun initialised => ⟨initialised.1,cs,word⟩)) <|
      let line : line_ptr := .array the_new_cache_entry.line
      (read_line cs line (get_index_word paddr_converted cache_type).toNat).bind (fun word =>
        find_place_in_l1 errno line paddr_converted cache_type L1_ICACHE_WORDS_PER_LINE stack.new_cache_entry cs
          (fun code cs => some ⟨code,cs,word⟩) (fun cs => some ⟨.ERR_NONE,cs,word⟩))
    else
      (read_line cs line (get_index_word paddr_converted cache_type).toNat).bind (fun word =>
        -- The arguments of the macro are one place off: the address is given for
        -- the type, the type for the number of words, and that number for the index.
        deplacement_from_level2_to_level1 errno line (.of_value paddr_converted) cache_type.value
          (BitVec.ofNat 32 L1_ICACHE_WORDS_PER_LINE) hit_way hit_index stack.new_cache_entry cs
          (fun code cs => some ⟨code,cs,word⟩) (fun cs => some ⟨.ERR_NONE,cs,word⟩))

/-- What a byte read returns and leaves behind. -/
structure read_byte_t where
  code : error_code
  caches : caches
  byte : byte_t

def word_aligned (paddr : phy_addr_t) : phy_addr_t :=
  { paddr with page_offset := paddr.page_offset - paddr.page_offset % BitVec.ofNat 12 ALIGNED_OF_WORDS_NUMBER }

def bit_select (paddr : phy_addr_t) : BitVec 8 :=
  (paddr.page_offset % BitVec.ofNat 12 ALIGNED_OF_WORDS_NUMBER).setWidth 8

def cache_read_byte (errno : Int) (mem : mem_space) (paddr : phy_addr_t) (access : mem_access_t) (cs : caches)
    (byte : byte_t) (replace : cache_replace_t) (stack : stack_t) : Option read_byte_t :=
  M_REQUIRE ((paddr_to_uint32_t paddr).toNat % L1_ICACHE_LINE = 0) (some ⟨.ERR_BAD_PARAMETER,cs,byte⟩) <|
  let word_of_result : word_t := -1
  M_REQUIRE_NO_ERRNO errno
    ((cache_read errno mem (word_aligned paddr) access cs word_of_result replace stack).map (fun read =>
      ⟨read.code,read.caches,byte⟩)) <|
  some ⟨.ERR_NONE,cs,((word_of_result >>> ((bit_select paddr).toNat * OCTET)) &&& BYTE_MASK).setWidth 8⟩

def get_index_line_from_paddr (paddr : phy_addr_t) (mask_type : BitVec 32) : BitVec 32 :=
  (paddr_to_uint32_t paddr >>> (2 + 2)) &&& mask_type

def store_words (read : Nat → Option word_t) (words_per_line address : Nat) (mem : mem_space) : Option mem_space :=
  (List.range words_per_line).foldlM (fun mem i => (read i).bind (fun word => store mem (address + i) word)) mem

def update_memory (mem : mem_space) (physical_address : phy_addr_t) (lines words_per_line : Nat) (cs : caches)
    (line_to_insert : line_ptr) : Option mem_space :=
  store_words (read_line cs line_to_insert) words_per_line
    (get_line_from_mem_space (paddr_to_uint32_t physical_address) lines) mem

/-- What a write returns and leaves behind. -/
structure write_t where
  code : error_code
  mem : mem_space
  caches : caches

def write_process (errno : Int) (ptr : cache_ptr) (TYPE_ENUM : cache_t) (INDEX_MASK : BitVec 32) (LINES : Nat)
    (mem : mem_space) (paddr : phy_addr_t) (cs : caches) (word : word_t) (line : line_ptr) (hit_way : BitVec 8)
    (hit_index : BitVec 16) (next : mem_space → caches → Option write_t) : Option write_t := do
  let line_index := get_index_line_from_paddr paddr INDEX_MASK
  let written ←
    if inside : hit_index.toNat < L1_ICACHE_WORDS_PER_LINE then
      write_entry (cs.deref ptr) line_index.toNat hit_way.toNat (fun entry =>
        { entry with line := Function.update entry.line ⟨hit_index.toNat,inside⟩ word })
    else none
  let cs := cs.assign ptr written
  let entry ← cache_entry (cs.deref ptr) line_index.toNat hit_way.toNat
  M_REQUIRE_NO_ERRNO errno
    ((cache_insert (line_index.setWidth 16) hit_way entry cs ptr TYPE_ENUM).map (fun inserted =>
      ⟨inserted.1,mem,inserted.2⟩)) <|
    (LRU_age_update (cs.deref ptr) hit_way.toNat line_index.toNat).bind (fun aged =>
      (update_memory mem paddr LINES L1_ICACHE_WORDS_PER_LINE (cs.assign ptr aged) line).bind (fun mem =>
        M_REQUIRE_NO_ERRNO errno
          ((cache_hit (cs.assign ptr aged) .l1_cache paddr line TYPE_ENUM).map (fun hit => ⟨hit.code,mem,hit.caches⟩)) <|
          next mem (cs.assign ptr aged)))

/-- The lookup in L1 is missing: the first test is of the value `hit_way` starts with. -/
def cache_write (errno : Int) (mem : mem_space) (paddr : phy_addr_t) (cs : caches) (word : word_t)
    (replace : cache_replace_t) (stack : stack_t) : Option write_t :=
  M_REQUIRE (replace = .LRU) (some ⟨.ERR_POLICY,mem,cs⟩) <|
  let line : line_ptr := .NULL
  let hit_way := HIT_WAY_MISS
  let hit_index := HIT_INDEX_MISS
  if hit_way ≠ HIT_WAY_MISS then
    write_process errno .l1_cache .L1_DCACHE L1_INDEX_MASK L1_ICACHE_LINES mem paddr cs word line hit_way hit_index
      (fun mem cs => some ⟨.ERR_NONE,mem,cs⟩)
  else
    M_REQUIRE_NO_ERRNO errno
      ((cache_hit cs .l2_cache paddr line .L2_CACHE).map (fun hit => ⟨hit.code,mem,hit.caches⟩)) <|
    if hit_way ≠ HIT_WAY_MISS then
      write_process errno .l2_cache .L2_CACHE L2_INDEX_MASK L2_CACHE_LINES mem paddr cs word line hit_way hit_index
        (fun mem cs => some ⟨.ERR_NONE,mem,cs⟩)
    else do
      let paddr_converted := paddr_to_uint32_t paddr
      let address := get_line_from_mem_space paddr_converted L1_ICACHE_LINE
      let line_to_store ← copy_words (fun i => load mem (address + i)) L1_ICACHE_WORDS_PER_LINE (fun _ => 0)
      let word_index := (paddr_converted >>> 2) &&& WORD_INDEX_MASK
      let line_to_store ←
        if inside : word_index.toNat < L1_ICACHE_WORDS_PER_LINE then
          some (Function.update line_to_store ⟨word_index.toNat,inside⟩ word)
        else none
      let mem ← update_memory mem paddr L1_ICACHE_LINES L1_ICACHE_WORDS_PER_LINE cs (.array line_to_store)
      find_place_in_l1 errno (.array line_to_store) paddr_converted .L1_DCACHE L1_ICACHE_WORDS_PER_LINE
        stack.new_cache_entry cs (fun code cs => some ⟨code,mem,cs⟩) (fun cs => some ⟨.ERR_NONE,mem,cs⟩)

/-- `word` with a byte put at the selected place; the second mask is short of a digit. -/
def merge_byte (word : word_t) (p_byte : byte_t) (bit_select : BitVec 8) : word_t :=
  let byte : BitVec 32 := p_byte.setWidth 32
  match bit_select.toNat with
  | 0 => (word &&& 0xFFFFFF00) ||| byte
  | 1 => (word &&& 0xFFF00FF) ||| (byte <<< OCTET)
  | 2 => (word &&& 0xFF00FFFF) ||| (byte <<< (OCTET * 2))
  | _ => (word &&& 0x00FFFFFF) ||| (byte <<< (OCTET * 3))

/-- The access given to the read is `L1_DCACHE`, whose value is that of `DATA`. -/
def cache_write_byte (errno : Int) (mem : mem_space) (paddr : phy_addr_t) (cs : caches) (p_byte : byte_t)
    (replace : cache_replace_t) (stack : stack_t) : Option write_t :=
  M_REQUIRE (replace = .LRU) (some ⟨.ERR_POLICY,mem,cs⟩) <|
  let word : word_t := -1
  M_REQUIRE_NO_ERRNO errno
    ((cache_read errno mem (word_aligned paddr) .DATA cs word replace stack).map (fun read =>
      ⟨read.code,mem,read.caches⟩)) <|
  cache_write errno mem (word_aligned paddr) cs (merge_byte word p_byte (bit_select paddr)) replace stack

end CacheEmulator.CacheMng
