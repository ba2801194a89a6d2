import CacheEmulator.Lookup

/-!
The split of an address into a tag and a line index, and the addresses that are
made of these again. Lookup, insertion and eviction each have expressions of
their own for them, at two geometries; all of them name the same line.
-/
namespace CacheEmulator.LineAddress
open CacheEmulator.Error CacheEmulator.Memory CacheEmulator.Addr CacheEmulator.Cache CacheEmulator.CacheMng
open CacheEmulator.CacheCalls CacheEmulator.Coherence CacheEmulator.Lookup

variable {g : geometry}

/-! ### The expressions -/

/-- The tag that `cache_entry_init` and `find_place_in_cache` store. -/
def stored_tag (g : geometry) (paddr : BitVec 32) : BitVec g.TAG_BITS :=
  (paddr >>> g.TAG_REMAINING_BITS).setWidth g.TAG_BITS

/-- The line index of `cache_hit`. -/
def index_line (g : geometry) (paddr : BitVec 32) : Nat := paddr.toNat / L1_ICACHE_LINE % g.LINES

/-- The line index of `find_place_in_cache`, and the mask it is given for each cache. -/
def line_index (INDEX_MASK paddr : BitVec 32) : BitVec 16 := ((paddr >>> WORDS_AND_BYTE_BITS) &&& INDEX_MASK).setWidth 16
def index_mask : cache_ptr → BitVec 32
  | .l1_cache => L1_INDEX_MASK
  | .l2_cache => L2_INDEX_MASK

/-- The address that `search_empty_space_or_old_entry` gives for a victim. -/
def paddr_evicted (tag : BitVec g.TAG_BITS) (line_index : Nat) : BitVec 32 :=
  (tag.setWidth 32 <<< g.TAG_REMAINING_BITS) ||| (BitVec.ofNat 32 line_index <<< WORDS_AND_BYTE_BITS)

/-- The address that `deplacement_from_level2_to_level1` gives for the line it moves. -/
def new_paddr (tag : BitVec L2.TAG_BITS) (HIT_INDEX : BitVec 32) : BitVec 32 :=
  ((tag.setWidth 32 <<< L2_NUMBER_OF_BITS_OF_INDEX_SELECT) ||| HIT_INDEX) <<< WORDS_AND_BYTE_BITS

/-! ### Where they are computed -/

theorem entry_init_tag {mem : mem_space} {paddr : BitVec 32} {old entry : cache_entry_t g} {code : error_code}
    (initialised : entry_init mem paddr old = some (code,entry)) : entry.tag = stored_tag g paddr := by
  obtain ⟨line,_,same⟩ := Option.bind_eq_some_iff.mp initialised
  cases same
  rfl

/-- A way that is older than those before it leaves its address. -/
theorem search_turn_evicted (cache : cache g) (s : Fin g.LINES) (way : Fin g.WAYS) {found after : place_t}
    (older : found.age_max_found < (cache s way).age.setWidth 8) (turned : search_turn cache s.val found way = some after) :
    after.paddr_evicted = paddr_evicted (cache s way).tag s.val := by
  rw [search_turn,cache_entry_place] at turned
  by_cases empty : (cache s way).v = 0#1
  · simp only [Option.bind_eq_bind,Option.bind_some,empty,↓reduceIte,older] at turned
    cases turned
    rfl
  · simp only [Option.bind_eq_bind,Option.bind_some,empty,↓reduceIte,older] at turned
    cases turned
    rfl

/-- A hit leaves the line index that was searched. -/
theorem hit_process_index {paddr_converted : BitVec 32} {line : line_ptr} {cs : caches} {ptr : cache_ptr} {r : hit_t}
    (searched : cache_hit_process paddr_converted line cs ptr = some r) :
    r.hit_index = HIT_INDEX_MISS ∨ r.hit_index = BitVec.ofNat 16 (index_line ptr.type paddr_converted) := by
  obtain ⟨found,_,answered⟩ := Option.bind_eq_some_iff.mp searched
  cases found with
  | none =>
    cases answered
    exact .inl rfl
  | some way =>
    obtain ⟨_,_,same⟩ := Option.bind_eq_some_iff.mp answered
    cases same
    exact .inr rfl

/-- The line that leaves L2 is placed in L1 under the address of its slot. -/
theorem deplacement_new_paddr {α : Type} (errno : Int) (LINE : line_ptr) (CACHE_TYPE : cache_t)
    (CACHE_WORDS_PER_LINE : Nat) (HIT_INDEX : BitVec 32) (hit_way : BitVec 8) (hit_index : BitVec 16)
    (uninitialised : line_t) (cs : caches) (ret : error_code → caches → Option α) (next : caches → Option α) :
    deplacement_from_level2_to_level1 errno LINE CACHE_TYPE CACHE_WORDS_PER_LINE HIT_INDEX hit_way hit_index
        uninitialised cs ret next =
      (write_entry cs.l2_cache hit_index.toNat hit_way.toNat (fun entry => { entry with v := 0#1 })).bind (fun cache =>
        (cache_entry cache hit_index.toNat hit_way.toNat).bind (fun entry =>
          find_place_in_l1 errno LINE (new_paddr entry.tag HIT_INDEX) CACHE_TYPE CACHE_WORDS_PER_LINE uninitialised
            { cs with l2_cache := cache } ret next)) := rfl

/-! ### What they amount to -/

/-- The bits of an address are those of its tag and of what remains, and what
    remains counts the bytes of a way. -/
theorem tag_and_remaining (ptr : cache_ptr) : ptr.type.TAG_REMAINING_BITS + ptr.type.TAG_BITS = 32 := by
  cases ptr <;> rfl
theorem bytes_of_way (ptr : cache_ptr) : ptr.type.LINES * 16 = 2 ^ ptr.type.TAG_REMAINING_BITS := by
  cases ptr <;> rfl

theorem stored_tag_correct (ptr : cache_ptr) (paddr : BitVec 32) :
    (stored_tag ptr.type paddr).toNat = paddr.toNat / 2 ^ ptr.type.TAG_REMAINING_BITS := by
  rw [stored_tag,BitVec.toNat_setWidth,BitVec.toNat_ushiftRight,Nat.shiftRight_eq_div_pow]
  refine Nat.mod_eq_of_lt (Nat.div_lt_of_lt_mul ?_)
  rw [← Nat.pow_add,tag_and_remaining]
  exact paddr.isLt

/-- Division and mask give the same line index. -/
theorem line_index_agrees (ptr : cache_ptr) (paddr : BitVec 32) :
    (line_index (index_mask ptr) paddr).toNat = index_line ptr.type paddr :=
  line_index_correct ptr paddr (index_mask ptr) (by cases ptr <;> rfl)

/-- A line index above the offset in a line. -/
theorem shifted_index {i : Nat} (inside : i < 2 ^ 28) :
    (BitVec.ofNat 32 i <<< WORDS_AND_BYTE_BITS).toNat = i * 16 := by
  rw [BitVec.toNat_shiftLeft,BitVec.toNat_ofNat,Nat.shiftLeft_eq]
  simp only [WORDS_AND_BYTE_BITS]
  omega

/-- The address of a victim is that of the line in its slot. -/
theorem paddr_evicted_correct (ptr : cache_ptr) (tag : BitVec ptr.type.TAG_BITS) (s : Fin ptr.type.LINES) :
    (paddr_evicted tag s.val).toNat = line_address ptr.type s tag := by
  have bits := tag_and_remaining ptr
  have wide : (tag.setWidth 32).toNat = tag.toNat := Bits.toNat_widen tag (by omega)
  have in_way : s.val * 16 < 2 ^ ptr.type.TAG_REMAINING_BITS := by
    rw [← bytes_of_way]
    exact Nat.mul_lt_mul_of_pos_right s.isLt (by decide)
  have narrow : 2 ^ ptr.type.TAG_REMAINING_BITS ≤ 2 ^ 32 := Nat.pow_le_pow_right (by decide) (by omega)
  have index : (BitVec.ofNat 32 s.val <<< WORDS_AND_BYTE_BITS).toNat = s.val * 16 := shifted_index (by omega)
  have fits : tag.toNat * 2 ^ ptr.type.TAG_REMAINING_BITS < 2 ^ 32 := by
    rw [← bits,Nat.pow_add,Nat.mul_comm]
    exact Nat.mul_lt_mul_of_pos_left tag.isLt (Nat.two_pow_pos _)
  rw [paddr_evicted,line_address,Bits.toNat_shift_or,wide,index]
  · rw [index]
    exact in_way
  · rw [wide]
    exact fits

/-- The address of a line that leaves L2 is that of the line in its slot. -/
theorem new_paddr_correct (tag : BitVec L2.TAG_BITS) (s : Fin L2.LINES) :
    (new_paddr tag (BitVec.ofNat 32 s.val)).toNat = line_address L2 s tag := by
  have inside : s.val < 512 := s.isLt
  have narrow : tag.toNat < 2 ^ 19 := tag.isLt
  have wide : (tag.setWidth 32).toNat = tag.toNat := Bits.toNat_widen tag (by decide)
  have index : (BitVec.ofNat 32 s.val).toNat = s.val := by
    rw [BitVec.toNat_ofNat]
    exact Nat.mod_eq_of_lt (by omega)
  rw [new_paddr,BitVec.toNat_shiftLeft,L2_NUMBER_OF_BITS_OF_INDEX_SELECT,Bits.toNat_shift_or _ _ (by omega) (by omega),
    wide,index,Nat.shiftLeft_eq,line_address]
  simp only [WORDS_AND_BYTE_BITS,L2_CACHE_TAG_REMAINING_BITS]
  omega

/-- The address of the line around an address. -/
theorem rebuilt (ptr : cache_ptr) (paddr : BitVec 32) :
    (paddr_evicted (stored_tag ptr.type paddr) (index_line ptr.type paddr)).toNat = paddr.toNat / 16 * 16 := by
  have slot := paddr_evicted_correct ptr (stored_tag ptr.type paddr) (set_of ptr paddr.toNat)
  rw [line_address_correct ptr _ (stored_tag_correct ptr paddr)] at slot
  exact slot

/-- The split forgets the offset in the line, at both levels. -/
theorem split_of_line (ptr : cache_ptr) {left right : BitVec 32} (same : left.toNat / 16 = right.toNat / 16) :
    stored_tag ptr.type left = stored_tag ptr.type right ∧ index_line ptr.type left = index_line ptr.type right := by
  constructor
  · apply BitVec.eq_of_toNat_eq
    rw [stored_tag_correct,stored_tag_correct,← bytes_of_way,Nat.mul_comm,← Nat.div_div_eq_div_mul,same,
      Nat.div_div_eq_div_mul]
  · rw [index_line,index_line,L1_ICACHE_LINE,same]

/-- The address expressions agree: at each level the tag and the line index of an
    address are rebuilt to the address of its line, both ways of taking the line
    index are one, and what L1 evicts is split at L2 as the address itself is. -/
theorem line_addresses_agree (paddr : phy_addr_t) :
    (∀ ptr : cache_ptr, (paddr_evicted (stored_tag ptr.type (paddr_to_uint32_t paddr))
        (index_line ptr.type (paddr_to_uint32_t paddr))).toNat = address paddr / 16 * 16) ∧
    (new_paddr (stored_tag L2 (paddr_to_uint32_t paddr))
        (BitVec.ofNat 32 (index_line L2 (paddr_to_uint32_t paddr)))).toNat = address paddr / 16 * 16 ∧
    (∀ ptr : cache_ptr, (line_index (index_mask ptr) (paddr_to_uint32_t paddr)).toNat =
        index_line ptr.type (paddr_to_uint32_t paddr)) ∧
    (let victim := paddr_evicted (stored_tag L1 (paddr_to_uint32_t paddr)) (index_line L1 (paddr_to_uint32_t paddr));
      stored_tag L2 victim = stored_tag L2 (paddr_to_uint32_t paddr) ∧
        index_line L2 victim = index_line L2 (paddr_to_uint32_t paddr) ∧
        line_index (index_mask .l2_cache) victim = line_index (index_mask .l2_cache) (paddr_to_uint32_t paddr)) := by
  refine ⟨fun ptr => rebuilt ptr _,?_,fun ptr => line_index_agrees ptr _,?_⟩
  · have slot := new_paddr_correct (stored_tag L2 (paddr_to_uint32_t paddr)) (set_of .l2_cache (address paddr))
    exact slot.trans (line_address_correct .l2_cache _ (stored_tag_correct .l2_cache (paddr_to_uint32_t paddr)))
  · have first : (paddr_evicted (stored_tag L1 (paddr_to_uint32_t paddr)) (index_line L1 (paddr_to_uint32_t paddr))).toNat =
        (paddr_to_uint32_t paddr).toNat / 16 * 16 := rebuilt .l1_cache _
    have same_line : (paddr_evicted (stored_tag L1 (paddr_to_uint32_t paddr))
        (index_line L1 (paddr_to_uint32_t paddr))).toNat / 16 = (paddr_to_uint32_t paddr).toNat / 16 := by
      rw [first]
      exact Nat.mul_div_cancel _ (by decide)
    obtain ⟨tag,index⟩ := split_of_line .l2_cache same_line
    refine ⟨tag,index,?_⟩
    apply BitVec.eq_of_toNat_eq
    rw [line_index_agrees,line_index_agrees]
    exact index

end CacheEmulator.LineAddress
