import CacheEmulator.CacheMng

/-!
What the cache operations do, as far as the guards around their calls let them
go: with a clear `errno` the lookups, the fill and the insertion are skipped,
and with a set one the first of them is all that runs.
-/
namespace CacheEmulator.CacheCalls
open CacheEmulator.Error CacheEmulator.Memory CacheEmulator.Addr CacheEmulator.Cache CacheEmulator.CacheMng

variable {g : geometry} {α : Type}

/-! ### Addresses -/

/-- A physical address as a number. -/
def address (paddr : phy_addr_t) : Nat := (paddr_to_uint32_t paddr).toNat

theorem address_correct (paddr : phy_addr_t) :
    address paddr = paddr.phy_page_num.toNat * 2 ^ 12 + paddr.page_offset.toNat := by
  have small := paddr.phy_page_num.isLt
  have offset := paddr.page_offset.isLt
  have widePage : (paddr.phy_page_num.setWidth 32).toNat = paddr.phy_page_num.toNat := Bits.toNat_widen _ (by decide)
  have wideOffset : (paddr.page_offset.setWidth 32).toNat = paddr.page_offset.toNat := Bits.toNat_widen _ (by decide)
  rw [address,paddr_to_uint32_t,PAGE_OFFSET,Bits.toNat_shift_or _ _ (by omega) (by omega),widePage,wideOffset]

/-- The line index of an address. -/
def set_of (ptr : cache_ptr) (p : Nat) : Fin ptr.type.LINES :=
  ⟨p / L1_ICACHE_LINE % ptr.type.LINES,Nat.mod_lt _ (by cases ptr <;> decide)⟩

/-- A line index taken out by a mask of up to 16 bits. -/
theorem masked_index (paddr mask : BitVec 32) {width : Nat} (narrow : width ≤ 16) (masks : mask.toNat + 1 = 2 ^ width) :
    (((paddr >>> WORDS_AND_BYTE_BITS) &&& mask).setWidth 16).toNat = paddr.toNat / L1_ICACHE_LINE % 2 ^ width := by
  have wide : 2 ^ width ≤ 2 ^ 16 := Nat.pow_le_pow_right (by decide) narrow
  have isMask : mask = BitVec.ofNat 32 (2 ^ width - 1) := by
    apply BitVec.eq_of_toNat_eq
    rw [BitVec.toNat_ofNat]
    omega
  have shifted : (paddr >>> WORDS_AND_BYTE_BITS).toNat = paddr.toNat / L1_ICACHE_LINE := by
    rw [BitVec.toNat_ushiftRight,Nat.shiftRight_eq_div_pow]
    rfl
  rw [isMask,BitVec.toNat_setWidth,Bits.toNat_and_mask _ (by omega),shifted]
  exact Nat.mod_eq_of_lt ((Nat.mod_lt _ (Nat.two_pow_pos width)).trans_le wide)

theorem line_index_correct (ptr : cache_ptr) (paddr : BitVec 32) (mask : BitVec 32)
    (masks : mask.toNat + 1 = ptr.type.LINES) :
    (((paddr >>> WORDS_AND_BYTE_BITS) &&& mask).setWidth 16).toNat = (set_of ptr paddr.toNat).val := by
  cases ptr with
  | l1_cache => exact masked_index paddr mask (show 6 ≤ 16 by decide) masks
  | l2_cache => exact masked_index paddr mask (show 9 ≤ 16 by decide) masks

/-! ### The search for a place -/

/-- The last invalid way of a line index. -/
def last_invalid (cache : cache g) (s : Fin g.LINES) : Option (Fin g.WAYS) :=
  (List.finRange g.WAYS).reverse.find? (fun w => (cache s w).v = 0#1)

theorem last_invalid_invalid {cache : cache g} {s : Fin g.LINES} {w : Fin g.WAYS} (last : last_invalid cache s = some w) :
    (cache s w).v = 0#1 := by
  rw [last_invalid] at last
  simpa using List.find?_some last

/-- No age is greater than the one the search starts with, so only invalid ways count. -/
theorem search_turn_correct (cache : cache g) (s : Fin g.LINES) (way : Fin g.WAYS) {found : place_t}
    (oldest : found.age_max_found = -1) :
    search_turn cache s.val found way = some (if (cache s way).v = 0#1
      then { found with cold_case := 1, way_to_insert := BitVec.ofNat 8 way.val } else found) := by
  have notOlder : ∀ age : BitVec 8, ¬ (-1 : BitVec 8) < age := by
    intro age
    have small := age.isLt
    rw [BitVec.lt_def,show (-1 : BitVec 8).toNat = 255 from rfl]
    omega
  simp only [search_turn,cache_entry_place,Option.bind_eq_bind,Option.bind_some]
  by_cases invalid : (cache s way).v = 0#1
  · simp only [invalid,↓reduceIte]
    rw [if_neg (by rw [oldest]; exact notOlder _)]
  · simp only [invalid,↓reduceIte]
    rw [if_neg (by rw [oldest]; exact notOlder _)]

theorem search_correct (cache : cache g) (s : Fin g.LINES) (line_to_eject : Option (Nat × Nat)) :
    search_empty_space_or_old_entry cache s.val line_to_eject = some (match last_invalid cache s with
      | none => ⟨0,-1,-1,line_to_eject,-1⟩
      | some w => ⟨1,-1,BitVec.ofNat 8 w.val,line_to_eject,-1⟩) := by
  have loop : ∀ (ways : List (Fin g.WAYS)) (found : place_t), found.age_max_found = -1 →
      ways.foldlM (search_turn cache s.val) found = some (match ways.reverse.find? (fun w => (cache s w).v = 0#1) with
        | none => found
        | some w => { found with cold_case := 1, way_to_insert := BitVec.ofNat 8 w.val }) := by
    intro ways
    induction ways with
    | nil => intro found _; rfl
    | cons way ways ih =>
      intro found oldest
      rw [List.foldlM_cons,search_turn_correct cache s way oldest,Option.bind_eq_bind,Option.bind_some,List.reverse_cons,
        List.find?_append]
      by_cases invalid : (cache s way).v = 0#1
      · rw [if_pos invalid,ih { found with cold_case := 1, way_to_insert := BitVec.ofNat 8 way.val } oldest]
        cases ways.reverse.find? (fun w => (cache s w).v = 0#1) with
        | none => simp [invalid]
        | some w => simp
      · rw [if_neg invalid,ih _ oldest]
        cases ways.reverse.find? (fun w => (cache s w).v = 0#1) with
        | none => simp [invalid]
        | some w => simp
  rw [search_empty_space_or_old_entry,loop _ _ rfl,last_invalid]

/-! ### Lines of four words -/

/-- A copy of the first words of a line: these are the words read, the others the old ones. -/
theorem copy_words_iff {read : Nat → Option word_t} {old : line_t} : ∀ {words : Nat} {line : line_t},
    words ≤ L1_ICACHE_WORDS_PER_LINE → (copy_words read words old = some line ↔
      ∀ i : Fin L1_ICACHE_WORDS_PER_LINE, if i.val < words then read i.val = some (line i) else line i = old i) := by
  intro words
  induction words with
  | zero =>
    intro line _
    simp only [copy_words,List.range_zero,List.foldlM_nil,Option.pure_def,Option.some.injEq,Nat.not_lt_zero,↓reduceIte]
    exact ⟨fun same i => congrFun same.symm i,fun same => (funext same).symm⟩
  | succ n ih =>
    intro line inside
    have turn : copy_words read (n + 1) old = (copy_words read n old).bind (fun line =>
        (read n).bind (fun word => some (Function.update line ⟨n,inside⟩ word))) := by
      have below : n < L1_ICACHE_WORDS_PER_LINE := inside
      simp only [copy_words,List.range_succ,List.foldlM_append,List.foldlM_cons,List.foldlM_nil,Option.bind_eq_bind,
        below,↓reduceDIte,Option.pure_def,Option.bind_fun_some]
    rw [turn]
    constructor
    · intro copied i
      obtain ⟨before,first,last⟩ := Option.bind_eq_some_iff.mp copied
      obtain ⟨word,readLast,same⟩ := Option.bind_eq_some_iff.mp last
      have earlier := (ih (Nat.le_of_succ_le inside)).mp first i
      obtain rfl := Option.some.inj same
      rcases Nat.lt_trichotomy i.val n with low | isLast | high
      · have other : i ≠ ⟨n,inside⟩ := fun same => Nat.ne_of_lt low (congrArg Fin.val same)
        rw [if_pos low] at earlier
        rw [if_pos (by omega),Function.update_of_ne other,earlier]
      · have same : i = ⟨n,inside⟩ := Fin.ext isLast
        rw [if_pos (by omega),same,Function.update_self,readLast]
      · have other : i ≠ ⟨n,inside⟩ := fun same => Nat.ne_of_gt high (congrArg Fin.val same)
        rw [if_neg (by omega)] at earlier
        rw [if_neg (by omega),Function.update_of_ne other,earlier]
    · intro words
      have last := words ⟨n,inside⟩
      rw [if_pos (Nat.lt_succ_self n)] at last
      have first : copy_words read n old = some (Function.update line ⟨n,inside⟩ (old ⟨n,inside⟩)) := by
        refine (ih (Nat.le_of_succ_le inside)).mpr ?_
        intro i
        have here := words i
        rcases Nat.lt_trichotomy i.val n with low | isLast | high
        · have other : i ≠ ⟨n,inside⟩ := fun same => Nat.ne_of_lt low (congrArg Fin.val same)
          rw [if_pos (by omega)] at here
          rw [if_pos low,Function.update_of_ne other,here]
        · have same : i = ⟨n,inside⟩ := Fin.ext isLast
          rw [if_neg (by omega),same,Function.update_self]
        · have other : i ≠ ⟨n,inside⟩ := fun same => Nat.ne_of_gt high (congrArg Fin.val same)
          rw [if_neg (by omega)] at here
          rw [if_neg (by omega),Function.update_of_ne other,here]
      simp only [first,last,Option.bind_some,Function.update_idem,Function.update_eq_self]

theorem copy_words_line {read : Nat → Option word_t} {old line : line_t} :
    copy_words read L1_ICACHE_WORDS_PER_LINE old = some line ↔
      ∀ i : Fin L1_ICACHE_WORDS_PER_LINE, read i.val = some (line i) := by
  rw [copy_words_iff (Nat.le_refl _)]
  refine forall_congr' ?_
  intro i
  rw [if_pos i.isLt]

theorem read_array (cs : caches) (words : line_t) (i : Fin L1_ICACHE_WORDS_PER_LINE) :
    read_line cs (.array words) i.val = some (words i) := by
  simp only [read_line,i.isLt,↓reduceDIte]

theorem copy_array (cs : caches) (words old : line_t) :
    copy_words (read_line cs (.array words)) L1_ICACHE_WORDS_PER_LINE old = some words :=
  copy_words_line.mpr (read_array cs words)

theorem copy_NULL (cs : caches) (old : line_t) : copy_words (read_line cs .NULL) L1_ICACHE_WORDS_PER_LINE old = none := by
  refine Option.eq_none_iff_forall_ne_some.mpr ?_
  intro line copied
  have first := copy_words_line.mp copied ⟨0,by decide⟩
  cases first

/-- The word of a line, by its number. -/
def word_of (line : line_t) (i : Nat) : word_t := line ⟨i % L1_ICACHE_WORDS_PER_LINE,Nat.mod_lt _ (by decide)⟩

theorem word_of_inside (line : line_t) {i : Nat} (inside : i < L1_ICACHE_WORDS_PER_LINE) :
    word_of line i = line ⟨i,inside⟩ := by
  simp only [word_of,Nat.mod_eq_of_lt inside]

theorem read_array_words (cs : caches) (words : line_t) :
    ∀ i < L1_ICACHE_WORDS_PER_LINE, read_line cs (.array words) i = some (word_of words i) := by
  intro i inside
  simp only [read_line,inside,↓reduceDIte,word_of_inside words inside]

section
variable {read : Nat → Option word_t} {word : Nat → word_t} {base : Nat}

theorem store_words_succ (n : Nat) (mem : mem_space) : store_words read (n + 1) base mem =
    (store_words read n base mem).bind (fun mem => (read n).bind (fun word => store mem (base + n) word)) := by
  simp only [store_words,List.range_succ,List.foldlM_append,List.foldlM_cons,List.foldlM_nil,Option.bind_eq_bind,
    Option.pure_def,Option.bind_fun_some]

theorem store_words_capacity {mem : mem_space} : ∀ {n : Nat} {after : mem_space},
    store_words read n base mem = some after → after.capacity = mem.capacity := by
  intro n
  induction n with
  | zero =>
    intro after stored
    obtain rfl := Option.some.inj stored
    rfl
  | succ n ih =>
    intro after stored
    rw [store_words_succ] at stored
    obtain ⟨between,first,last⟩ := Option.bind_eq_some_iff.mp stored
    obtain ⟨word,_,last⟩ := Option.bind_eq_some_iff.mp last
    exact (store_capacity last).trans (ih first)

/-- A view of the memory in which a store changes the part of its word: the stores
    of a loop change exactly the parts of the words they name. -/
theorem store_words_view {β : Type} {view : mem_space → Nat → β} {part : Nat → Nat} {new : word_t → Nat → β}
    (one : ∀ {mem after : mem_space} {index : Nat} {word : word_t}, store mem index word = some after →
      ∀ a, view after a = if part a = index then new word a else view mem a) {mem : mem_space} :
    ∀ {n : Nat} {after : mem_space}, (∀ i < n, read i = some (word i)) → store_words read n base mem = some after →
      ∀ a, view after a = if base ≤ part a ∧ part a < base + n then new (word (part a - base)) a else view mem a := by
  intro n
  induction n with
  | zero =>
    intro after _ stored a
    obtain rfl := Option.some.inj stored
    rw [if_neg (by omega)]
  | succ n ih =>
    intro after reads stored a
    rw [store_words_succ] at stored
    obtain ⟨between,first,last⟩ := Option.bind_eq_some_iff.mp stored
    rw [reads n (Nat.lt_succ_self n),Option.bind_some] at last
    rw [one last,ih (fun i earlier => reads i (Nat.lt_succ_of_lt earlier)) first]
    by_cases here : part a = base + n
    · rw [if_pos here,if_pos (by omega),here,Nat.add_sub_cancel_left]
    · rw [if_neg here]
      by_cases earlier : base ≤ part a ∧ part a < base + n
      · rw [if_pos earlier,if_pos (by omega)]
      · rw [if_neg earlier,if_neg (by omega)]

/-- The stores of a loop change exactly the words they name. -/
theorem store_words_correct {mem after : mem_space} {n : Nat} (reads : ∀ i < n, read i = some (word i))
    (stored : store_words read n base mem = some after) : after.capacity = mem.capacity ∧
      ∀ a, load after a = if base ≤ a ∧ a < base + n then some (word (a - base)) else load mem a :=
  ⟨store_words_capacity stored,store_words_view (fun stored a => load_store stored a) reads stored⟩

theorem store_words_isSome {mem : mem_space} : ∀ {n : Nat}, (∀ i < n, read i = some (word i)) →
    ((store_words read n base mem).isSome ↔ ∀ i < n, 4 * (base + i) + 3 < mem.capacity) := by
  intro n
  induction n with
  | zero =>
    intro _
    refine ⟨fun _ i none => absurd none (Nat.not_lt_zero i),fun _ => rfl⟩
  | succ n ih =>
    intro reads
    have earlier := ih (fun i below => reads i (Nat.lt_succ_of_lt below))
    rw [store_words_succ]
    cases first : store_words read n base mem with
    | none =>
      rw [first] at earlier
      constructor
      · intro defined; cases defined
      · intro inside
        exact absurd (earlier.mpr (fun i below => inside i (Nat.lt_succ_of_lt below))) (by decide)
    | some between =>
      have capacity := store_words_capacity first
      rw [first] at earlier
      rw [Option.bind_some,reads n (Nat.lt_succ_self n),Option.bind_some,store_isSome,capacity]
      constructor
      · intro last i below
        rcases Nat.lt_succ_iff_lt_or_eq.mp below with low | same
        · exact earlier.mp rfl i low
        · rw [same]; exact last
      · intro inside
        exact inside n (Nat.lt_succ_self n)

/-- Storing the words that are there already changes nothing. -/
theorem store_words_same {mem : mem_space} : ∀ {n : Nat}, (∀ i < n, read i = some (word i)) →
    (∀ i < n, load mem (base + i) = some (word i)) → store_words read n base mem = some mem := by
  intro n
  induction n with
  | zero => intro _ _; rfl
  | succ n ih =>
    intro reads loads
    rw [store_words_succ,ih (fun i below => reads i (Nat.lt_succ_of_lt below))
      (fun i below => loads i (Nat.lt_succ_of_lt below)),Option.bind_some,reads n (Nat.lt_succ_self n),Option.bind_some]
    exact store_same (loads n (Nat.lt_succ_self n))
end

/-! ### Finding a place with a clear `errno` -/

/-- The first-level ages after a fill of a way, which inserts nothing. -/
def aged (cs : caches) (p : Nat) (w : Fin L1.WAYS) : caches :=
  { cs with l1_cache := with_ages cs.l1_cache (set_of .l1_cache p) (fun v =>
      increased L1 (v.val = w.val) (cs.l1_cache (set_of .l1_cache p) v).age) }

/-- Without a line to copy the search for a place has no result. -/
theorem find_place_in_cache_NULL (errno : Int) (ptr : cache_ptr) (paddr : BitVec 32) (type : cache_t)
    (mask : BitVec 32) (uninitialised : line_t) (cs : caches) (ret : error_code → caches → Option α)
    (next : caches → BitVec 32 → line_ptr → Option α) :
    find_place_in_cache errno ptr .NULL paddr type L1_ICACHE_WORDS_PER_LINE mask uninitialised cs ret next = none := by
  simp only [find_place_in_cache,copy_NULL,Option.bind_eq_bind,Option.bind_none]
  rw [Option.bind_fun_none]

theorem way_number {g : geometry} (few : g.WAYS ≤ 256) (w : Fin g.WAYS) : (BitVec.ofNat 8 w.val).toNat = w.val := by
  have small := w.isLt
  rw [BitVec.toNat_ofNat]
  omega

/-- A set with an invalid way is aged and left; in a full one the search finds
    no line to eject, and the fill of L2 then copies from NULL. -/
theorem find_place_in_l1_clear (words uninitialised : line_t) (paddr : BitVec 32) (type : cache_t) (cs : caches)
    (ret : error_code → caches → Option α) (next : caches → Option α) :
    find_place_in_l1 0 (.array words) paddr type L1_ICACHE_WORDS_PER_LINE uninitialised cs ret next =
      match last_invalid cs.l1_cache (set_of .l1_cache paddr.toNat) with
      | none => none
      | some w => ret .ERR_NONE (aged cs paddr.toNat w) := by
  have line_index := line_index_correct .l1_cache paddr L1_INDEX_MASK rfl
  have searched := search_correct cs.l1_cache (set_of .l1_cache paddr.toNat) none
  rw [find_place_in_l1,find_place_in_cache]
  simp only [line_index,caches.deref,copy_array,Option.bind_eq_bind]
  cases found : last_invalid cs.l1_cache (set_of .l1_cache paddr.toNat) with
  | none =>
    rw [found] at searched
    rw [searched]
    simp only [Option.bind_some,no_errno_clear]
    rw [if_neg (by decide)]
    simp only [find_place_in_cache_NULL]
    rw [Option.bind_fun_none]
  | some w =>
    rw [found] at searched
    rw [searched]
    simp only [Option.bind_some,no_errno_clear,way_number (g := L1) (by decide) w,LRU_age_increase_correct,↓reduceIte]
    rfl

/-! ### The calls -/

/-- The word index at which the line of an address starts, and its word in the line. -/
def line_base (p : Nat) : Nat := p / 16 * 4
def word_number (p : Nat) : Nat := p / 4 % 4

theorem line_base_correct (paddr : BitVec 32) :
    get_line_from_mem_space paddr L1_ICACHE_LINE = line_base paddr.toNat := by
  simp only [get_line_from_mem_space,L1_ICACHE_LINE,line_base]
  omega

theorem block_base_correct (paddr : BitVec 32) :
    get_line_from_mem_space paddr L1_ICACHE_LINES = paddr.toNat / 64 * 16 := by
  simp only [get_line_from_mem_space,L1_ICACHE_LINES]
  omega

theorem index_word_correct (paddr : BitVec 32) {type : cache_t} {ptr : cache_ptr} (known : type.cast = some ptr) :
    (get_index_word paddr type).toNat = word_number paddr.toNat := by
  have value : (((paddr >>> 2) % BitVec.ofNat 32 L1_ICACHE_WORDS_PER_LINE).setWidth 8).toNat =
      word_number paddr.toNat := by
    rw [BitVec.toNat_setWidth,BitVec.toNat_umod,BitVec.toNat_ushiftRight,Nat.shiftRight_eq_div_pow,word_number]
    exact Nat.mod_eq_of_lt (Nat.lt_of_lt_of_le (Nat.mod_lt _ (by decide)) (by decide))
  cases type with
  | L1_ICACHE => exact value
  | L1_DCACHE => exact value
  | L2_CACHE => exact value
  | unknown value => cases known

theorem read_array_word (cs : caches) (words : line_t) {i : Nat} (inside : i < L1_ICACHE_WORDS_PER_LINE) :
    read_line cs (.array words) i = some (word_of words i) := read_array_words cs words i inside

theorem l1_type_cast (access : mem_access_t) : (l1_type access).cast = some .l1_cache := by
  cases access with
  | INSTRUCTION => rfl
  | DATA => rfl

theorem read_misaligned (errno : Int) (mem : mem_space) {paddr : phy_addr_t} (access : mem_access_t) (cs : caches)
    (word : word_t) (stack : stack_t) (misaligned : address paddr % 16 ≠ 0) :
    cache_read errno mem paddr access cs word .LRU stack = some ⟨.ERR_BAD_PARAMETER,cs,word⟩ := by
  have refused : ¬ (paddr_to_uint32_t paddr).toNat % L1_ICACHE_LINE = 0 := misaligned
  unfold cache_read
  rw [require_holds rfl]
  exact require_fails refused _ _

/-- A read with a clear `errno` skips the lookups and the fill: it delivers what
    the stack held, and ages a set that has an invalid way. -/
theorem cache_read_clear (mem : mem_space) {paddr : phy_addr_t} (access : mem_access_t) (cs : caches) (word : word_t)
    (stack : stack_t) (aligned : address paddr % 16 = 0) :
    cache_read 0 mem paddr access cs word .LRU stack =
      (last_invalid cs.l1_cache (set_of .l1_cache (address paddr))).map (fun w =>
        ⟨.ERR_NONE,aged cs (address paddr) w,word_of stack.the_new_cache_entry 0⟩) := by
  have accepted : (paddr_to_uint32_t paddr).toNat % L1_ICACHE_LINE = 0 := aligned
  have first : word_number (paddr_to_uint32_t paddr).toNat = 0 := by
    have aligned' : (paddr_to_uint32_t paddr).toNat % 16 = 0 := aligned
    rw [word_number]
    omega
  have miss : ¬ HIT_WAY_MISS ≠ HIT_WAY_MISS := fun different => different rfl
  unfold cache_read
  rw [require_holds rfl]
  dsimp only
  rw [require_holds accepted,no_errno_clear,if_neg miss,no_errno_clear,if_pos rfl,no_errno_clear,
    index_word_correct _ (l1_type_cast access),first,read_array_word cs _ (by decide),Option.bind_some,find_place_in_l1_clear]
  rw [address]
  cases last_invalid cs.l1_cache (set_of .l1_cache (paddr_to_uint32_t paddr).toNat) with
  | none => rfl
  | some w => rfl

/-! ### Lookups -/

/-- The way where a lookup stops with a hit: the first one with the tag, if no
    way before it is invalid. -/
def first_hit (cache : cache g) (s : Fin g.LINES) (tag : BitVec 32) : List (Fin g.WAYS) → Option (Fin g.WAYS)
  | [] => none
  | way :: ways =>
    if (cache s way).v = 0#1 then none
    else if (cache s way).tag.setWidth 32 = tag then some way
    else first_hit cache s tag ways

theorem find_way_correct (cache : cache g) (s : Fin g.LINES) (tag : BitVec 32) (ways : List (Fin g.WAYS)) :
    find_way cache s.val tag ways = some (first_hit cache s tag ways) := by
  induction ways with
  | nil => rfl
  | cons way ways ih =>
    simp only [find_way,first_hit,cache_entry_place,Option.bind_eq_bind,Option.bind_some,ih]
    split
    · rfl
    · split
      · rfl
      · rfl

/-- The way in which a level holds an address, as its lookup sees it. -/
def hit_in (ptr : cache_ptr) (cache : cache ptr.type) (p : Nat) : Option (Fin ptr.type.WAYS) :=
  first_hit cache (set_of ptr p) (BitVec.ofNat 32 (p / 2 ^ ptr.type.TAG_REMAINING_BITS)) (List.finRange ptr.type.WAYS)

/-- A level after a lookup: the ages of the set change on a hit. -/
def looked_up (ptr : cache_ptr) (cache : cache ptr.type) (p : Nat) : Cache.cache ptr.type :=
  match hit_in ptr cache p with
  | none => cache
  | some way => with_ages cache (set_of ptr p) (updated (ages cache (set_of ptr p)) way)

/-- What a lookup answers. -/
def hit_of (cs : caches) (ptr : cache_ptr) (p : Nat) (line : line_ptr) : hit_t :=
  match hit_in ptr (cs.deref ptr) p with
  | none => ⟨.ERR_NONE,cs,line,HIT_WAY_MISS,HIT_INDEX_MISS⟩
  | some way => ⟨.ERR_NONE,cs.assign ptr (looked_up ptr (cs.deref ptr) p),.entry ptr (set_of ptr p).val way.val,
      BitVec.ofNat 8 way.val,BitVec.ofNat 16 (set_of ptr p).val⟩

theorem cache_hit_total (cs : caches) {ptr : cache_ptr} (paddr : phy_addr_t) (line : line_ptr) {type : cache_t}
    (cast : type.cast = some ptr) : cache_hit cs ptr paddr line type = some (hit_of cs ptr (address paddr) line) := by
  have tag : paddr_to_uint32_t paddr >>> ptr.type.TAG_REMAINING_BITS =
      BitVec.ofNat 32 (address paddr / 2 ^ ptr.type.TAG_REMAINING_BITS) := by
    apply BitVec.eq_of_toNat_eq
    have small := (paddr_to_uint32_t paddr).isLt
    rw [BitVec.toNat_ushiftRight,Nat.shiftRight_eq_div_pow,BitVec.toNat_ofNat,address]
    exact (Nat.mod_eq_of_lt (Nat.lt_of_le_of_lt (Nat.div_le_self _ _) small)).symm
  have searched := find_way_correct (cs.deref ptr) (set_of ptr (address paddr))
    (BitVec.ofNat 32 (address paddr / 2 ^ ptr.type.TAG_REMAINING_BITS)) (List.finRange ptr.type.WAYS)
  have index : (paddr_to_uint32_t paddr).toNat / L1_ICACHE_LINE % ptr.type.LINES = (set_of ptr (address paddr)).val := rfl
  simp only [cache_hit,cast,↓reduceIte,cache_hit_process,index,tag,searched,Option.bind_eq_bind,Option.bind_some]
  unfold hit_of looked_up hit_in
  cases first_hit (cs.deref ptr) (set_of ptr (address paddr))
      (BitVec.ofNat 32 (address paddr / 2 ^ ptr.type.TAG_REMAINING_BITS)) (List.finRange ptr.type.WAYS) with
  | none => rfl
  | some way => simp only [LRU_age_update_correct,Option.bind_some]

theorem cache_hit_correct (cs : caches) {ptr : cache_ptr} (paddr : phy_addr_t) (line : line_ptr) {type : cache_t}
    (cast : type.cast = some ptr) :
    ∃ hit, cache_hit cs ptr paddr line type = some hit ∧ hit.code = .ERR_NONE ∧
      hit.caches = cs.assign ptr (looked_up ptr (cs.deref ptr) (address paddr)) := by
  refine ⟨_,cache_hit_total cs paddr line cast,?_⟩
  unfold hit_of looked_up
  cases hit_in ptr (cs.deref ptr) (address paddr) with
  | none => exact ⟨rfl,(caches.assign_deref cs ptr).symm⟩
  | some way => exact ⟨rfl,rfl⟩

/-- A read with `errno` set is the lookup in L1 and nothing else. -/
theorem cache_read_set {errno : Int} (set : errno ≠ 0) (mem : mem_space) {paddr : phy_addr_t} (access : mem_access_t)
    (cs : caches) (word : word_t) (stack : stack_t) (aligned : address paddr % 16 = 0) :
    cache_read errno mem paddr access cs word .LRU stack =
      some ⟨.ERR_NONE,{ cs with l1_cache := looked_up .l1_cache cs.l1_cache (address paddr) },word⟩ := by
  have accepted : (paddr_to_uint32_t paddr).toNat % L1_ICACHE_LINE = 0 := aligned
  obtain ⟨hit,looked,code,after⟩ := cache_hit_correct cs paddr .NULL (l1_type_cast access)
  unfold cache_read
  rw [require_holds rfl]
  dsimp only
  rw [require_holds accepted,no_errno_set set,looked,Option.map_some,code,after]
  rfl

/-- A write with `errno` set is the lookup in L2 and nothing else. -/
theorem cache_write_set {errno : Int} (set : errno ≠ 0) (mem : mem_space) (paddr : phy_addr_t) (cs : caches)
    (word : word_t) (stack : stack_t) :
    cache_write errno mem paddr cs word .LRU stack =
      some ⟨.ERR_NONE,mem,{ cs with l2_cache := looked_up .l2_cache cs.l2_cache (address paddr) }⟩ := by
  have miss : ¬ HIT_WAY_MISS ≠ HIT_WAY_MISS := fun different => different rfl
  obtain ⟨hit,looked,code,after⟩ := cache_hit_correct cs paddr .NULL (show cache_t.L2_CACHE.cast = some .l2_cache from rfl)
  unfold cache_write
  rw [require_holds rfl,if_neg miss,no_errno_set set,looked,Option.map_some,code,after]
  rfl

/-! ### Writes -/

/-- The four words of memory from a word index on. -/
def load_line (mem : mem_space) (base : Nat) : Option line_t :=
  copy_words (fun i => load mem (base + i)) L1_ICACHE_WORDS_PER_LINE (fun _ => 0)

theorem load_line_some {mem : mem_space} {base : Nat} {line : line_t} :
    load_line mem base = some line ↔ ∀ i : Fin L1_ICACHE_WORDS_PER_LINE, load mem (base + i.val) = some (line i) :=
  copy_words_line

/-- The line of an address lies inside the memory. -/
def LineInside (mem : mem_space) (p : Nat) : Prop := 4 * (line_base p + 3) + 3 < mem.capacity

instance (mem : mem_space) (p : Nat) : Decidable (LineInside mem p) := inferInstanceAs (Decidable (_ < _))

theorem load_line_isSome (mem : mem_space) (p : Nat) : (load_line mem (line_base p)).isSome ↔ LineInside mem p := by
  constructor
  · intro defined
    obtain ⟨line,loaded⟩ := Option.isSome_iff_exists.mp defined
    have last := load_line_some.mp loaded ⟨3,by decide⟩
    rw [LineInside,← load_isSome,last,Option.isSome_some]
  · intro inside
    rw [LineInside] at inside
    have words : ∀ i : Fin L1_ICACHE_WORDS_PER_LINE, ∃ word, load mem (line_base p + i.val) = some word := by
      intro i
      have small : i.val < 4 := i.isLt
      refine Option.isSome_iff_exists.mp ((load_isSome _ _).mpr ?_)
      omega
    obtain ⟨line,loaded⟩ := Classical.axiomOfChoice words
    rw [load_line_some.mpr loaded,Option.isSome_some]

/-- The line of an address with the word written into it. -/
def new_line (old : line_t) (p : Nat) (word : word_t) : line_t :=
  Function.update old ⟨word_number p,Nat.mod_lt _ (by decide)⟩ word

/-- The stores of a write: at the start of the block of 64 bytes, not of the line. -/
def store_line (mem : mem_space) (p : Nat) (line : line_t) : Option mem_space :=
  store_words (fun i => some (word_of line i)) L1_ICACHE_WORDS_PER_LINE (p / 64 * 16) mem

theorem store_words_congr {read read' : Nat → Option word_t} (base : Nat) (mem : mem_space) :
    ∀ {n : Nat}, (∀ i < n, read i = read' i) → store_words read n base mem = store_words read' n base mem := by
  intro n
  induction n with
  | zero => intro _; rfl
  | succ n ih =>
    intro same
    rw [store_words_succ,store_words_succ,ih (fun i below => same i (Nat.lt_succ_of_lt below)),same n (Nat.lt_succ_self n)]

/-- A write with a clear `errno` skips the lookup and the insertion. -/
theorem cache_write_clear (mem : mem_space) (paddr : phy_addr_t) (cs : caches) (word : word_t) (stack : stack_t) :
    cache_write 0 mem paddr cs word .LRU stack =
      (load_line mem (line_base (address paddr))).bind (fun old =>
        (store_line mem (address paddr) (new_line old (address paddr) word)).bind (fun after =>
          (last_invalid cs.l1_cache (set_of .l1_cache (address paddr))).map (fun w =>
            ⟨.ERR_NONE,after,aged cs (address paddr) w⟩))) := by
  have miss : ¬ HIT_WAY_MISS ≠ HIT_WAY_MISS := fun different => different rfl
  have index : ((paddr_to_uint32_t paddr >>> 2) &&& WORD_INDEX_MASK).toNat = word_number (address paddr) := by
    have masked := Bits.toNat_and_mask (paddr_to_uint32_t paddr >>> 2) (show 2 ≤ 32 by decide)
    have shifted : (paddr_to_uint32_t paddr >>> 2).toNat = address paddr / 4 := by
      rw [BitVec.toNat_ushiftRight,Nat.shiftRight_eq_div_pow]
      rfl
    rw [shifted] at masked
    exact masked
  have small : word_number (address paddr) < L1_ICACHE_WORDS_PER_LINE := Nat.mod_lt _ (by decide)
  unfold cache_write
  rw [require_holds rfl,if_neg miss,no_errno_clear,if_neg miss]
  simp only [line_base_correct,index,small,↓reduceDIte,find_place_in_l1_clear,update_memory,block_base_correct,
    Option.bind_eq_bind,Option.bind_some]
  have loaded : copy_words (fun i => load mem (line_base (paddr_to_uint32_t paddr).toNat + i)) L1_ICACHE_WORDS_PER_LINE
      (fun _ => 0) = load_line mem (line_base (address paddr)) := rfl
  rw [loaded]
  cases load_line mem (line_base (address paddr)) with
  | none => rfl
  | some old =>
    have stored := store_words_congr ((paddr_to_uint32_t paddr).toNat / 64 * 16) mem
      (read_array_words cs (new_line old (address paddr) word))
    have same : store_words (read_line cs (.array (new_line old (address paddr) word))) L1_ICACHE_WORDS_PER_LINE
        ((paddr_to_uint32_t paddr).toNat / 64 * 16) mem = store_line mem (address paddr) (new_line old (address paddr) word) :=
      stored
    rw [Option.bind_some,Option.bind_some,← new_line,same]
    cases store_line mem (address paddr) (new_line old (address paddr) word) with
    | none => rfl
    | some after =>
      rw [Option.bind_some,Option.bind_some,address]
      cases last_invalid cs.l1_cache (set_of .l1_cache (paddr_to_uint32_t paddr).toNat) with
      | none => rfl
      | some w => rfl

/-- A store of a line changes the first four words of the block of 64 bytes. -/
theorem store_line_correct {mem after : mem_space} {p : Nat} {line : line_t} (stored : store_line mem p line = some after)
    (a : Nat) : load after a = if p / 64 * 16 ≤ a ∧ a < p / 64 * 16 + 4 then some (word_of line (a - p / 64 * 16))
      else load mem a :=
  (store_words_correct (fun _ _ => rfl) stored).2 a

theorem store_line_isSome {mem : mem_space} {p : Nat} (line : line_t) (inside : LineInside mem p) :
    (store_line mem p line).isSome := by
  refine (store_words_isSome (fun _ _ => rfl)).mpr ?_
  intro i below
  have small : i < 4 := below
  rw [LineInside,line_base] at inside
  omega

theorem store_line_same {mem : mem_space} {p : Nat} {line : line_t}
    (there : load_line mem (p / 64 * 16) = some line) : store_line mem p line = some mem := by
  refine store_words_same (fun _ _ => rfl) ?_
  intro i below
  rw [word_of_inside line below]
  exact load_line_some.mp there ⟨i,below⟩

/-- The first line of the block is the one stored. -/
theorem store_line_stored {mem after : mem_space} {p : Nat} {line : line_t} (stored : store_line mem p line = some after) :
    load_line after (p / 64 * 16) = some line := by
  rw [load_line_some]
  intro i
  have small : i.val < 4 := i.isLt
  rw [store_line_correct stored,if_pos (by omega),Nat.add_sub_cancel_left,word_of_inside line i.isLt]

/-- Both levels after `cache_flush`. -/
def flushed : caches := ⟨cache_flush_process L1,cache_flush_process L2⟩

theorem cache_flush_correct (cs : caches) : (do
    let first ← cache_flush cs .l1_cache .L1_DCACHE
    let second ← cache_flush first.2 .l2_cache .L2_CACHE
    some (first.1,second.1,second.2)) = some (.ERR_NONE,.ERR_NONE,flushed) := rfl

/-! ### What returns, and what it leaves alone -/

/-- Two caches that differ at most in their ages. -/
def SameLines (cache cache' : Cache.cache g) : Prop := ∀ s w,
  (cache' s w).v = (cache s w).v ∧ (cache' s w).tag = (cache s w).tag ∧ (cache' s w).line = (cache s w).line

/-- Both levels differ at most in their ages. -/
def OnlyAges (cs cs' : caches) : Prop := SameLines cs.l1_cache cs'.l1_cache ∧ SameLines cs.l2_cache cs'.l2_cache

theorem sameLines_refl (cache : Cache.cache g) : SameLines cache cache := fun _ _ => ⟨rfl,rfl,rfl⟩

theorem sameLines_with_ages (cache : Cache.cache g) (s : Fin g.LINES) (a : Fin g.WAYS → BitVec g.AGE_BITS) :
    SameLines cache (with_ages cache s a) := fun _ _ => ⟨with_ages_v _ _ _ _ _,with_ages_tag _ _ _ _ _,with_ages_line _ _ _ _ _⟩

theorem sameLines_looked_up (ptr : cache_ptr) (cache : Cache.cache ptr.type) (p : Nat) :
    SameLines cache (looked_up ptr cache p) := by
  unfold looked_up
  cases hit_in ptr cache p with
  | none => exact sameLines_refl cache
  | some way => exact sameLines_with_ages _ _ _

/-- The L1 set of an address has an invalid way. -/
def Cold (cs : caches) (p : Nat) : Prop := ∃ w, (cs.l1_cache (set_of .l1_cache p) w).v = 0#1

theorem last_invalid_isSome {cache : Cache.cache g} {s : Fin g.LINES} :
    (last_invalid cache s).isSome ↔ ∃ w, (cache s w).v = 0#1 := by
  rw [last_invalid,List.find?_isSome]
  constructor
  · rintro ⟨w,_,invalid⟩
    exact ⟨w,of_decide_eq_true invalid⟩
  · rintro ⟨w,invalid⟩
    exact ⟨w,by simp,decide_eq_true invalid⟩

/-- The reads of aligned addresses, and the writes, that have a defined result. -/
def ReadReturns (errno : Int) (cs : caches) (p : Nat) : Prop := errno ≠ 0 ∨ Cold cs p
def WriteReturns (errno : Int) (mem : mem_space) (cs : caches) (p : Nat) : Prop :=
  errno ≠ 0 ∨ (LineInside mem p ∧ Cold cs p)

/-- What a read that returns has done. -/
theorem cache_read_returns {errno : Int} {mem : mem_space} {paddr : phy_addr_t} {access : mem_access_t} {cs : caches}
    {word : word_t} {stack : stack_t} (aligned : address paddr % 16 = 0) {r : read_t}
    (ran : cache_read errno mem paddr access cs word .LRU stack = some r) :
    r.code = .ERR_NONE ∧ SameLines cs.l1_cache r.caches.l1_cache ∧ r.caches.l2_cache = cs.l2_cache ∧
      r.word = if errno = 0 then word_of stack.the_new_cache_entry 0 else word := by
  by_cases clear : errno = 0
  · subst clear
    rw [cache_read_clear _ _ _ _ _ aligned] at ran
    obtain ⟨w,_,rfl⟩ := Option.map_eq_some_iff.mp ran
    exact ⟨rfl,sameLines_with_ages _ _ _,rfl,rfl⟩
  · rw [cache_read_set clear _ _ _ _ _ aligned] at ran
    obtain rfl := Option.some.inj ran
    exact ⟨rfl,sameLines_looked_up .l1_cache _ _,rfl,(if_neg clear).symm⟩

theorem cache_read_isSome (errno : Int) (mem : mem_space) {paddr : phy_addr_t} (access : mem_access_t) (cs : caches)
    (word : word_t) (stack : stack_t) (aligned : address paddr % 16 = 0) :
    (cache_read errno mem paddr access cs word .LRU stack).isSome ↔ ReadReturns errno cs (address paddr) := by
  by_cases clear : errno = 0
  · subst clear
    rw [cache_read_clear _ _ _ _ _ aligned,Option.isSome_map,last_invalid_isSome]
    exact ⟨Or.inr,fun cold => cold.resolve_left (fun set => set rfl)⟩
  · rw [cache_read_set clear _ _ _ _ _ aligned]
    exact ⟨fun _ => Or.inl clear,fun _ => rfl⟩

/-- What a write that returns has done. -/
theorem cache_write_returns {errno : Int} {mem : mem_space} {paddr : phy_addr_t} {cs : caches} {word : word_t}
    {stack : stack_t} {r : write_t} (ran : cache_write errno mem paddr cs word .LRU stack = some r) :
    r.code = .ERR_NONE ∧ OnlyAges cs r.caches ∧ (errno ≠ 0 ∧ r.mem = mem ∨
      errno = 0 ∧ ∃ old, load_line mem (line_base (address paddr)) = some old ∧
        store_line mem (address paddr) (new_line old (address paddr) word) = some r.mem) := by
  by_cases clear : errno = 0
  · subst clear
    rw [cache_write_clear] at ran
    obtain ⟨old,loaded,stores⟩ := Option.bind_eq_some_iff.mp ran
    obtain ⟨after,stored,places⟩ := Option.bind_eq_some_iff.mp stores
    obtain ⟨w,_,rfl⟩ := Option.map_eq_some_iff.mp places
    exact ⟨rfl,⟨sameLines_with_ages _ _ _,sameLines_refl _⟩,Or.inr ⟨rfl,old,loaded,stored⟩⟩
  · rw [cache_write_set clear] at ran
    obtain rfl := Option.some.inj ran
    exact ⟨rfl,⟨sameLines_refl _,sameLines_looked_up .l2_cache _ _⟩,Or.inl ⟨clear,rfl⟩⟩

theorem cache_write_isSome (errno : Int) (mem : mem_space) (paddr : phy_addr_t) (cs : caches) (word : word_t)
    (stack : stack_t) : (cache_write errno mem paddr cs word .LRU stack).isSome ↔
      WriteReturns errno mem cs (address paddr) := by
  by_cases clear : errno = 0
  · subst clear
    rw [cache_write_clear,WriteReturns,← load_line_isSome]
    cases loaded : load_line mem (line_base (address paddr)) with
    | none => simp
    | some old =>
      have inside : LineInside mem (address paddr) := by rw [← load_line_isSome,loaded,Option.isSome_some]
      obtain ⟨after,stored⟩ := Option.isSome_iff_exists.mp
        (store_line_isSome (new_line old (address paddr) word) inside)
      rw [Option.bind_some,stored,Option.bind_some,Option.isSome_map,last_invalid_isSome]
      exact ⟨fun cold => Or.inr ⟨rfl,cold⟩,fun either => (either.resolve_left (fun set => set rfl)).2⟩
  · rw [cache_write_set clear]
    exact ⟨fun _ => Or.inl clear,fun _ => rfl⟩

end CacheEmulator.CacheCalls
