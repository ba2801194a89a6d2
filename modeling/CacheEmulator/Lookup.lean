import CacheEmulator.Coherence

/-!
Lookups in one cache: which way a lookup finds, when it finds one, and that it
changes nothing but ages. A lookup gives up at the first invalid way, so a line
behind one is in the cache and is not found.
-/
namespace CacheEmulator.Lookup
open CacheEmulator.Error CacheEmulator.Memory CacheEmulator.Addr CacheEmulator.Cache CacheEmulator.CacheMng
open CacheEmulator.CacheCalls CacheEmulator.Coherence

variable {g : geometry} {ptr : cache_ptr} {cache : Cache.cache ptr.type} {p : Nat}

/-- A way of the set of an address is valid and has its tag. -/
def Held (ptr : cache_ptr) (cache : Cache.cache ptr.type) (p : Nat) (w : Fin ptr.type.WAYS) : Prop :=
  (cache (set_of ptr p) w).v = 1#1 ∧ (cache (set_of ptr p) w).tag.toNat = p / 2 ^ ptr.type.TAG_REMAINING_BITS

/-- All ways before a way are valid. -/
def Reached (ptr : cache_ptr) (cache : Cache.cache ptr.type) (p : Nat) (w : Fin ptr.type.WAYS) : Prop :=
  ∀ v < w, (cache (set_of ptr p) v).v = 1#1

/-! ### The way that is found -/

theorem valid_iff {v : BitVec 1} : ¬ v = 0#1 ↔ v = 1#1 := by
  revert v
  decide

theorem first_hit_find (cache : Cache.cache g) (s : Fin g.LINES) (tag : BitVec 32) (ways : List (Fin g.WAYS)) :
    first_hit cache s tag ways =
      (ways.find? (fun w => (cache s w).v = 0#1 ∨ (cache s w).tag.setWidth 32 = tag)).filter
        (fun w => ¬ (cache s w).v = 0#1) := by
  induction ways with
  | nil => rfl
  | cons way ways ih =>
    rw [first_hit,List.find?_cons]
    by_cases invalid : (cache s way).v = 0#1
    · simp [invalid,Option.filter]
    · by_cases same : (cache s way).tag.setWidth 32 = tag
      · simp [invalid,same,Option.filter]
      · simp [invalid,same,ih]

/-- The tag of an address as the lookup compares it. -/
theorem tag_iff (ptr : cache_ptr) (p : Nat) (small : p < 2 ^ 32) (tag : BitVec ptr.type.TAG_BITS) :
    tag.setWidth 32 = BitVec.ofNat 32 (p / 2 ^ ptr.type.TAG_REMAINING_BITS) ↔
      tag.toNat = p / 2 ^ ptr.type.TAG_REMAINING_BITS := by
  have narrow : ptr.type.TAG_BITS ≤ 32 := by cases ptr <;> decide
  have fits : p / 2 ^ ptr.type.TAG_REMAINING_BITS < 2 ^ 32 := Nat.lt_of_le_of_lt (Nat.div_le_self _ _) small
  rw [← BitVec.toNat_inj,Bits.toNat_widen tag narrow,BitVec.toNat_ofNat,Nat.mod_eq_of_lt fits]

/-- A lookup finds the first way with the tag when it reaches it. -/
theorem hit_in_iff (small : p < 2 ^ 32) {w : Fin ptr.type.WAYS} :
    hit_in ptr cache p = some w ↔ Held ptr cache p w ∧ Reached ptr cache p w ∧ ∀ v < w, ¬ Held ptr cache p v := by
  rw [hit_in,first_hit_find,Option.filter_eq_some_iff,← Fin.find?_eq_find?_finRange,Fin.find?_eq_some_iff]
  simp only [decide_eq_true_eq,decide_eq_false_iff_not,tag_iff ptr p small,not_or,valid_iff,Held,Reached]
  constructor
  · rintro ⟨⟨stop,before⟩,valid⟩
    have tag := stop.resolve_left (valid_iff.mpr valid)
    exact ⟨⟨valid,tag⟩,fun v earlier => (before v earlier).1,fun v earlier held => (before v earlier).2 held.2⟩
  · rintro ⟨⟨valid,tag⟩,reached,first⟩
    refine ⟨⟨.inr tag,?_⟩,valid⟩
    intro v earlier
    exact ⟨reached v earlier,fun same => first v earlier ⟨reached v earlier,same⟩⟩

theorem hit_in_isSome (small : p < 2 ^ 32) :
    (hit_in ptr cache p).isSome ↔ ∃ w, Held ptr cache p w ∧ Reached ptr cache p w := by
  constructor
  · intro found
    obtain ⟨w,here⟩ := Option.isSome_iff_exists.mp found
    obtain ⟨held,reached,_⟩ := (hit_in_iff small).mp here
    exact ⟨w,held,reached⟩
  · intro some_way
    classical
    obtain ⟨w,⟨held,reached⟩,first⟩ :=
      (Fin.exists_iff_exists_minimal (fun w => Held ptr cache p w ∧ Reached ptr cache p w)).mp some_way
    have earliest : ∀ v < w, ¬ Held ptr cache p v :=
      fun v earlier also => first v earlier ⟨also,fun u before => reached u (before.trans earlier)⟩
    rw [(hit_in_iff small).mpr ⟨held,reached,earliest⟩,Option.isSome_some]

/-! ### What a lookup reports -/

theorem address_lt (paddr : phy_addr_t) : address paddr < 2 ^ 32 := (paddr_to_uint32_t paddr).isLt

theorem hit_way_number (w : Fin ptr.type.WAYS) : (BitVec.ofNat 8 w.val).toNat = w.val :=
  way_number (by cases ptr <;> decide) w

theorem hit_index_number (s : Fin ptr.type.LINES) : (BitVec.ofNat 16 s.val).toNat = s.val := by
  have few : ptr.type.LINES ≤ 2 ^ 16 := by cases ptr <;> decide
  rw [BitVec.toNat_ofNat,Nat.mod_eq_of_lt (s.isLt.trans_le few)]

/-- No way has the number that stands for a miss. -/
theorem way_ne_miss (w : Fin ptr.type.WAYS) : w.val ≠ HIT_WAY_MISS.toNat := by
  have few : ptr.type.WAYS ≤ HIT_WAY_MISS.toNat := by cases ptr <;> decide
  exact Nat.ne_of_lt (w.isLt.trans_le few)

theorem hit_way_ne (w : Fin ptr.type.WAYS) : BitVec.ofNat 8 w.val ≠ HIT_WAY_MISS := by
  intro same
  have number := hit_way_number w
  rw [same] at number
  exact way_ne_miss w number.symm

/-- A lookup reports a way with the address when there is one, and else a miss. -/
def Complete (ptr : cache_ptr) (cs : caches) (p : Nat) (answer : Option hit_t) : Prop :=
  ∃ hit, answer = some hit ∧ hit.code = .ERR_NONE ∧
    ((∃ w, Held ptr (cs.deref ptr) p w) →
      ∃ w, Held ptr (cs.deref ptr) p w ∧ hit.hit_way.toNat = w.val ∧ hit.hit_index.toNat = (set_of ptr p).val) ∧
    ((∀ w, ¬ Held ptr (cs.deref ptr) p w) → hit.hit_way = HIT_WAY_MISS ∧ hit.hit_index = HIT_INDEX_MISS)

/-- A line that only lies behind invalid ways is missed. -/
theorem lookup_hidden (cs : caches) {type : cache_t} {ptr : cache_ptr} (cast : type.cast = some ptr)
    (paddr : phy_addr_t) (line : line_ptr) (held : ∃ w, Held ptr (cs.deref ptr) (address paddr) w)
    (hidden : ∀ w, Held ptr (cs.deref ptr) (address paddr) w → ¬ Reached ptr (cs.deref ptr) (address paddr) w) :
    ¬ Complete ptr cs (address paddr) (cache_hit cs ptr paddr line type) := by
  have missed : hit_in ptr (cs.deref ptr) (address paddr) = none := by
    rw [← Option.not_isSome_iff_eq_none,hit_in_isSome (address_lt paddr)]
    rintro ⟨w,here,reached⟩
    exact hidden w here reached
  rw [cache_hit_total cs paddr line cast,hit_of,missed]
  rintro ⟨hit,answered,_,reports,_⟩
  cases answered
  obtain ⟨w,_,number,_⟩ := reports held
  exact way_ne_miss w number.symm

/-- A lookup is complete just when no invalid way hides the line. -/
theorem lookup_complete_iff (cs : caches) {type : cache_t} {ptr : cache_ptr} (cast : type.cast = some ptr)
    (paddr : phy_addr_t) (line : line_ptr) :
    Complete ptr cs (address paddr) (cache_hit cs ptr paddr line type) ↔
      ((∃ w, Held ptr (cs.deref ptr) (address paddr) w) →
        ∃ w, Held ptr (cs.deref ptr) (address paddr) w ∧ Reached ptr (cs.deref ptr) (address paddr) w) := by
  have small := address_lt paddr
  constructor
  · intro complete held
    by_contra hidden
    simp only [not_exists,not_and] at hidden
    exact lookup_hidden cs cast paddr line held hidden complete
  · intro visible
    rw [cache_hit_total cs paddr line cast,hit_of]
    cases found : hit_in ptr (cs.deref ptr) (address paddr) with
    | none =>
      refine ⟨_,rfl,rfl,fun held => ?_,fun _ => ⟨rfl,rfl⟩⟩
      have reached := (hit_in_isSome small).mpr (visible held)
      rw [found] at reached
      cases reached
    | some way =>
      obtain ⟨held,_,_⟩ := (hit_in_iff small).mp found
      refine ⟨_,rfl,rfl,fun _ => ⟨way,held,hit_way_number way,hit_index_number _⟩,?_⟩
      intro absent
      exact absurd held (absent way)

/-- Flushed caches with a line of zeros in the given way of the first set of L1. -/
def first_set_line (w : Fin L1.WAYS) : caches :=
  { flushed with l1_cache := put flushed.l1_cache 0 w ⟨1#1,0,0,fun _ => 0⟩ }

theorem lookup_complete_iff_first_way :
    Complete .l1_cache (first_set_line 0) (address ⟨0,0⟩)
        (cache_hit (first_set_line 0) .l1_cache ⟨0,0⟩ .NULL .L1_DCACHE) ↔
      ((∃ w, Held .l1_cache (first_set_line 0).l1_cache (address ⟨0,0⟩) w) →
        ∃ w, Held .l1_cache (first_set_line 0).l1_cache (address ⟨0,0⟩) w ∧
          Reached .l1_cache (first_set_line 0).l1_cache (address ⟨0,0⟩) w) :=
  lookup_complete_iff (first_set_line 0) rfl ⟨0,0⟩ .NULL

/-- A line in the second way, with the first one invalid, is not found. -/
theorem lookup_misses_second_way : Held .l1_cache (first_set_line 1).l1_cache (address ⟨0,0⟩) 1 ∧
    ¬ Complete .l1_cache (first_set_line 1) (address ⟨0,0⟩)
      (cache_hit (first_set_line 1) .l1_cache ⟨0,0⟩ .NULL .L1_DCACHE) := by
  have held : Held .l1_cache (first_set_line 1).l1_cache (address ⟨0,0⟩) 1 :=
    ⟨by decide,by decide⟩
  refine ⟨held,lookup_hidden _ rfl _ _ ⟨_,held⟩ ?_⟩
  intro w here reached
  by_cases first : w = 0
  · rw [first] at here
    exact absurd here.1 (by decide)
  · exact absurd (reached 0 (Fin.pos_iff_ne_zero.mpr first)) (by decide)

/-! ### What a hit shows and changes -/

/-- A slot that a lookup reports, with the line of the address. -/
structure Found (ptr : cache_ptr) (cs : caches) (p : Nat) (hit : hit_t) (i : Fin ptr.type.LINES)
    (w : Fin ptr.type.WAYS) : Prop where
  way : hit.hit_way.toNat = w.val
  index : hit.hit_index.toNat = i.val
  valid : (cs.deref ptr i w).v = 1#1
  recombined : line_address ptr.type i (cs.deref ptr i w).tag = p / 16 * 16
  pointer : hit.line = .entry ptr i.val w.val
  words : ∀ j : Fin L1_ICACHE_WORDS_PER_LINE, read_line hit.caches hit.line j.val = some ((cs.deref ptr i w).line j)

/-- Nothing but ages of one set is changed, and but for one way, now of age zero, none is lower. -/
structure OnlyAged (ptr : cache_ptr) (cs after : caches) (i : Fin ptr.type.LINES) (w : Fin ptr.type.WAYS) : Prop where
  lines : SameLines (cs.deref ptr) (after.deref ptr)
  other_cache : ∀ other, other ≠ ptr → after.deref other = cs.deref other
  other_sets : ∀ s, s ≠ i → ages (after.deref ptr) s = ages (cs.deref ptr) s
  recent : ages (after.deref ptr) i w = 0
  others : ∀ v, v ≠ w → (ages (cs.deref ptr) i v).toNat ≤ (ages (after.deref ptr) i v).toNat

theorem line_address_correct (ptr : cache_ptr) (p : Nat) {tag : BitVec ptr.type.TAG_BITS}
    (same : tag.toNat = p / 2 ^ ptr.type.TAG_REMAINING_BITS) :
    line_address ptr.type (set_of ptr p) tag = p / 16 * 16 := by
  rw [line_address,same]
  cases ptr with
  | l1_cache =>
    simp only [set_of,L1_ICACHE_LINE,L1_ICACHE_LINES,L1_ICACHE_TAG_REMAINING_BITS]
    omega
  | l2_cache =>
    simp only [set_of,L1_ICACHE_LINE,L2_CACHE_LINES,L2_CACHE_TAG_REMAINING_BITS]
    omega

theorem read_entry (cs : caches) (ptr : cache_ptr) (i : Fin ptr.type.LINES) (w : Fin ptr.type.WAYS)
    (j : Fin L1_ICACHE_WORDS_PER_LINE) : read_line cs (.entry ptr i.val w.val) j.val = some ((cs.deref ptr i w).line j) := by
  simp [read_line]

/-- An update of the ages of a set in one of the caches. -/
theorem only_aged (ptr : cache_ptr) (cs : caches) (i : Fin ptr.type.LINES) (w : Fin ptr.type.WAYS) :
    OnlyAged ptr cs (cs.assign ptr (with_ages (cs.deref ptr) i (updated (ages (cs.deref ptr) i) w))) i w := by
  refine ⟨?_,fun other different => caches.deref_assign_of_ne cs different _,?_,?_,?_⟩
  · rw [caches.deref_assign]
    exact sameLines_with_ages _ _ _
  · intro s different
    rw [caches.deref_assign,ages_with_ages_of_ne _ _ different]
  · rw [caches.deref_assign,ages_with_ages,updated_self]
  · intro v other
    rw [caches.deref_assign,ages_with_ages]
    exact updated_le _ other

theorem looked_up_hit {way : Fin ptr.type.WAYS} (found : hit_in ptr cache p = some way) :
    looked_up ptr cache p = with_ages cache (set_of ptr p) (updated (ages cache (set_of ptr p)) way) := by
  rw [looked_up,found]

/-- A way that is reported has the line, and the lookup only ages its set; a miss changes nothing. -/
theorem lookup_sound (cs : caches) {type : cache_t} {ptr : cache_ptr} (cast : type.cast = some ptr)
    (paddr : phy_addr_t) (line : line_ptr) :
    ∃ hit, cache_hit cs ptr paddr line type = some hit ∧ hit.code = .ERR_NONE ∧
      (hit.hit_way ≠ HIT_WAY_MISS → ∃ i w, Found ptr cs (address paddr) hit i w ∧ OnlyAged ptr cs hit.caches i w) ∧
      (hit.hit_way = HIT_WAY_MISS → hit.hit_index = HIT_INDEX_MISS ∧ hit.caches = cs) := by
  have small := address_lt paddr
  rw [cache_hit_total cs paddr line cast,hit_of]
  cases found : hit_in ptr (cs.deref ptr) (address paddr) with
  | none => exact ⟨_,rfl,rfl,fun reported => absurd rfl reported,fun _ => ⟨rfl,rfl⟩⟩
  | some way =>
    obtain ⟨⟨valid,tag⟩,_,_⟩ := (hit_in_iff small).mp found
    simp only [looked_up_hit found]
    refine ⟨_,rfl,rfl,fun _ => ⟨set_of ptr (address paddr),way,?_,only_aged ptr cs _ _⟩,?_⟩
    · refine ⟨hit_way_number way,hit_index_number _,valid,line_address_correct ptr _ tag,rfl,?_⟩
      intro j
      rw [read_entry,caches.deref_assign,with_ages_line]
    · intro missed
      exact absurd missed (hit_way_ne way)

/-- Flushed caches with two lines in the first set of L1: zeros in the first way, and
    sevens of the address 1024 in the second one. -/
def two_lines : caches :=
  { flushed with l1_cache := put (first_set_line 0).l1_cache 0 1 ⟨1#1,1,1,fun _ => 7⟩ }

theorem lookup_sound_second_way :
    ∃ hit, cache_hit two_lines .l1_cache ⟨0,1024⟩ .NULL .L1_DCACHE = some hit ∧ hit.code = .ERR_NONE ∧
      hit.hit_way = 1 ∧ hit.hit_index = 0 ∧ read_line hit.caches hit.line 3 = some 7 ∧
      ∃ i w, Found .l1_cache two_lines (address ⟨0,1024⟩) hit i w ∧ OnlyAged .l1_cache two_lines hit.caches i w := by
  obtain ⟨hit,executed,code,hits,_⟩ :=
    lookup_sound two_lines (show cache_t.L1_DCACHE.cast = some .l1_cache from rfl) ⟨0,1024⟩ .NULL
  have computed : (cache_hit two_lines .l1_cache ⟨0,1024⟩ .NULL .L1_DCACHE).map (fun hit =>
      (hit.hit_way,hit.hit_index,read_line hit.caches hit.line 3)) = some (1,0,some 7) := by decide +kernel
  rw [executed,Option.map_some] at computed
  obtain ⟨way,rest⟩ := Prod.mk.inj (Option.some.inj computed)
  obtain ⟨index,seven⟩ := Prod.mk.inj rest
  have reported : hit.hit_way ≠ HIT_WAY_MISS := by
    rw [way]
    decide
  exact ⟨hit,executed,code,way,index,seven,hits reported⟩

/-! ### Initialisation, insertion and lookup -/

/-- The entry for a line of the memory. -/
def new_entry (ptr : cache_ptr) (p : Nat) (words : line_t) : cache_entry_t ptr.type :=
  ⟨1#1,0,BitVec.ofNat _ (p / 2 ^ ptr.type.TAG_REMAINING_BITS),words⟩

theorem new_entry_tag (ptr : cache_ptr) (paddr : phy_addr_t) (words : line_t) :
    (new_entry ptr (address paddr) words).tag.toNat = address paddr / 2 ^ ptr.type.TAG_REMAINING_BITS := by
  have small := address_lt paddr
  rw [new_entry,BitVec.toNat_ofNat]
  refine Nat.mod_eq_of_lt ?_
  cases ptr with
  | l1_cache =>
    simp only [L1_ICACHE_TAG_REMAINING_BITS,L1_ICACHE_TAG_BITS]
    omega
  | l2_cache =>
    simp only [L2_CACHE_TAG_REMAINING_BITS,L2_CACHE_TAG_BITS]
    omega

theorem cache_entry_init_total {mem : mem_space} {paddr : phy_addr_t} {type : cache_t} {ptr : cache_ptr} {words : line_t}
    (cast : type.cast = some ptr) (aligned : address paddr % 16 = 0)
    (loaded : load_line mem (line_base (address paddr)) = some words) (old : cache_entry_t ptr.type) :
    cache_entry_init mem paddr old type = some (.ERR_NONE,new_entry ptr (address paddr) words) := by
  have accepted : (paddr_to_uint32_t paddr).toNat % L1_ICACHE_LINE = 0 := aligned
  have copied : copy_words (fun i => load mem (line_base (address paddr) + i)) L1_ICACHE_WORDS_PER_LINE old.line =
      some words := copy_words_line.mpr (load_line_some.mp loaded)
  have tag : (paddr_to_uint32_t paddr >>> ptr.type.TAG_REMAINING_BITS).setWidth ptr.type.TAG_BITS =
      (new_entry ptr (address paddr) words).tag := by
    apply BitVec.eq_of_toNat_eq
    rw [new_entry,BitVec.toNat_setWidth,BitVec.toNat_ushiftRight,Nat.shiftRight_eq_div_pow,BitVec.toNat_ofNat,address]
  simp only [cache_entry_init,cast,require_holds accepted,↓reduceIte,entry_init,line_base_correct]
  rw [← address,copied,tag]
  rfl

theorem cache_insert_total (cs : caches) {type : cache_t} {ptr : cache_ptr} (cast : type.cast = some ptr)
    (i : Fin ptr.type.LINES) (w : Fin ptr.type.WAYS) (entry : cache_entry_t ptr.type) :
    cache_insert (BitVec.ofNat 16 i.val) (BitVec.ofNat 8 w.val) entry cs ptr type =
      some (.ERR_NONE,cs.assign ptr (put (cs.deref ptr) i w entry)) := by
  have inside : w.val < ptr.type.WAYS ∧ i.val < ptr.type.LINES := ⟨w.isLt,i.isLt⟩
  simp only [cache_insert,cast,require_holds inside,and_self,↓reduceIte,cache_insert_process,hit_way_number,
    hit_index_number,write_entry_place,Option.map_some]

theorem cache_insert_refused (cs : caches) {type : cache_t} {ptr : cache_ptr} (cast : type.cast = some ptr)
    {index : BitVec 16} {way : BitVec 8} (outside : ptr.type.LINES ≤ index.toNat ∨ ptr.type.WAYS ≤ way.toNat)
    (entry : cache_entry_t ptr.type) : cache_insert index way entry cs ptr type = some (.ERR_BAD_PARAMETER,cs) := by
  have refused : ¬ (way.toNat < ptr.type.WAYS ∧ index.toNat < ptr.type.LINES) := by omega
  simp only [cache_insert,cast]
  exact require_fails refused _ _

/-- A lookup only reads the set of its address. -/
theorem hit_in_congr {cache' : Cache.cache ptr.type} (same : cache (set_of ptr p) = cache' (set_of ptr p)) :
    hit_in ptr cache p = hit_in ptr cache' p := by
  rw [hit_in,hit_in,first_hit_find,first_hit_find,same]

/-- Two lookups answer alike, whatever else they leave behind. -/
structure SameAnswer (before hit : hit_t) : Prop where
  code : hit.code = before.code
  line : hit.line = before.line
  hit_way : hit.hit_way = before.hit_way
  hit_index : hit.hit_index = before.hit_index
  words : before.hit_way ≠ HIT_WAY_MISS → ∀ j : Fin L1_ICACHE_WORDS_PER_LINE,
    read_line hit.caches hit.line j.val = read_line before.caches before.line j.val

/-- One slot is replaced, and nothing else. -/
structure OnlySlot (ptr : cache_ptr) (cs after : caches) (i : Fin ptr.type.LINES) (w : Fin ptr.type.WAYS)
    (entry : cache_entry_t ptr.type) : Prop where
  slot : after.deref ptr i w = entry
  slots : ∀ s v, s ≠ i ∨ v ≠ w → after.deref ptr s v = cs.deref ptr s v
  other_cache : ∀ other, other ≠ ptr → after.deref other = cs.deref other

theorem only_slot (ptr : cache_ptr) (cs : caches) (i : Fin ptr.type.LINES) (w : Fin ptr.type.WAYS)
    (entry : cache_entry_t ptr.type) : OnlySlot ptr cs (cs.assign ptr (put (cs.deref ptr) i w entry)) i w entry := by
  refine ⟨?_,?_,fun other different => caches.deref_assign_of_ne cs different _⟩
  · rw [caches.deref_assign,put_apply,if_pos ⟨rfl,rfl⟩]
  · intro s v different
    rw [caches.deref_assign,put_apply,if_neg (by tauto)]

/-- The earlier ways of the set of an address are valid, with other tags. -/
def EarlierOther (ptr : cache_ptr) (cache : Cache.cache ptr.type) (p : Nat) (w : Fin ptr.type.WAYS) : Prop :=
  ∀ v < w, (cache (set_of ptr p) v).v = 1#1 ∧ (cache (set_of ptr p) v).tag.toNat ≠ p / 2 ^ ptr.type.TAG_REMAINING_BITS

theorem hit_in_inserted {w : Fin ptr.type.WAYS} (small : p < 2 ^ 32) {entry : cache_entry_t ptr.type}
    (valid : entry.v = 1#1) (tag : entry.tag.toNat = p / 2 ^ ptr.type.TAG_REMAINING_BITS)
    (earlier : EarlierOther ptr cache p w) : hit_in ptr (put cache (set_of ptr p) w entry) p = some w := by
  have before : ∀ v < w, put cache (set_of ptr p) w entry (set_of ptr p) v = cache (set_of ptr p) v := by
    intro v less
    rw [put_apply,if_neg (fun both => absurd both.2 less.ne)]
  have here : put cache (set_of ptr p) w entry (set_of ptr p) w = entry := by
    rw [put_apply,if_pos ⟨rfl,rfl⟩]
  rw [hit_in_iff small]
  refine ⟨?_,?_,?_⟩
  · rw [Held,here]
    exact ⟨valid,tag⟩
  · intro v less
    rw [before v less]
    exact (earlier v less).1
  · intro v less
    rw [Held,before v less]
    exact fun held => (earlier v less).2 held.2

theorem hit_reports (cs : caches) {w : Fin ptr.type.WAYS} (found : hit_in ptr (cs.deref ptr) p = some w) (line : line_ptr) :
    (hit_of cs ptr p line).code = .ERR_NONE ∧ (hit_of cs ptr p line).hit_way.toNat = w.val ∧
      (hit_of cs ptr p line).hit_index.toNat = (set_of ptr p).val := by
  rw [hit_of,found]
  exact ⟨rfl,hit_way_number w,hit_index_number _⟩

/-- The words behind the line of a hit. -/
theorem hit_words (cs : caches) {w : Fin ptr.type.WAYS} (found : hit_in ptr (cs.deref ptr) p = some w) (line : line_ptr)
    (j : Fin L1_ICACHE_WORDS_PER_LINE) :
    read_line (hit_of cs ptr p line).caches (hit_of cs ptr p line).line j.val =
      some ((cs.deref ptr (set_of ptr p) w).line j) := by
  rw [hit_of,found]
  simp only [looked_up_hit found,read_entry,caches.deref_assign,with_ages_line]

theorem same_answer (cs after : caches) (same : after.deref ptr (set_of ptr p) = cs.deref ptr (set_of ptr p))
    (line : line_ptr) : SameAnswer (hit_of cs ptr p line) (hit_of after ptr p line) := by
  have alike := hit_in_congr (p := p) same
  cases found : hit_in ptr (cs.deref ptr) p with
  | none =>
    rw [found] at alike
    rw [hit_of,hit_of,alike,found]
    exact ⟨rfl,rfl,rfl,rfl,fun reported => absurd rfl reported⟩
  | some way =>
    have words := fun j => hit_words cs found line j
    rw [found] at alike
    have words' := fun j => hit_words after alike line j
    refine ⟨?_,?_,?_,?_,fun _ j => by rw [words,words',same]⟩
    all_goals rw [hit_of,hit_of,alike,found]

/-- A line of the memory is put into a way and found there, and the other sets answer as before. -/
def InsertedAndFound (ptr : cache_ptr) (type : cache_t) (cs : caches) (mem : mem_space) (paddr : phy_addr_t)
    (w : Fin ptr.type.WAYS) : Prop :=
  ∀ (old : cache_entry_t ptr.type) (line : line_ptr), ∃ entry after,
    cache_entry_init mem paddr old type = some (.ERR_NONE,entry) ∧
    cache_insert (BitVec.ofNat 16 (set_of ptr (address paddr)).val) (BitVec.ofNat 8 w.val) entry cs ptr type =
      some (.ERR_NONE,after) ∧
    OnlySlot ptr cs after (set_of ptr (address paddr)) w entry ∧
    (∃ hit, cache_hit after ptr paddr line type = some hit ∧ hit.code = .ERR_NONE ∧ hit.hit_way.toNat = w.val ∧
      hit.hit_index.toNat = (set_of ptr (address paddr)).val ∧
      ∀ j : Fin L1_ICACHE_WORDS_PER_LINE, ∃ word, read_line hit.caches hit.line j.val = some word ∧
        load mem (address paddr / 4 + j.val) = some word) ∧
    ∀ other, set_of ptr (address other) ≠ set_of ptr (address paddr) → ∃ before hit,
      cache_hit cs ptr other line type = some before ∧ cache_hit after ptr other line type = some hit ∧
        SameAnswer before hit

/-- Initialisation, insertion and lookup fit together for every aligned address
    of the memory; a place outside the cache is refused. -/
theorem insert_lookup (cs : caches) {type : cache_t} {ptr : cache_ptr} (cast : type.cast = some ptr) :
    (∀ (mem : mem_space) (paddr : phy_addr_t) (w : Fin ptr.type.WAYS), address paddr % 16 = 0 →
      LineInside mem (address paddr) → EarlierOther ptr (cs.deref ptr) (address paddr) w →
      InsertedAndFound ptr type cs mem paddr w) ∧
    ∀ (index : BitVec 16) (way : BitVec 8) (entry : cache_entry_t ptr.type),
      ptr.type.LINES ≤ index.toNat ∨ ptr.type.WAYS ≤ way.toNat →
      cache_insert index way entry cs ptr type = some (.ERR_BAD_PARAMETER,cs) := by
  refine ⟨?_,fun index way entry outside => cache_insert_refused cs cast outside entry⟩
  intro mem paddr w aligned inside earlier old line
  obtain ⟨words,loaded⟩ := Option.isSome_iff_exists.mp ((load_line_isSome mem (address paddr)).mpr inside)
  have slot := only_slot ptr cs (set_of ptr (address paddr)) w (new_entry ptr (address paddr) words)
  have valid : (new_entry ptr (address paddr) words).v = 1#1 := rfl
  have found := hit_in_inserted (address_lt paddr) valid (new_entry_tag ptr paddr words) earlier
  rw [← caches.deref_assign cs ptr (put (cs.deref ptr) _ w _)] at found
  have delivered := hit_words _ found line
  rw [slot.slot] at delivered
  refine ⟨_,_,cache_entry_init_total cast aligned loaded old,cache_insert_total cs cast _ w _,slot,?_,?_⟩
  · obtain ⟨code,way,index⟩ := hit_reports _ found line
    refine ⟨_,cache_hit_total _ paddr line cast,code,way,index,fun j => ⟨words j,delivered j,?_⟩⟩
    have base : line_base (address paddr) = address paddr / 4 := by
      rw [line_base]
      omega
    rw [← base]
    exact load_line_some.mp loaded j
  · intro other different
    have kept := slot.slots (set_of ptr (address other))
    refine ⟨_,_,cache_hit_total cs other line cast,cache_hit_total _ other line cast,same_answer cs _ ?_ line⟩
    funext v
    exact kept v (.inl different)

theorem insert_lookup_second_way :
    (first_set_line 0).l1_cache 0 0 = ⟨1#1,0,0,fun _ => 0⟩ ∧
      InsertedAndFound .l1_cache .L1_DCACHE (first_set_line 0) (zeros 1040) ⟨0,1024⟩ 1 ∧
      cache_insert 64 0 (new_entry .l1_cache 16 (fun _ => 0)) (first_set_line 0) .l1_cache .L1_DCACHE =
        some (.ERR_BAD_PARAMETER,first_set_line 0) := by
  obtain ⟨inserted,refused⟩ := insert_lookup (first_set_line 0) (show cache_t.L1_DCACHE.cast = some .l1_cache from rfl)
  have earlier : EarlierOther .l1_cache ((first_set_line 0).deref .l1_cache) (address ⟨0,1024⟩) 1 := by
    intro v less
    obtain rfl : v = 0 := Fin.ext (Nat.lt_one_iff.mp less)
    exact ⟨by decide,by decide⟩
  exact ⟨rfl,inserted (zeros 1040) ⟨0,1024⟩ 1 (by decide) (by decide) earlier,refused 64 0 _ (.inl (by decide))⟩

end CacheEmulator.Lookup
