import CacheEmulator.CacheCalls

/-!
Write-through: the lines the caches hold against the memory. A write puts the
changed line at the start of its block of 64 bytes, so it keeps the caches
coherent, and changes the memory as it should, only where that line is the one
meant or where nothing changes.
-/
namespace CacheEmulator.Coherence
open CacheEmulator.Error CacheEmulator.Memory CacheEmulator.Addr CacheEmulator.Cache CacheEmulator.CacheMng
open CacheEmulator.CacheCalls

variable {g : geometry}

/-! ### Lines and their addresses -/

/-- The address of the line in a slot, from its tag and its line index. -/
def line_address (g : geometry) (s : Fin g.LINES) (tag : BitVec g.TAG_BITS) : Nat :=
  tag.toNat * 2 ^ g.TAG_REMAINING_BITS + s.val * 16

/-- A slot holds the line of an address. -/
def Holds (cache : cache g) (s : Fin g.LINES) (w : Fin g.WAYS) (a : Nat) : Prop :=
  (cache s w).v = 1#1 ∧ line_address g s (cache s w).tag = a

/-- Some slot holds the line of an address, with the given words. -/
def Line (cache : cache g) (a : Nat) (words : line_t) : Prop := ∃ s w, Holds cache s w a ∧ (cache s w).line = words

theorem line_address_aligned (ptr : cache_ptr) (s : Fin ptr.type.LINES) (tag : BitVec ptr.type.TAG_BITS) :
    line_address ptr.type s tag % 16 = 0 := by
  cases ptr with
  | l1_cache =>
    simp only [line_address,L1_ICACHE_TAG_REMAINING_BITS]
    omega
  | l2_cache =>
    simp only [line_address,L2_CACHE_TAG_REMAINING_BITS]
    omega

theorem line_aligned (ptr : cache_ptr) {cache : Cache.cache ptr.type} {a : Nat} {words : line_t}
    (line : Line cache a words) : a % 16 = 0 := by
  obtain ⟨s,w,⟨_,rfl⟩,_⟩ := line
  exact line_address_aligned ptr s _

theorem holds_same {cache cache' : Cache.cache g} (same : SameLines cache cache') {s : Fin g.LINES} {w : Fin g.WAYS}
    {a : Nat} : Holds cache' s w a ↔ Holds cache s w a := by
  obtain ⟨v,tag,_⟩ := same s w
  rw [Holds,Holds,v,tag]

theorem line_same {cache cache' : Cache.cache g} (same : SameLines cache cache') {a : Nat} {words : line_t} :
    Line cache' a words ↔ Line cache a words := by
  refine exists_congr (fun s => exists_congr (fun w => and_congr (holds_same same) ?_))
  rw [(same s w).2.2]

/-! ### Coherence -/

/-- Every line held has the words of the memory at its address. -/
def CoherentLevel (mem : mem_space) (cache : cache g) : Prop :=
  ∀ a words, Line cache a words → load_line mem (a / 4) = some words

def Coherent (mem : mem_space) (cs : caches) : Prop := CoherentLevel mem cs.l1_cache ∧ CoherentLevel mem cs.l2_cache

/-- One of the levels holds the line of an address. -/
def Cached (cs : caches) (a : Nat) : Prop := ∃ words, Line cs.l1_cache a words ∨ Line cs.l2_cache a words

/-- The line that a write stores is already there at the start of the block. -/
def Settled (mem : mem_space) (p : Nat) (word : word_t) : Prop :=
  ∃ old, load_line mem (line_base p) = some old ∧ load_line mem (p / 64 * 16) = some (new_line old p word)

theorem coherentLevel_same {mem : mem_space} {cache cache' : Cache.cache g} (same : SameLines cache cache') :
    CoherentLevel mem cache' ↔ CoherentLevel mem cache :=
  forall_congr' (fun _ => forall_congr' (fun _ => imp_congr_left (line_same same)))

/-- A level stays coherent when the words stored are not those of a line it holds. -/
theorem coherentLevel_store (ptr : cache_ptr) {mem after : mem_space} {cache : Cache.cache ptr.type} {p : Nat}
    {line : line_t} (stored : store_line mem p line = some after) (coherent : CoherentLevel mem cache)
    (absent : ∀ words, ¬ Line cache (p / 64 * 64) words) : CoherentLevel after cache := by
  intro a words held
  have loaded := coherent a words held
  have aligned := line_aligned ptr held
  have elsewhere : a ≠ p / 64 * 64 := fun same => absent words (same ▸ held)
  rw [load_line_some] at loaded ⊢
  intro i
  have small : i.val < 4 := i.isLt
  rw [store_line_correct stored,if_neg (by omega)]
  exact loaded i

/-- A block whose first line is cached goes stale when the line stored there is another one. -/
theorem coherentLevel_stale {mem after : mem_space} {cache : Cache.cache g} {p : Nat} {line words : line_t}
    (stored : store_line mem p line = some after) (held : Line cache (p / 64 * 64) words)
    (coherent : CoherentLevel mem cache) (again : CoherentLevel after cache) :
    load_line mem (p / 64 * 16) = some line := by
  have before := coherent _ _ held
  have behind := again _ _ held
  have base : p / 64 * 64 / 4 = p / 64 * 16 := by omega
  rw [base] at before behind
  rw [before,← behind]
  exact store_line_stored stored

theorem coherent_only_ages {mem : mem_space} {cs cs' : caches} (ages : OnlyAges cs cs') :
    Coherent mem cs' ↔ Coherent mem cs := and_congr (coherentLevel_same ages.1) (coherentLevel_same ages.2)

/-- A write that returns keeps the caches coherent only by one of these chances. -/
theorem write_stale {mem : mem_space} {paddr : phy_addr_t} {cs : caches} {word : word_t} {stack : stack_t}
    (coherent : Coherent mem cs) (inside : LineInside mem (address paddr)) (cold : Cold cs (address paddr))
    (cached : Cached cs (address paddr / 64 * 64)) (changes : ¬ Settled mem (address paddr) word) :
    ∃ r, cache_write 0 mem paddr cs word .LRU stack = some r ∧ r.code = .ERR_NONE ∧ ¬ Coherent r.mem r.caches := by
  obtain ⟨r,ran⟩ := Option.isSome_iff_exists.mp
    ((cache_write_isSome 0 mem paddr cs word stack).mpr (Or.inr ⟨inside,cold⟩))
  obtain ⟨code,ages,effect⟩ := cache_write_returns ran
  refine ⟨r,ran,code,?_⟩
  rw [coherent_only_ages ages]
  intro again
  rcases effect with ⟨set,_⟩ | ⟨_,old,loaded,stored⟩
  · exact set rfl
  · obtain ⟨words,inL1 | inL2⟩ := cached
    · exact changes ⟨old,loaded,coherentLevel_stale stored inL1 coherent.1 again.1⟩
    · exact changes ⟨old,loaded,coherentLevel_stale stored inL2 coherent.2 again.2⟩

/-- A write that returns leaves coherent caches coherent exactly when it stores
    nothing, when no level holds the first line of the block, or when the line
    it stores is there already. -/
theorem write_coherent_iff (errno : Int) (mem : mem_space) (paddr : phy_addr_t) (cs : caches) (word : word_t)
    (stack : stack_t) (coherent : Coherent mem cs) :
    ((cache_write errno mem paddr cs word .LRU stack).isSome ↔ WriteReturns errno mem cs (address paddr)) ∧
    ((∀ r, cache_write errno mem paddr cs word .LRU stack = some r → r.code = .ERR_NONE → Coherent r.mem r.caches) ↔
      (WriteReturns errno mem cs (address paddr) →
        errno ≠ 0 ∨ ¬ Cached cs (address paddr / 64 * 64) ∨ Settled mem (address paddr) word)) := by
  have returns := cache_write_isSome errno mem paddr cs word stack
  refine ⟨returns,?_⟩
  constructor
  · intro kept defined
    by_contra none
    simp only [not_or,not_not] at none
    obtain ⟨clear,cached,changes⟩ := none
    subst clear
    obtain ⟨inside,cold⟩ := defined.resolve_left (fun set => set rfl)
    obtain ⟨r,ran,code,incoherent⟩ := write_stale coherent inside cold cached changes
    exact incoherent (kept r ran code)
  · intro chance r ran _
    obtain ⟨_,ages,effect⟩ := cache_write_returns ran
    rw [coherent_only_ages ages]
    rw [ran,Option.isSome_some] at returns
    rcases effect with ⟨_,unchanged⟩ | ⟨clear,old,loaded,stored⟩
    · rw [unchanged]
      exact coherent
    · rcases chance (returns.mp rfl) with set | absent | ⟨old',loaded',there⟩
      · exact absurd clear set
      · exact ⟨coherentLevel_store .l1_cache stored coherent.1 (fun words held => absent ⟨words,Or.inl held⟩),
          coherentLevel_store .l2_cache stored coherent.2 (fun words held => absent ⟨words,Or.inr held⟩)⟩
      · obtain rfl := Option.some.inj (loaded.symm.trans loaded')
        obtain same := Option.some.inj (stored.symm.trans (store_line_same there))
        rw [same]
        exact coherent

/-- One block of zero bytes, with its first line in L1. -/
def zero_block : mem_space := zeros 64
def first_line_cached : caches := { flushed with l1_cache := put flushed.l1_cache ⟨0,by decide⟩ ⟨0,by decide⟩ ⟨1#1,0,0,fun _ => 0⟩ }
def zero_stack : stack_t := ⟨fun _ => 0,fun _ => 0⟩
/-- The first word of the second line of the block. -/
def paddr_16 : phy_addr_t := ⟨0,16⟩

theorem load_line_zero_block {base : Nat} (inside : base ≤ 12) : load_line zero_block base = some (fun _ => 0) := by
  rw [load_line_some]
  intro i
  have small : i.val < 4 := i.isLt
  exact load_zeros (by omega)

theorem flushed_absent (a : Nat) (words : line_t) : ¬ Line (cache_flush_process g) a words := by
  rintro ⟨s,w,⟨valid,_⟩,_⟩
  cases valid

theorem first_line_coherent : Coherent zero_block first_line_cached := by
  constructor
  · rintro a words ⟨s,w,⟨valid,rfl⟩,rfl⟩
    rw [first_line_cached] at valid ⊢
    simp only [put_apply] at valid ⊢
    split at valid
    · rename_i here
      simp only [here,and_self,↓reduceIte]
      exact load_line_zero_block (by decide)
    · cases valid
  · intro a words held
    exact absurd held (flushed_absent a words)

theorem zero_block_changes : ¬ Settled zero_block 16 7 := by
  rintro ⟨old,_,there⟩
  have first := load_line_some.mp there ⟨0,by decide⟩
  have zero : load zero_block (16 / 64 * 16 + 0) = some 0 := load_zeros (by decide)
  have word : new_line old 16 7 ⟨0,by decide⟩ = 7 := Function.update_self _ _ _
  rw [word] at first
  exact absurd (Option.some.inj (zero.symm.trans first)) (by decide)

theorem write_coherent_iff_zero_block :
    ((cache_write 0 zero_block paddr_16 first_line_cached 7 .LRU zero_stack).isSome ↔
      WriteReturns 0 zero_block first_line_cached (address paddr_16)) ∧
    ((∀ r, cache_write 0 zero_block paddr_16 first_line_cached 7 .LRU zero_stack = some r → r.code = .ERR_NONE →
      Coherent r.mem r.caches) ↔
      (WriteReturns 0 zero_block first_line_cached (address paddr_16) →
        (0 : Int) ≠ 0 ∨ ¬ Cached first_line_cached (address paddr_16 / 64 * 64) ∨ Settled zero_block (address paddr_16) 7)) :=
  write_coherent_iff 0 zero_block paddr_16 first_line_cached 7 zero_stack first_line_coherent

/-- Writing 7 to address 16 puts it at address 0, whose line L1 holds. -/
theorem write_leaves_stale_line : Coherent zero_block first_line_cached ∧ address paddr_16 = 16 ∧
    LineInside zero_block (address paddr_16) ∧
    ∃ r, cache_write 0 zero_block paddr_16 first_line_cached 7 .LRU zero_stack = some r ∧ r.code = .ERR_NONE ∧
      ¬ Coherent r.mem r.caches := by
  have inside : LineInside zero_block (address paddr_16) := by decide
  have cold : Cold first_line_cached (address paddr_16) := ⟨⟨0,by decide⟩,by decide⟩
  have cached : Cached first_line_cached (address paddr_16 / 64 * 64) :=
    ⟨fun _ => 0,Or.inl ⟨⟨0,by decide⟩,⟨0,by decide⟩,⟨by decide,by decide⟩,rfl⟩⟩
  exact ⟨first_line_coherent,by decide,inside,write_stale first_line_coherent inside cold cached zero_block_changes⟩

/-! ### The effect on the memory -/

/-- The memory holds the word at an address and is otherwise as before. -/
def Written (mem after : mem_space) (p : Nat) (word : word_t) : Prop :=
  ∀ a, load after a = if a = p / 4 then some word else load mem a

theorem word_place (p : Nat) : p / 4 = line_base p + word_number p := by
  rw [line_base,word_number]
  omega

theorem new_line_word (old : line_t) (p : Nat) (word : word_t) (i : Nat) (inside : i < L1_ICACHE_WORDS_PER_LINE) :
    word_of (new_line old p word) i = if i = word_number p then word else word_of old i := by
  rw [word_of_inside _ inside,word_of_inside _ inside,new_line,Function.update_apply]
  simp only [Fin.ext_iff]

theorem load_line_word {mem : mem_space} {base : Nat} {line : line_t} (loaded : load_line mem base = some line) {i : Nat}
    (inside : i < L1_ICACHE_WORDS_PER_LINE) : load mem (base + i) = some (word_of line i) := by
  rw [word_of_inside line inside]
  exact load_line_some.mp loaded ⟨i,inside⟩

/-- In the first line of a block the store goes where it should. -/
theorem written_in_place {mem after : mem_space} {p : Nat} {word : word_t} {old : line_t} (first : p / 16 % 4 = 0)
    (loaded : load_line mem (line_base p) = some old) (stored : store_line mem p (new_line old p word) = some after) :
    Written mem after p word := by
  have base : p / 64 * 16 = line_base p := by
    rw [line_base]
    omega
  have place := word_place p
  intro a
  rw [store_line_correct stored,base]
  by_cases inLine : line_base p ≤ a ∧ a < line_base p + 4
  · have inside : a - line_base p < L1_ICACHE_WORDS_PER_LINE := by
      rw [L1_ICACHE_WORDS_PER_LINE]
      omega
    have there := load_line_word loaded inside
    rw [show line_base p + (a - line_base p) = a by omega] at there
    rw [if_pos inLine,new_line_word _ _ _ _ inside,there]
    by_cases here : a = p / 4
    · rw [if_pos here,if_pos (by omega)]
    · rw [if_neg here,if_neg (by omega)]
  · have wordInLine : word_number p < 4 := Nat.mod_lt _ (by decide)
    rw [if_neg inLine,if_neg (by omega)]

/-- In another line the store misses the word, and is right only where nothing changes. -/
theorem written_elsewhere {mem after : mem_space} {p : Nat} {word : word_t} {old : line_t} (later : p / 16 % 4 ≠ 0)
    (loaded : load_line mem (line_base p) = some old) (stored : store_line mem p (new_line old p word) = some after) :
    Written mem after p word ↔
      load mem (p / 4) = some word ∧ load_line mem (p / 64 * 16) = load_line mem (line_base p) := by
  have place := word_place p
  have number : word_number p < L1_ICACHE_WORDS_PER_LINE := Nat.mod_lt _ (by decide)
  have number4 : word_number p < 4 := number
  have oldWord := load_line_word loaded number
  rw [← place] at oldWord
  have base : line_base p = p / 16 * 4 := rfl
  have unchanged : load mem (p / 4) = some word → new_line old p word = old := by
    intro there
    have same : word_of old (word_number p) = word := Option.some.inj (oldWord.symm.trans there)
    funext i
    have here := new_line_word old p word i.val i.isLt
    rw [word_of_inside _ i.isLt,word_of_inside _ i.isLt] at here
    rw [here]
    split
    · rename_i isWord
      rw [← same,← isWord,word_of_inside old i.isLt]
    · rfl
  constructor
  · intro written
    have there : load mem (p / 4) = some word := by
      have after := written (p / 4)
      rw [store_line_correct stored,if_neg (by omega),if_pos rfl] at after
      exact after
    refine ⟨there,?_⟩
    rw [loaded,load_line_some]
    intro i
    have small : i.val < 4 := i.isLt
    have after := written (p / 64 * 16 + i.val)
    rw [load_line_some.mp (store_line_stored stored) i,if_neg (by omega),unchanged there] at after
    exact after.symm
  · rintro ⟨there,same⟩
    rw [unchanged there,store_line_same (same.trans loaded)] at stored
    obtain rfl := Option.some.inj stored
    intro a
    by_cases here : a = p / 4
    · rw [if_pos here,here,there]
    · rw [if_neg here]

/-- A write that returns has the effect of a write through exactly in the first
    line of a block, or where the memory already is as it should become. -/
theorem write_effect_iff (errno : Int) (mem : mem_space) (paddr : phy_addr_t) (cs : caches) (word : word_t)
    (stack : stack_t) :
    ((cache_write errno mem paddr cs word .LRU stack).isSome ↔ WriteReturns errno mem cs (address paddr)) ∧
    ((∀ r, cache_write errno mem paddr cs word .LRU stack = some r → r.code = .ERR_NONE →
      Written mem r.mem (address paddr) word) ↔
      (WriteReturns errno mem cs (address paddr) →
        (errno = 0 ∧ address paddr / 16 % 4 = 0) ∨
        (load mem (address paddr / 4) = some word ∧
          (errno = 0 → load_line mem (address paddr / 64 * 16) = load_line mem (line_base (address paddr)))))) := by
  have returns := cache_write_isSome errno mem paddr cs word stack
  refine ⟨returns,?_⟩
  by_cases clear : errno = 0
  · subst clear
    simp only [true_and,forall_true_left]
    constructor
    · intro every defined
      obtain ⟨r,ran⟩ := Option.isSome_iff_exists.mp (returns.mpr defined)
      obtain ⟨code,_,effect⟩ := cache_write_returns ran
      obtain ⟨_,old,loaded,stored⟩ := effect.resolve_left (fun set => set.1 rfl)
      by_cases first : address paddr / 16 % 4 = 0
      · exact Or.inl first
      · exact Or.inr ((written_elsewhere first loaded stored).mp (every r ran code))
    · intro chance r ran _
      obtain ⟨_,_,effect⟩ := cache_write_returns ran
      obtain ⟨_,old,loaded,stored⟩ := effect.resolve_left (fun set => set.1 rfl)
      rw [ran,Option.isSome_some] at returns
      by_cases first : address paddr / 16 % 4 = 0
      · exact written_in_place first loaded stored
      · exact (written_elsewhere first loaded stored).mpr ((chance (returns.mp rfl)).resolve_left first)
  · rw [cache_write_set clear]
    simp only [clear,false_and,false_or,false_implies,and_true]
    constructor
    · intro every _
      have here := every _ rfl rfl (address paddr / 4)
      rwa [if_pos rfl] at here
    · intro there r ran _ a
      obtain rfl := Option.some.inj ran
      by_cases here : a = address paddr / 4
      · rw [if_pos here,here,there (Or.inl clear)]
      · rw [if_neg here]

/-- Writing 7 to address 16 leaves the word there as it was. -/
theorem write_misses_word : Coherent zero_block first_line_cached ∧ LineInside zero_block (address paddr_16) ∧
    ∃ r, cache_write 0 zero_block paddr_16 first_line_cached 7 .LRU zero_stack = some r ∧ r.code = .ERR_NONE ∧
      ¬ Written zero_block r.mem (address paddr_16) 7 := by
  have inside : LineInside zero_block (address paddr_16) := by decide
  have cold : Cold first_line_cached (address paddr_16) := ⟨⟨0,by decide⟩,by decide⟩
  obtain ⟨r,ran⟩ := Option.isSome_iff_exists.mp
    ((cache_write_isSome 0 zero_block paddr_16 first_line_cached 7 zero_stack).mpr (Or.inr ⟨inside,cold⟩))
  obtain ⟨code,_,effect⟩ := cache_write_returns ran
  obtain ⟨_,old,loaded,stored⟩ := effect.resolve_left (fun set => set.1 rfl)
  refine ⟨first_line_coherent,inside,r,ran,code,?_⟩
  rw [written_elsewhere (by decide) loaded stored]
  rintro ⟨there,_⟩
  have zero : load zero_block (address paddr_16 / 4) = some 0 := load_zeros (by decide)
  exact absurd (Option.some.inj (zero.symm.trans there)) (by decide)

end CacheEmulator.Coherence
