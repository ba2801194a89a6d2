import CacheEmulator.Coherence

/-!
How the cache operations depend on the ambient `errno`. Each of them runs in
one of two ways, one for a clear and one for a set `errno`, and these differ
but for the calls refused beforehand and for states in which neither changes
anything.
-/
namespace CacheEmulator.ErrnoNeutral
open CacheEmulator.Error CacheEmulator.Memory CacheEmulator.Addr CacheEmulator.Cache CacheEmulator.CacheMng
open CacheEmulator.CacheCalls CacheEmulator.Coherence

variable {g : geometry}

/-- A function that tells only zero from the other numbers gives two inputs the
    same value when they are alike in that or the two values are the same. -/
theorem two_valued {β : Type} {f : Int → β} {clear set : β} (zero : f 0 = clear) (other : ∀ e, e ≠ 0 → f e = set)
    (e1 e2 : Int) : f e1 = f e2 ↔ (e1 = 0 ↔ e2 = 0) ∨ clear = set := by
  by_cases first : e1 = 0
  · by_cases second : e2 = 0
    · simp [first,second]
    · rw [first,zero,other e2 second]
      simp [second]
  · by_cases second : e2 = 0
    · rw [second,zero,other e1 first]
      simp [first,eq_comm]
    · rw [other e1 first,other e2 second]
      simp [first,second]

/-! ### States that the two ways leave alone -/

/-- The ages of an L1 set that a fill of its last invalid way leaves as they are. -/
def AgesSettled (cs : caches) (p : Nat) : Prop :=
  ∃ w, last_invalid cs.l1_cache (set_of .l1_cache p) = some w ∧
    ∀ v, (cs.l1_cache (set_of .l1_cache p) v).age = if v = w then 1 else 3

/-- A lookup that misses, or hits the way used last. -/
def LookupSettled (ptr : cache_ptr) (cache : Cache.cache ptr.type) (p : Nat) : Prop :=
  ∀ way, hit_in ptr cache p = some way → (cache (set_of ptr p) way).age = 0

theorem increased_fixed (filled : Prop) [Decidable filled] (age : BitVec 2) :
    increased L1 filled age = age ↔ age = if filled then 1 else 3 := by
  by_cases isFilled : filled
  · simp only [increased,isFilled,↓reduceIte]
    revert age
    decide
  · simp only [increased,isFilled,↓reduceIte]
    revert age
    decide

/-- A fill never leaves an age at zero. -/
theorem increased_ne_zero (filled : Prop) [Decidable filled] (age : BitVec 2) : increased L1 filled age ≠ 0 := by
  by_cases isFilled : filled
  · simp only [increased,isFilled,↓reduceIte]
    decide
  · simp only [increased,isFilled,↓reduceIte]
    revert age
    decide

theorem aged_fixed (cs : caches) (p : Nat) (w : Fin L1.WAYS) : (aged cs p w).l1_cache = cs.l1_cache ↔
    ∀ v, (cs.l1_cache (set_of .l1_cache p) v).age = if v = w then 1 else 3 := by
  simp only [aged]
  rw [with_ages_eq_self]
  refine forall_congr' ?_
  intro v
  rw [increased_fixed]
  simp only [Fin.ext_iff]

theorem aged_eq_iff {cs after : caches} {p : Nat} {w : Fin L1.WAYS} : aged cs p w = after ↔
    (aged cs p w).l1_cache = after.l1_cache ∧ cs.l2_cache = after.l2_cache := by
  obtain ⟨l1_cache,l2_cache⟩ := after
  simp only [aged,caches.mk.injEq]

theorem looked_up_fixed (ptr : cache_ptr) (cache : Cache.cache ptr.type) (p : Nat) :
    looked_up ptr cache p = cache ↔ LookupSettled ptr cache p := by
  unfold looked_up LookupSettled
  cases hit_in ptr cache p with
  | none => simp
  | some way =>
    simp only [Option.some.injEq,forall_eq']
    rw [with_ages_eq_self]
    constructor
    · intro same
      have here := same way
      rw [updated,if_pos rfl] at here
      exact here.symm
    · intro recent w
      have notOlder : ¬ ages cache (set_of ptr p) w < ages cache (set_of ptr p) way := by
        rw [ages,ages,recent]
        exact BitVec.not_lt_zero
      rw [updated]
      by_cases here : w = way
      · rw [if_pos here,here,recent]
      · rw [if_neg here,if_neg (fun both => notOlder both.2),ages]

theorem store_line_fixed {mem : mem_space} {p : Nat} {line : line_t} :
    store_line mem p line = some mem ↔ load_line mem (p / 64 * 16) = some line :=
  ⟨store_line_stored,store_line_same⟩

/-- A write with a clear `errno` that leaves a memory and caches of a given kind. -/
theorem write_clear_result {mem : mem_space} {paddr : phy_addr_t} {cs after : caches} {word : word_t} {stack : stack_t}
    {code : error_code} : cache_write 0 mem paddr cs word .LRU stack = some ⟨code,mem,after⟩ ↔
      code = .ERR_NONE ∧ Settled mem (address paddr) word ∧
        ∃ w, last_invalid cs.l1_cache (set_of .l1_cache (address paddr)) = some w ∧ aged cs (address paddr) w = after := by
  rw [cache_write_clear]
  constructor
  · intro ran
    obtain ⟨old,loaded,stores⟩ := Option.bind_eq_some_iff.mp ran
    obtain ⟨mem',stored,places⟩ := Option.bind_eq_some_iff.mp stores
    obtain ⟨w,place,same⟩ := Option.map_eq_some_iff.mp places
    injection same with sameCode sameMem sameCaches
    subst sameMem
    exact ⟨sameCode.symm,⟨old,loaded,store_line_fixed.mp stored⟩,w,place,sameCaches⟩
  · rintro ⟨rfl,⟨old,loaded,there⟩,w,place,rfl⟩
    rw [loaded,Option.bind_some,store_line_fixed.mpr there,Option.bind_some,place,Option.map_some]

/-! ### The four operations -/

instance : Nonempty stack_t := ⟨⟨fun _ => 0,fun _ => 0⟩⟩

theorem read_neutral (mem : mem_space) (paddr : phy_addr_t) (access : mem_access_t) (cs : caches)
    (replace : cache_replace_t) (e1 e2 : Int) :
    (∀ word stack, cache_read e1 mem paddr access cs word replace stack =
      cache_read e2 mem paddr access cs word replace stack) ↔
      replace ≠ .LRU ∨ address paddr % 16 ≠ 0 ∨ (e1 = 0 ↔ e2 = 0) := by
  by_cases policy : replace = .LRU
  · subst policy
    by_cases aligned : address paddr % 16 = 0
    · have values := fun word stack => two_valued (cache_read_clear mem access cs word stack aligned)
        (fun e set => cache_read_set set mem access cs word stack aligned) e1 e2
      constructor
      · intro same
        refine Or.inr (Or.inr (((values 1 ⟨fun _ => 0,fun _ => 0⟩).mp (same _ _)).resolve_right ?_))
        intro coincide
        obtain ⟨w,_,result⟩ := Option.map_eq_some_iff.mp coincide
        injection result with _ _ sameWord
        exact absurd sameWord (by decide)
      · rintro (other | misaligned | alike) word stack
        · exact absurd rfl other
        · exact absurd aligned misaligned
        · exact (values word stack).mpr (Or.inl alike)
    · refine ⟨fun _ => Or.inr (Or.inl aligned),?_⟩
      intro _ word stack
      rw [read_misaligned e1 mem access cs word stack aligned,read_misaligned e2 mem access cs word stack aligned]
  · refine ⟨fun _ => Or.inl policy,?_⟩
    intro _ word stack
    unfold cache_read
    rw [require_fails policy,require_fails policy]

theorem address_word_aligned (paddr : phy_addr_t) : address (word_aligned paddr) = address paddr - address paddr % 4 := by
  have rest : (paddr.page_offset % BitVec.ofNat 12 ALIGNED_OF_WORDS_NUMBER).toNat = paddr.page_offset.toNat % 4 := by
    rw [BitVec.toNat_umod]
    rfl
  have less : paddr.page_offset % BitVec.ofNat 12 ALIGNED_OF_WORDS_NUMBER ≤ paddr.page_offset := by
    rw [BitVec.le_def,rest]
    exact Nat.mod_le _ _
  rw [address_correct,address_correct,word_aligned]
  simp only
  rw [BitVec.toNat_sub_of_le less,rest]
  omega

theorem read_byte_refused (errno : Int) (mem : mem_space) {paddr : phy_addr_t} (access : mem_access_t) (cs : caches)
    (p_byte : byte_t) (replace : cache_replace_t) (stack : stack_t) (misaligned : address paddr % 16 ≠ 0) :
    cache_read_byte errno mem paddr access cs p_byte replace stack = some ⟨.ERR_BAD_PARAMETER,cs,p_byte⟩ := by
  have refused : ¬ (paddr_to_uint32_t paddr).toNat % L1_ICACHE_LINE = 0 := misaligned
  unfold cache_read_byte
  exact require_fails refused _ _

/-- A byte read with `errno` set answers as the word read does, and writes no byte. -/
theorem read_byte_set {e : Int} (set : e ≠ 0) (mem : mem_space) {paddr : phy_addr_t} (access : mem_access_t) (cs : caches)
    (byte : byte_t) (replace : cache_replace_t) (stack : stack_t) (aligned : address paddr % 16 = 0) :
    cache_read_byte e mem paddr access cs byte replace stack =
      if replace = .LRU then
        some ⟨.ERR_NONE,{ cs with l1_cache := looked_up .l1_cache cs.l1_cache (address (word_aligned paddr)) },byte⟩
      else some ⟨.ERR_POLICY,cs,byte⟩ := by
  have accepted : (paddr_to_uint32_t paddr).toNat % L1_ICACHE_LINE = 0 := aligned
  have alsoAligned : address (word_aligned paddr) % 16 = 0 := by
    rw [address_word_aligned]
    omega
  unfold cache_read_byte
  rw [require_holds accepted]
  dsimp only
  rw [no_errno_set set]
  by_cases policy : replace = .LRU
  · subst policy
    rw [cache_read_set set _ _ _ _ _ alsoAligned,if_pos rfl]
    rfl
  · have refused : cache_read e mem (word_aligned paddr) access cs (-1) replace stack = some ⟨.ERR_POLICY,cs,-1⟩ := by
      unfold cache_read
      exact require_fails policy _ _
    rw [refused,if_neg policy]
    rfl

theorem read_byte_clear (mem : mem_space) {paddr : phy_addr_t} (access : mem_access_t) (cs : caches)
    (byte : byte_t) (replace : cache_replace_t) (stack : stack_t) (aligned : address paddr % 16 = 0) :
    cache_read_byte 0 mem paddr access cs byte replace stack =
      some ⟨.ERR_NONE,cs,(((-1 : word_t) >>> ((bit_select paddr).toNat * OCTET)) &&& BYTE_MASK).setWidth 8⟩ := by
  have accepted : (paddr_to_uint32_t paddr).toNat % L1_ICACHE_LINE = 0 := aligned
  unfold cache_read_byte
  rw [require_holds accepted]
  dsimp only
  rw [no_errno_clear]

theorem other_byte (delivered : byte_t) : ∃ byte, delivered ≠ byte := by
  have differs : ∀ byte : byte_t, byte ≠ byte + 1 := by decide
  exact ⟨delivered + 1,differs delivered⟩

theorem read_byte_neutral (mem : mem_space) (paddr : phy_addr_t) (access : mem_access_t) (cs : caches)
    (replace : cache_replace_t) (e1 e2 : Int) :
    (∀ byte stack, cache_read_byte e1 mem paddr access cs byte replace stack =
      cache_read_byte e2 mem paddr access cs byte replace stack) ↔ address paddr % 16 ≠ 0 ∨ (e1 = 0 ↔ e2 = 0) := by
  by_cases aligned : address paddr % 16 = 0
  · have values := fun byte stack => two_valued (read_byte_clear mem access cs byte replace stack aligned)
      (fun e set => read_byte_set set mem access cs byte replace stack aligned) e1 e2
    constructor
    · intro same
      obtain ⟨byte,other⟩ :=
        other_byte ((((-1 : word_t) >>> ((bit_select paddr).toNat * OCTET)) &&& BYTE_MASK).setWidth 8)
      refine Or.inr (((values byte ⟨fun _ => 0,fun _ => 0⟩).mp (same _ _)).resolve_right ?_)
      intro coincide
      split at coincide
      · injection coincide with coincide
        injection coincide with _ _ sameByte
        exact other sameByte
      · injection coincide with coincide
        injection coincide with sameCode
        cases sameCode
    · rintro (misaligned | alike) byte stack
      · exact absurd aligned misaligned
      · exact (values byte stack).mpr (Or.inl alike)
  · refine ⟨fun _ => Or.inl aligned,?_⟩
    intro _ byte stack
    rw [read_byte_refused e1 mem access cs byte replace stack aligned,
      read_byte_refused e2 mem access cs byte replace stack aligned]

theorem write_refused {replace : cache_replace_t} (policy : replace ≠ .LRU) (e : Int) (mem : mem_space)
    (paddr : phy_addr_t) (cs : caches) (word : word_t) (stack : stack_t) :
    cache_write e mem paddr cs word replace stack = some ⟨.ERR_POLICY,mem,cs⟩ := by
  unfold cache_write
  exact require_fails policy _ _

/-- A write with a clear `errno` does what one with `errno` set does only where neither changes anything. -/
theorem write_coincides {mem : mem_space} {paddr : phy_addr_t} {cs : caches} {word : word_t} {stack : stack_t} :
    cache_write 0 mem paddr cs word .LRU stack =
      some ⟨.ERR_NONE,mem,{ cs with l2_cache := looked_up .l2_cache cs.l2_cache (address paddr) }⟩ ↔
      Settled mem (address paddr) word ∧ AgesSettled cs (address paddr) ∧
        LookupSettled .l2_cache cs.l2_cache (address paddr) := by
  rw [write_clear_result,← looked_up_fixed]
  constructor
  · rintro ⟨_,settled,w,place,same⟩
    obtain ⟨sameL1,sameL2⟩ := aged_eq_iff.mp same
    exact ⟨settled,⟨w,place,(aged_fixed cs _ w).mp sameL1⟩,sameL2.symm⟩
  · rintro ⟨settled,⟨w,place,fixed⟩,sameL2⟩
    exact ⟨rfl,settled,w,place,aged_eq_iff.mpr ⟨(aged_fixed cs _ w).mpr fixed,sameL2.symm⟩⟩

theorem write_neutral (mem : mem_space) (paddr : phy_addr_t) (cs : caches) (word : word_t)
    (replace : cache_replace_t) (e1 e2 : Int) :
    (∀ stack, cache_write e1 mem paddr cs word replace stack = cache_write e2 mem paddr cs word replace stack) ↔
      replace ≠ .LRU ∨ (e1 = 0 ↔ e2 = 0) ∨
        (Settled mem (address paddr) word ∧ AgesSettled cs (address paddr) ∧
          LookupSettled .l2_cache cs.l2_cache (address paddr)) := by
  by_cases policy : replace = .LRU
  · subst policy
    have values := fun stack => two_valued (f := fun e => cache_write e mem paddr cs word .LRU stack) rfl
      (fun e set => cache_write_set set mem paddr cs word stack) e1 e2
    rw [forall_congr' (fun stack => (values stack).trans (or_congr_right write_coincides)),forall_const]
    simp
  · refine ⟨fun _ => Or.inl policy,?_⟩
    intro _ stack
    rw [write_refused policy,write_refused policy]

/-- A byte write with `errno` set is the read of its word, and writes nothing. -/
theorem write_byte_set {e : Int} (set : e ≠ 0) (mem : mem_space) (paddr : phy_addr_t) (cs : caches) (p_byte : byte_t)
    (stack : stack_t) : cache_write_byte e mem paddr cs p_byte .LRU stack =
      if address (word_aligned paddr) % 16 = 0 then
        some ⟨.ERR_NONE,mem,{ cs with l1_cache := looked_up .l1_cache cs.l1_cache (address (word_aligned paddr)) }⟩
      else some ⟨.ERR_BAD_PARAMETER,mem,cs⟩ := by
  unfold cache_write_byte
  rw [require_holds rfl]
  dsimp only
  rw [no_errno_set set]
  by_cases aligned : address (word_aligned paddr) % 16 = 0
  · rw [cache_read_set set _ _ _ _ _ aligned,if_pos aligned]
    rfl
  · rw [read_misaligned e mem .DATA cs (-1) stack aligned,if_neg aligned]
    rfl

theorem write_byte_clear (mem : mem_space) (paddr : phy_addr_t) (cs : caches) (p_byte : byte_t) (stack : stack_t) :
    cache_write_byte 0 mem paddr cs p_byte .LRU stack =
      cache_write 0 mem (word_aligned paddr) cs (merge_byte (-1) p_byte (bit_select paddr)) .LRU stack := by
  unfold cache_write_byte
  rw [require_holds rfl]
  dsimp only
  rw [no_errno_clear]

/-- A fill and a hit of L1 never leave the same ages: the hit clears one. -/
theorem aged_looked_up {cs : caches} {p : Nat} {w : Fin L1.WAYS}
    (same : (aged cs p w).l1_cache = looked_up .l1_cache cs.l1_cache p) :
    hit_in .l1_cache cs.l1_cache p = none ∧ (aged cs p w).l1_cache = cs.l1_cache := by
  unfold looked_up at same
  cases found : hit_in .l1_cache cs.l1_cache p with
  | none =>
    rw [found] at same
    exact ⟨rfl,same⟩
  | some way =>
    rw [found] at same
    have ages := congrArg (fun cache : Cache.cache L1 => (cache (set_of .l1_cache p) way).age) same
    simp only [aged,with_ages,updated,↓reduceIte] at ages
    exact absurd ages (increased_ne_zero _ _)

theorem write_byte_coincides {mem : mem_space} {paddr : phy_addr_t} {cs : caches} {word : word_t} {stack : stack_t} :
    (cache_write 0 mem paddr cs word .LRU stack =
      if address paddr % 16 = 0 then
        some ⟨.ERR_NONE,mem,{ cs with l1_cache := looked_up .l1_cache cs.l1_cache (address paddr) }⟩
      else some ⟨.ERR_BAD_PARAMETER,mem,cs⟩) ↔
      address paddr % 16 = 0 ∧ Settled mem (address paddr) word ∧ AgesSettled cs (address paddr) ∧
        hit_in .l1_cache cs.l1_cache (address paddr) = none := by
  by_cases aligned : address paddr % 16 = 0
  · rw [if_pos aligned,write_clear_result]
    constructor
    · rintro ⟨_,settled,w,place,same⟩
      obtain ⟨miss,fixed⟩ := aged_looked_up (aged_eq_iff.mp same).1
      exact ⟨aligned,settled,⟨w,place,(aged_fixed cs _ w).mp fixed⟩,miss⟩
    · rintro ⟨_,settled,⟨w,place,fixed⟩,miss⟩
      have unchanged : looked_up .l1_cache cs.l1_cache (address paddr) = cs.l1_cache := by
        unfold looked_up
        rw [miss]
      exact ⟨rfl,settled,w,place,aged_eq_iff.mpr ⟨((aged_fixed cs _ w).mpr fixed).trans unchanged.symm,rfl⟩⟩
  · rw [if_neg aligned,write_clear_result]
    constructor
    · rintro ⟨code,_⟩
      cases code
    · rintro ⟨also,_⟩
      exact absurd also aligned

theorem write_byte_neutral (mem : mem_space) (paddr : phy_addr_t) (cs : caches) (p_byte : byte_t)
    (replace : cache_replace_t) (e1 e2 : Int) :
    (∀ stack, cache_write_byte e1 mem paddr cs p_byte replace stack =
      cache_write_byte e2 mem paddr cs p_byte replace stack) ↔
      replace ≠ .LRU ∨ (e1 = 0 ↔ e2 = 0) ∨
        (address (word_aligned paddr) % 16 = 0 ∧
          Settled mem (address (word_aligned paddr)) (merge_byte (-1) p_byte (bit_select paddr)) ∧
          AgesSettled cs (address (word_aligned paddr)) ∧
          hit_in .l1_cache cs.l1_cache (address (word_aligned paddr)) = none) := by
  by_cases policy : replace = .LRU
  · subst policy
    have values := fun stack => two_valued (write_byte_clear mem paddr cs p_byte stack)
      (fun e set => write_byte_set set mem paddr cs p_byte stack) e1 e2
    rw [forall_congr' (fun stack => (values stack).trans (or_congr_right write_byte_coincides)),forall_const]
    simp
  · refine ⟨fun _ => Or.inl policy,?_⟩
    intro _ stack
    unfold cache_write_byte
    rw [require_fails policy,require_fails policy]

/-- When the operations give the same from two values of `errno`, whatever the
    locals and the caller's word or byte hold beforehand. -/
theorem operations_neutral_iff (e1 e2 : Int) (mem : mem_space) (paddr : phy_addr_t) (access : mem_access_t)
    (cs : caches) (word : word_t) (byte : byte_t) (replace : cache_replace_t) :
    ((∀ word stack, cache_read e1 mem paddr access cs word replace stack =
        cache_read e2 mem paddr access cs word replace stack) ↔
      replace ≠ .LRU ∨ address paddr % 16 ≠ 0 ∨ (e1 = 0 ↔ e2 = 0)) ∧
    ((∀ byte stack, cache_read_byte e1 mem paddr access cs byte replace stack =
        cache_read_byte e2 mem paddr access cs byte replace stack) ↔ address paddr % 16 ≠ 0 ∨ (e1 = 0 ↔ e2 = 0)) ∧
    ((∀ stack, cache_write e1 mem paddr cs word replace stack = cache_write e2 mem paddr cs word replace stack) ↔
      replace ≠ .LRU ∨ (e1 = 0 ↔ e2 = 0) ∨
        (Settled mem (address paddr) word ∧ AgesSettled cs (address paddr) ∧
          LookupSettled .l2_cache cs.l2_cache (address paddr))) ∧
    ((∀ stack, cache_write_byte e1 mem paddr cs byte replace stack =
        cache_write_byte e2 mem paddr cs byte replace stack) ↔
      replace ≠ .LRU ∨ (e1 = 0 ↔ e2 = 0) ∨
        (address (word_aligned paddr) % 16 = 0 ∧
          Settled mem (address (word_aligned paddr)) (merge_byte (-1) byte (bit_select paddr)) ∧
          AgesSettled cs (address (word_aligned paddr)) ∧
          hit_in .l1_cache cs.l1_cache (address (word_aligned paddr)) = none)) :=
  ⟨read_neutral mem paddr access cs replace e1 e2,read_byte_neutral mem paddr access cs replace e1 e2,
    write_neutral mem paddr cs word replace e1 e2,write_byte_neutral mem paddr cs byte replace e1 e2⟩

/-- A read of address 0 of flushed caches writes the word it is given only with a clear `errno`. -/
theorem read_depends_on_errno : cache_read 0 zero_block ⟨0,0⟩ .DATA flushed 1 .LRU zero_stack ≠
    cache_read 1 zero_block ⟨0,0⟩ .DATA flushed 1 .LRU zero_stack := by
  have aligned : address ⟨0,0⟩ % 16 = 0 := by decide
  rw [cache_read_clear zero_block .DATA flushed 1 zero_stack aligned,
    cache_read_set (by decide) zero_block .DATA flushed 1 zero_stack aligned]
  intro same
  obtain ⟨w,_,result⟩ := Option.map_eq_some_iff.mp same
  injection result with _ _ sameWord
  exact absurd sameWord (by decide)

end CacheEmulator.ErrnoNeutral
