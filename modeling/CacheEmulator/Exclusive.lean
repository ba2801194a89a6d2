import CacheEmulator.Coherence

/-!
The exclusive policy: what a read should move between memory, L2 and L1, and
what the reads that return do instead. They change ages only, so nothing is
filled or promoted; a read that would have to evict a line does not return.
-/
namespace CacheEmulator.Exclusive
open CacheEmulator.Error CacheEmulator.Memory CacheEmulator.Addr CacheEmulator.Cache CacheEmulator.CacheMng
open CacheEmulator.CacheCalls CacheEmulator.Coherence

variable {g : geometry}

/-- A level has the same lines as before, but for those of one address. -/
def SameBut (before after : cache g) (a : Nat) : Prop :=
  ∀ b words, b ≠ a → (Line after b words ↔ Line before b words)

/-- The line of an address was in a level before and is not there any more. -/
def Left (before after : cache g) (a : Nat) : Prop := (∃ words, Line before a words) ∧ ∀ words, ¬ Line after a words

/-- The line of an oldest way of a full L1 set went to L2, whence at most one
    line of its set had to go, and only if that set was full. -/
structure Evicted (p : Nat) (before after : caches) (victim : Nat) (words : line_t) : Prop where
  gone : ∀ words, ¬ Line after.l1_cache victim words
  others : ∀ a words, a ≠ p → a ≠ victim → (Line after.l1_cache a words ↔ Line before.l1_cache a words)
  moved : ∀ words', Line after.l2_cache victim words' ↔ words' = words
  keeps : ∀ a words, a ≠ victim → Line after.l2_cache a words → Line before.l2_cache a words
  displaced : ∀ a, Left before.l2_cache after.l2_cache a → set_of .l2_cache a = set_of .l2_cache victim ∧
    ∀ w, (before.l2_cache (set_of .l2_cache victim) w).v = 1#1
  once : ∀ a b, Left before.l2_cache after.l2_cache a → Left before.l2_cache after.l2_cache b → a = b

/-- What a read of a line that no level holds should do. -/
structure Filled (mem : mem_space) (p : Nat) (before after : caches) : Prop where
  placed : ∃! w, Holds after.l1_cache (set_of .l1_cache p) w p
  words : ∀ words, Line after.l1_cache p words → load_line mem (line_base p) = some words
  absent : ∀ words, ¬ Line after.l2_cache p words
  cold : Cold before p → SameBut before.l1_cache after.l1_cache p ∧ SameBut before.l2_cache after.l2_cache p
  full : ¬ Cold before p → ∃ w, (∀ w', (before.l1_cache (set_of .l1_cache p) w').age ≤
      (before.l1_cache (set_of .l1_cache p) w).age) ∧
    Evicted p before after (line_address L1 (set_of .l1_cache p) (before.l1_cache (set_of .l1_cache p) w).tag)
      (before.l1_cache (set_of .l1_cache p) w).line

/-- What a read of a line that a way of L2 holds should do. -/
structure Promoted (p : Nat) (before after : caches) (way : Fin L2.WAYS) (word : word_t) : Prop where
  delivered : word = word_of (before.l2_cache (set_of .l2_cache p) way).line 0
  left : ¬ Holds after.l2_cache (set_of .l2_cache p) way p
  placed : ∃! w, Holds after.l1_cache (set_of .l1_cache p) w p
  words : ∀ w, Holds after.l1_cache (set_of .l1_cache p) w p →
    (after.l1_cache (set_of .l1_cache p) w).line = (before.l2_cache (set_of .l2_cache p) way).line

/-- A read that returns puts no line into L1. -/
theorem read_places_nothing {errno : Int} {mem : mem_space} {paddr : phy_addr_t} {access : mem_access_t} {cs : caches}
    {word : word_t} {stack : stack_t} (aligned : address paddr % 16 = 0)
    (absent : ∀ words, ¬ Line cs.l1_cache (address paddr) words) {r : read_t}
    (ran : cache_read errno mem paddr access cs word .LRU stack = some r) :
    ∀ w, ¬ Holds r.caches.l1_cache (set_of .l1_cache (address paddr)) w (address paddr) := by
  obtain ⟨_,same,_⟩ := cache_read_returns aligned ran
  intro w held
  exact absent _ ⟨_,w,(holds_same same).mp held,rfl⟩

/-- No read that returns fills L1 with a line that no level held. -/
theorem read_fill_iff (errno : Int) (mem : mem_space) (paddr : phy_addr_t) (access : mem_access_t) (cs : caches)
    (word : word_t) (stack : stack_t) (aligned : address paddr % 16 = 0)
    (absent : ∀ words, ¬ Line cs.l1_cache (address paddr) words) :
    ((cache_read errno mem paddr access cs word .LRU stack).isSome ↔ ReadReturns errno cs (address paddr)) ∧
    ((∀ r, cache_read errno mem paddr access cs word .LRU stack = some r → r.code = .ERR_NONE →
      Filled mem (address paddr) cs r.caches) ↔ ¬ ReadReturns errno cs (address paddr)) := by
  have returns := cache_read_isSome errno mem access cs word stack aligned
  refine ⟨returns,?_⟩
  constructor
  · intro fills defined
    obtain ⟨r,ran⟩ := Option.isSome_iff_exists.mp (returns.mpr defined)
    obtain ⟨w,held,_⟩ := (fills r ran (cache_read_returns aligned ran).1).placed
    exact read_places_nothing aligned absent ran w held
  · intro undefined r ran _
    rw [ran] at returns
    exact absurd (returns.mp rfl) undefined

/-- The read at address 0 of flushed caches, and of caches with the line in L2. -/
def paddr_0 : phy_addr_t := ⟨0,0⟩

theorem read_fill_iff_flushed :
    ((cache_read 0 zero_block paddr_0 .DATA flushed 0 .LRU zero_stack).isSome ↔
      ReadReturns 0 flushed (address paddr_0)) ∧
    ((∀ r, cache_read 0 zero_block paddr_0 .DATA flushed 0 .LRU zero_stack = some r → r.code = .ERR_NONE →
      Filled zero_block (address paddr_0) flushed r.caches) ↔ ¬ ReadReturns 0 flushed (address paddr_0)) :=
  read_fill_iff 0 zero_block paddr_0 .DATA flushed 0 zero_stack (by decide) (flushed_absent _)

/-- No line address is held twice, neither in one level nor in both. -/
structure ExclusiveLines (cs : caches) : Prop where
  first : ∀ s s' w w' a, Holds cs.l1_cache s w a → Holds cs.l1_cache s' w' a → s = s' ∧ w = w'
  second : ∀ s s' w w' a, Holds cs.l2_cache s w a → Holds cs.l2_cache s' w' a → s = s' ∧ w = w'
  apart : ∀ a words words', Line cs.l1_cache a words → ¬ Line cs.l2_cache a words'

theorem flushed_exclusive : ExclusiveLines flushed := by
  refine ⟨?_,?_,?_⟩
  · rintro s s' w w' a held
    exact absurd ⟨s,w,held,rfl⟩ (flushed_absent a _)
  · rintro s s' w w' a held
    exact absurd ⟨s,w,held,rfl⟩ (flushed_absent a _)
  · intro a words words' held
    exact absurd held (flushed_absent a words)

/-- The first read of a flushed hierarchy returns without an error and fills nothing. -/
theorem first_read_fills_nothing : ExclusiveLines flushed ∧ address paddr_0 % 16 = 0 ∧
    (∀ words, ¬ Line flushed.l1_cache (address paddr_0) words ∧ ¬ Line flushed.l2_cache (address paddr_0) words) ∧
    ∃ r, cache_read 0 zero_block paddr_0 .DATA flushed 0 .LRU zero_stack = some r ∧ r.code = .ERR_NONE ∧
      ¬ Filled zero_block (address paddr_0) flushed r.caches := by
  have aligned : address paddr_0 % 16 = 0 := by decide
  obtain ⟨r,ran⟩ := Option.isSome_iff_exists.mp
    ((cache_read_isSome 0 zero_block .DATA flushed 0 zero_stack aligned).mpr (Or.inr ⟨⟨0,by decide⟩,rfl⟩))
  refine ⟨flushed_exclusive,aligned,fun words => ⟨flushed_absent _ words,flushed_absent _ words⟩,r,ran,
    (cache_read_returns aligned ran).1,?_⟩
  intro filled
  obtain ⟨w,held,_⟩ := filled.placed
  exact read_places_nothing aligned (flushed_absent _) ran w held

/-- No read that returns moves a line from L2. -/
theorem read_promotion_iff (errno : Int) (mem : mem_space) (paddr : phy_addr_t) (access : mem_access_t) (cs : caches)
    (word : word_t) (stack : stack_t) (aligned : address paddr % 16 = 0) (way : Fin L2.WAYS)
    (held : Holds cs.l2_cache (set_of .l2_cache (address paddr)) way (address paddr)) :
    ((cache_read errno mem paddr access cs word .LRU stack).isSome ↔ ReadReturns errno cs (address paddr)) ∧
    ((∀ r, cache_read errno mem paddr access cs word .LRU stack = some r → r.code = .ERR_NONE →
      Promoted (address paddr) cs r.caches way r.word) ↔ ¬ ReadReturns errno cs (address paddr)) := by
  have returns := cache_read_isSome errno mem access cs word stack aligned
  refine ⟨returns,?_⟩
  constructor
  · intro promotes defined
    obtain ⟨r,ran⟩ := Option.isSome_iff_exists.mp (returns.mpr defined)
    obtain ⟨code,_,sameL2,_⟩ := cache_read_returns aligned ran
    refine (promotes r ran code).left ?_
    rw [sameL2]
    exact held
  · intro undefined r ran _
    rw [ran] at returns
    exact absurd (returns.mp rfl) undefined

/-- Only the first way of the first set of L2 holds a line. -/
def in_l2 : caches := { flushed with l2_cache := put flushed.l2_cache ⟨0,by decide⟩ ⟨0,by decide⟩ ⟨1#1,0,0,fun _ => 0⟩ }

theorem in_l2_held : Holds in_l2.l2_cache (set_of .l2_cache (address paddr_0)) ⟨0,by decide⟩ (address paddr_0) :=
  ⟨by decide,by decide⟩

theorem read_promotion_iff_in_l2 :
    ((cache_read 0 zero_block paddr_0 .DATA in_l2 0 .LRU zero_stack).isSome ↔ ReadReturns 0 in_l2 (address paddr_0)) ∧
    ((∀ r, cache_read 0 zero_block paddr_0 .DATA in_l2 0 .LRU zero_stack = some r → r.code = .ERR_NONE →
      Promoted (address paddr_0) in_l2 r.caches ⟨0,by decide⟩ r.word) ↔ ¬ ReadReturns 0 in_l2 (address paddr_0)) :=
  read_promotion_iff 0 zero_block paddr_0 .DATA in_l2 0 zero_stack (by decide) ⟨0,by decide⟩ in_l2_held

theorem in_l2_exclusive : ExclusiveLines in_l2 := by
  have slot : ∀ {s w a}, Holds in_l2.l2_cache s w a → s = ⟨0,by decide⟩ ∧ w = ⟨0,by decide⟩ := by
    rintro s w a ⟨valid,_⟩
    rw [in_l2] at valid
    simp only [put_apply] at valid
    split at valid
    · assumption
    · cases valid
  refine ⟨?_,?_,?_⟩
  · rintro s s' w w' a held
    exact absurd ⟨s,w,held,rfl⟩ (flushed_absent a _)
  · intro s s' w w' a held held'
    obtain ⟨rfl,rfl⟩ := slot held
    obtain ⟨rfl,rfl⟩ := slot held'
    exact ⟨rfl,rfl⟩
  · intro a words words' held
    exact absurd held (flushed_absent a words)

/-- The read of a line in L2 returns without an error and leaves it there. -/
theorem l2_read_moves_nothing : ExclusiveLines in_l2 ∧ address paddr_0 % 16 = 0 ∧
    Holds in_l2.l2_cache (set_of .l2_cache (address paddr_0)) ⟨0,by decide⟩ (address paddr_0) ∧
    ∃ r, cache_read 0 zero_block paddr_0 .DATA in_l2 0 .LRU zero_stack = some r ∧ r.code = .ERR_NONE ∧
      ¬ Promoted (address paddr_0) in_l2 r.caches ⟨0,by decide⟩ r.word := by
  have aligned : address paddr_0 % 16 = 0 := by decide
  obtain ⟨r,ran⟩ := Option.isSome_iff_exists.mp
    ((cache_read_isSome 0 zero_block .DATA in_l2 0 zero_stack aligned).mpr (Or.inr ⟨⟨0,by decide⟩,rfl⟩))
  obtain ⟨code,_,sameL2,_⟩ := cache_read_returns aligned ran
  refine ⟨in_l2_exclusive,aligned,in_l2_held,r,ran,code,?_⟩
  intro promoted
  refine promoted.left ?_
  rw [sameL2]
  exact in_l2_held

end CacheEmulator.Exclusive
