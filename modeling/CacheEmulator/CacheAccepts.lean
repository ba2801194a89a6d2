import CacheEmulator.CacheBytes

/-!
Which addresses the four operations accept. The word read and the byte read ask
for the alignment of a line where that of a word, or none, would do; the word
write asks for none; and the byte write takes what the operations below it take.
-/
namespace CacheEmulator.CacheAccepts
open CacheEmulator.Error CacheEmulator.Memory CacheEmulator.Addr CacheEmulator.Cache CacheEmulator.CacheMng
open CacheEmulator.CacheCalls CacheEmulator.Coherence CacheEmulator.ErrnoNeutral CacheEmulator.CacheBytes

/-- A word operation takes the addresses of words, and refuses the others without an effect. -/
def WordAlignment {β : Type} (p : Nat) (result : Option β) (code : β → error_code) (Unchanged : β → Prop) : Prop :=
  if p % 4 = 0 then ∃ r, result = some r ∧ code r = .ERR_NONE
  else ∃ r, result = some r ∧ code r = .ERR_BAD_PARAMETER ∧ Unchanged r

theorem read_accepts_iff (errno : Int) (mem : mem_space) (paddr : phy_addr_t) (access : mem_access_t) (cs : caches)
    (word : word_t) (stack : stack_t) :
    WordAlignment (address paddr) (cache_read errno mem paddr access cs word .LRU stack) read_t.code
        (fun r => r.caches = cs) ↔
      address paddr % 4 ≠ 0 ∨ (address paddr % 16 = 0 ∧ ReadReturns errno cs (address paddr)) := by
  unfold WordAlignment
  by_cases aligned : address paddr % 16 = 0
  · have returns := cache_read_isSome errno mem access cs word stack aligned
    have word_aligned : address paddr % 4 = 0 := by omega
    rw [if_pos word_aligned,← returns,Option.isSome_iff_exists]
    simp only [word_aligned,aligned,ne_eq,not_true_eq_false,false_or,true_and]
    constructor
    · rintro ⟨r,ran,_⟩
      exact ⟨r,ran⟩
    · rintro ⟨r,ran⟩
      exact ⟨r,ran,(cache_read_returns aligned ran).1⟩
  · rw [read_misaligned errno mem access cs word stack aligned]
    by_cases word_aligned : address paddr % 4 = 0
    · rw [if_pos word_aligned]
      constructor
      · rintro ⟨r,ran,code⟩
        obtain rfl := Option.some.inj ran
        cases code
      · rintro (other | ⟨also,_⟩)
        · exact absurd word_aligned other
        · exact absurd also aligned
    · rw [if_neg word_aligned]
      exact ⟨fun _ => .inl word_aligned,fun _ => ⟨_,rfl,rfl,rfl⟩⟩

/-- No write is refused for its address. -/
theorem write_accepts_iff (errno : Int) (mem : mem_space) (paddr : phy_addr_t) (cs : caches) (word : word_t)
    (stack : stack_t) :
    WordAlignment (address paddr) (cache_write errno mem paddr cs word .LRU stack) write_t.code
        (fun r => r.caches = cs ∧ r.mem = mem) ↔
      address paddr % 4 = 0 ∧ WriteReturns errno mem cs (address paddr) := by
  unfold WordAlignment
  rw [← cache_write_isSome errno mem paddr cs word stack,Option.isSome_iff_exists]
  by_cases aligned : address paddr % 4 = 0
  · rw [if_pos aligned]
    constructor
    · rintro ⟨r,ran,_⟩
      exact ⟨aligned,r,ran⟩
    · rintro ⟨_,r,ran⟩
      exact ⟨r,ran,(cache_write_returns ran).1⟩
  · rw [if_neg aligned]
    constructor
    · rintro ⟨r,ran,refused,_⟩
      rw [(cache_write_returns ran).1] at refused
      cases refused
    · rintro ⟨also,_⟩
      exact absurd also aligned

theorem read_byte_accepts_iff (errno : Int) (mem : mem_space) (paddr : phy_addr_t) (access : mem_access_t) (cs : caches)
    (p_byte : byte_t) (stack : stack_t) :
    (∃ r, cache_read_byte errno mem paddr access cs p_byte .LRU stack = some r ∧ r.code = .ERR_NONE) ↔
      address paddr % 16 = 0 := by
  constructor
  · rintro ⟨r,ran,code⟩
    by_contra misaligned
    rw [read_byte_refused errno mem access cs p_byte .LRU stack misaligned] at ran
    obtain rfl := Option.some.inj ran
    cases code
  · intro aligned
    by_cases clear : errno = 0
    · rw [clear]
      exact ⟨_,read_byte_ones mem access cs p_byte stack aligned,rfl⟩
    · rw [read_byte_set clear mem access cs p_byte .LRU stack aligned,if_pos rfl]
      exact ⟨_,rfl,rfl⟩

/-- When each of the operations accepts as it should: the reads of the first byte
    of a line or, for words, of no word; the writes of words, where they return;
    and with `errno` set the byte writes into the first word of a line. -/
theorem operations_accept_iff (errno : Int) (mem : mem_space) (paddr : phy_addr_t) (access : mem_access_t) (cs : caches)
    (word : word_t) (p_byte : byte_t) (stack : stack_t) :
    (WordAlignment (address paddr) (cache_read errno mem paddr access cs word .LRU stack) read_t.code
        (fun r => r.caches = cs) ↔
      address paddr % 4 ≠ 0 ∨ (address paddr % 16 = 0 ∧ ReadReturns errno cs (address paddr))) ∧
    (WordAlignment (address paddr) (cache_write errno mem paddr cs word .LRU stack) write_t.code
        (fun r => r.caches = cs ∧ r.mem = mem) ↔
      address paddr % 4 = 0 ∧ WriteReturns errno mem cs (address paddr)) ∧
    ((∃ r, cache_read_byte errno mem paddr access cs p_byte .LRU stack = some r ∧ r.code = .ERR_NONE) ↔
      address paddr % 16 = 0) ∧
    ((∃ r, cache_write_byte errno mem paddr cs p_byte .LRU stack = some r ∧ r.code = .ERR_NONE) ↔
      ByteWriteAccepted errno mem cs (address paddr)) :=
  ⟨read_accepts_iff errno mem paddr access cs word stack,write_accepts_iff errno mem paddr cs word stack,
    read_byte_accepts_iff errno mem paddr access cs p_byte stack,write_byte_accepted errno mem paddr cs p_byte stack⟩

/-- The read of the second word of flushed caches is refused. -/
theorem read_second_word_refused : address ⟨0,4⟩ % 4 = 0 ∧ address ⟨0,4⟩ < zero_block.capacity ∧
    ¬ WordAlignment (address ⟨0,4⟩) (cache_read 0 zero_block ⟨0,4⟩ .DATA flushed 0 .LRU zero_stack) read_t.code
      (fun r => r.caches = flushed) := by
  have aligned : address ⟨0,4⟩ % 4 = 0 := by decide
  refine ⟨aligned,by decide,?_⟩
  rw [WordAlignment,if_pos aligned,read_misaligned 0 zero_block .DATA flushed 0 zero_stack (by decide)]
  rintro ⟨r,ran,code⟩
  obtain rfl := Option.some.inj ran
  cases code

end CacheEmulator.CacheAccepts
