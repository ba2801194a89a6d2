import CacheEmulator.Bytes
import CacheEmulator.ErrnoNeutral

/-!
Bytes read and written through the caches: a byte is taken out of a word, or
merged into one that is then written. One of the four masks of the merge is
short of a digit, and with a clear `errno` the word is never fetched.
-/
namespace CacheEmulator.CacheBytes
open CacheEmulator.Error CacheEmulator.Memory CacheEmulator.Addr CacheEmulator.Cache CacheEmulator.CacheMng
open CacheEmulator.CacheCalls CacheEmulator.Coherence CacheEmulator.ErrnoNeutral CacheEmulator.Bytes

/-! ### Merge and extraction -/

/-- The byte that `cache_read_byte` takes out of the word it has read. -/
def extract_byte (word : word_t) (bit_select : BitVec 8) : byte_t :=
  ((word >>> (bit_select.toNat * OCTET)) &&& BYTE_MASK).setWidth 8

/-- The place of a byte in its word, as the code selects it. -/
def position (s : Fin 4) : BitVec 8 := BitVec.ofNat 8 s.val

/-- The four masks of the merge. -/
def merge_mask (s : Fin 4) : BitVec 32 :=
  match s.val with
  | 0 => 0xFFFFFF00
  | 1 => 0xFFF00FF
  | 2 => 0xFF00FFFF
  | _ => 0x00FFFFFF

theorem position_number (s : Fin 4) : (position s).toNat = s.val := by
  revert s
  decide

theorem extract_byte_correct (word : word_t) (s : Fin 4) : extract_byte word (position s) = byte word s.val := by
  rw [extract_byte,position_number,Nat.mul_comm]
  exact byte_shift_mask word s.val (by decide)

theorem merge_byte_masked (word : word_t) (b : byte_t) (s : Fin 4) :
    merge_byte word b (position s) = (word &&& merge_mask s) ||| (b.setWidth 32 <<< (8 * s.val)) := by
  have small := s.isLt
  rw [merge_byte,position_number,merge_mask]
  obtain ⟨s,inside⟩ := s
  rcases s with _ | _ | _ | _ | s
  · simp
  · rfl
  · rfl
  · rfl
  · omega

theorem merge_mask_byte : ∀ s i : Fin 4,
    byte (merge_mask s) i.val = if i = s then 0 else if s = 1 ∧ i = 3 then 0x0F else 0xFF := by
  decide

/-- The bytes of a merged word: at place 1 the top byte loses its upper half. -/
theorem merged_byte (word : word_t) (b : byte_t) (s i : Fin 4) : byte (merge_byte word b (position s)) i.val =
    if i = s then b else if s = 1 ∧ i = 3 then byte word i.val &&& 0x0F else byte word i.val := by
  have cleared : byte (merge_mask s) s.val = 0 := by rw [merge_mask_byte,if_pos rfl]
  have ones : (0xFF : BitVec 8) = BitVec.allOnes 8 := rfl
  rw [merge_byte_masked,byte_merge word _ b (by omega) cleared,merge_mask_byte]
  by_cases here : i = s
  · simp [here]
  · have elsewhere : i.val ≠ s.val := fun same => here (Fin.ext same)
    rw [if_neg elsewhere,if_neg here,if_neg here]
    split
    · rfl
    · rw [ones,BitVec.and_allOnes]

/-- The lower half of the top byte is all of it just below `2 ^ 28`. -/
theorem top_byte_half (word : word_t) : byte word 3 &&& 0x0F = byte word 3 ↔ word.toNat < 2 ^ 28 := by
  have masked := Bits.toNat_and_mask (byte word 3) (show 4 ≤ 8 by decide)
  have small := word.isLt
  have number := byte_number word 3
  rw [← BitVec.toNat_inj,show (0x0F : BitVec 8) = BitVec.ofNat 8 (2 ^ 4 - 1) from rfl,masked,number]
  omega

/-- The byte merged into a word is taken out of it again, and the others are those of the word. -/
def MergedAt (word : word_t) (b : byte_t) (s : Fin 4) : Prop :=
  extract_byte (merge_byte word b (position s)) (position s) = b ∧
    ∀ i, i ≠ s → extract_byte (merge_byte word b (position s)) (position i) = extract_byte word (position i)

/-- Merge and extraction are inverse just when the mask is a whole one or the
    digit it lacks is zero in the word. -/
theorem merge_extract_iff (word : word_t) (b : byte_t) (s : Fin 4) :
    MergedAt word b s ↔ s ≠ 1 ∨ word.toNat < 2 ^ 28 := by
  simp only [MergedAt,extract_byte_correct,merged_byte,↓reduceIte,true_and]
  rw [← top_byte_half]
  constructor
  · intro kept
    by_cases second : s = 1
    · have top := kept 3 (by rw [second]; decide)
      rw [if_neg (by rw [second]; decide),if_pos ⟨second,rfl⟩] at top
      exact .inr top
    · exact .inl second
  · intro whole i other
    rw [if_neg other]
    split
    · rename_i top
      rw [top.2]
      exact whole.resolve_left (fun different => different top.1)
    · rfl

/-- Byte 1 merged into `0xF0000000` clears the top byte. -/
theorem merge_clears_top_digit : ¬ MergedAt 0xF0000000 0 1 := by
  rintro ⟨_,kept⟩
  exact absurd (kept 3 (by decide)) (by decide)

/-! ### A byte read and the read of its word -/

/-- The place of the byte of an address. -/
def place (p : Nat) : Fin 4 := ⟨p % 4,Nat.mod_lt p (by decide)⟩

theorem bit_select_correct (paddr : phy_addr_t) : bit_select paddr = position (place (address paddr)) := by
  apply BitVec.eq_of_toNat_eq
  rw [position_number,address_correct,bit_select,BitVec.toNat_setWidth,BitVec.toNat_umod]
  simp only [place,ALIGNED_OF_WORDS_NUMBER,BitVec.toNat_ofNat,Nat.reducePow,Nat.reduceMod]
  omega

theorem word_aligned_same {paddr : phy_addr_t} (aligned : address paddr % 16 = 0) :
    address (word_aligned paddr) = address paddr := by
  rw [address_word_aligned]
  omega

/-- With a clear `errno` the byte delivered is one of the word that the code starts with. -/
theorem read_byte_ones (mem : mem_space) {paddr : phy_addr_t} (access : mem_access_t) (cs : caches) (p_byte : byte_t)
    (stack : stack_t) (aligned : address paddr % 16 = 0) :
    cache_read_byte 0 mem paddr access cs p_byte .LRU stack = some ⟨.ERR_NONE,cs,0xFF⟩ := by
  have low : place (address paddr) = 0 := Fin.ext (show address paddr % 4 = 0 by omega)
  have ones : extract_byte (-1) (bit_select paddr) = 0xFF := by
    rw [bit_select_correct,low]
    rfl
  rw [read_byte_clear mem access cs p_byte .LRU stack aligned,← ones]
  rfl

/-- An accepted byte read delivers the byte of its address from the word that the
    word read delivers, and both leave the same caches. The word read is given
    another word to overwrite, and another stack. -/
def AgreesWithWord (errno : Int) (mem : mem_space) (paddr : phy_addr_t) (access : mem_access_t) (cs : caches)
    (p_byte : byte_t) (stack : stack_t) (word : word_t) (stack' : stack_t) : Prop :=
  ∀ r, cache_read_byte errno mem paddr access cs p_byte .LRU stack = some r → r.code = .ERR_NONE →
    ∃ r', cache_read errno mem (word_aligned paddr) access cs word .LRU stack' = some r' ∧ r'.code = .ERR_NONE ∧
      r.byte = byte r'.word (address paddr % 4) ∧ r'.caches = r.caches

/-- A word read with a clear `errno` that leaves the caches alone, with a given lowest byte. -/
theorem read_settled_iff (mem : mem_space) {paddr : phy_addr_t} (access : mem_access_t) (cs : caches) (word : word_t)
    (stack : stack_t) (aligned : address paddr % 16 = 0) (b : byte_t) :
    (∃ r, cache_read 0 mem paddr access cs word .LRU stack = some r ∧ r.code = .ERR_NONE ∧ b = byte r.word 0 ∧
      r.caches = cs) ↔ AgesSettled cs (address paddr) ∧ b = byte (word_of stack.the_new_cache_entry 0) 0 := by
  rw [cache_read_clear mem access cs word stack aligned]
  constructor
  · rintro ⟨r,ran,_,low,same⟩
    obtain ⟨w,last,rfl⟩ := Option.map_eq_some_iff.mp ran
    have fixed := (aged_eq_iff.mp same).1
    exact ⟨⟨w,last,(aged_fixed cs _ w).mp fixed⟩,low⟩
  · rintro ⟨⟨w,last,fixed⟩,low⟩
    rw [last]
    exact ⟨_,rfl,rfl,low,aged_eq_iff.mpr ⟨(aged_fixed cs _ w).mpr fixed,rfl⟩⟩

/-- A byte read agrees with the read of its word when it is refused, or when what
    the skipped calls should have set happens to be right: with a clear `errno`
    the ages and what the stack holds, with a set one the byte of the caller. -/
theorem byte_agrees_iff (errno : Int) (mem : mem_space) (paddr : phy_addr_t) (access : mem_access_t) (cs : caches)
    (p_byte : byte_t) (stack : stack_t) (word : word_t) (stack' : stack_t) :
    AgreesWithWord errno mem paddr access cs p_byte stack word stack' ↔
      address paddr % 16 ≠ 0 ∨
      (errno = 0 ∧ AgesSettled cs (address paddr) ∧ byte (word_of stack'.the_new_cache_entry 0) 0 = 0xFF) ∨
      (errno ≠ 0 ∧ p_byte = byte word 0) := by
  by_cases aligned : address paddr % 16 = 0
  · have aligned' : address (word_aligned paddr) % 16 = 0 := by rw [word_aligned_same aligned,aligned]
    have low : address paddr % 4 = 0 := by omega
    rw [AgreesWithWord,low]
    by_cases clear : errno = 0
    · subst clear
      rw [read_byte_ones mem access cs p_byte stack aligned]
      have settled := read_settled_iff mem access cs word stack' aligned' 0xFF
      rw [word_aligned_same aligned] at settled
      constructor
      · intro agrees
        obtain ⟨ages,ones⟩ := settled.mp (agrees _ rfl rfl)
        exact .inr (.inl ⟨rfl,ages,ones.symm⟩)
      · rintro (misaligned | ⟨_,ages,ones⟩ | ⟨set,_⟩) r ran _
        · exact absurd aligned misaligned
        · obtain rfl := Option.some.inj ran
          exact settled.mpr ⟨ages,ones.symm⟩
        · exact absurd rfl set
    · rw [read_byte_set clear mem access cs p_byte .LRU stack aligned,if_pos rfl,
        cache_read_set clear mem access cs word stack' aligned']
      constructor
      · intro agrees
        obtain ⟨r',ran,_,same,_⟩ := agrees _ rfl rfl
        obtain rfl := Option.some.inj ran
        exact .inr (.inr ⟨clear,same⟩)
      · rintro (misaligned | ⟨zero,_⟩ | ⟨_,same⟩) r ran _
        · exact absurd aligned misaligned
        · exact absurd zero clear
        · obtain rfl := Option.some.inj ran
          exact ⟨_,rfl,rfl,same,rfl⟩
  · simp [AgreesWithWord,read_byte_refused errno mem access cs p_byte .LRU stack aligned,aligned]

/-- The byte at address 0 of flushed caches is read as 255, its word as 0. -/
theorem flushed_byte_disagrees : ¬ AgreesWithWord 0 zero_block ⟨0,0⟩ .DATA flushed 0 zero_stack 0 zero_stack := by
  intro agrees
  have aligned : address ⟨0,0⟩ % 16 = 0 := by decide
  obtain ⟨r,ran,_,same,_⟩ := agrees _ (read_byte_ones zero_block .DATA flushed 0 zero_stack aligned) rfl
  have word : r.word = 0 := (cache_read_returns aligned ran).2.2.2
  rw [word] at same
  cases same

/-! ### The effect of a byte write -/

/-- A store of a line changes the first sixteen bytes of the block. -/
theorem store_line_bytes {mem after : mem_space} {p : Nat} {line : line_t} (stored : store_line mem p line = some after)
    (a : Nat) : byte_at after a = if a / 16 = p / 64 * 4 then some (byte (word_of line (a % 16 / 4)) (a % 4))
      else byte_at mem a := by
  rw [store_words_view byte_at_store (fun _ _ => rfl) stored a,L1_ICACHE_WORDS_PER_LINE]
  by_cases inBlock : a / 16 = p / 64 * 4
  · rw [if_pos (by omega),if_pos inBlock,show a / 4 - p / 64 * 16 = a % 16 / 4 by omega]
  · rw [if_neg (by omega),if_neg inBlock]

/-- What a byte write puts next to its byte, at a place of the word: the word it
    merges into is still all ones, and the second mask is short of a digit. -/
def around (s i : Nat) : byte_t := if s = 1 ∧ i = 3 then 0x0F else 0xFF

/-- The byte that the write of a byte stores at a place of its line. -/
def stored_byte (mem : mem_space) (p : Nat) (b : byte_t) (i : Nat) : Option byte_t :=
  if i / 4 = p / 4 % 4 then some (if i % 4 = p % 4 then b else around (p % 4) (i % 4)) else byte_at mem (p / 16 * 16 + i)

theorem merged_ones (p : Nat) (b : byte_t) (i : Nat) : byte (merge_byte (-1) b (position (place p))) (i % 4) =
    if i % 4 = p % 4 then b else around (p % 4) (i % 4) := by
  have ones : ∀ i : Fin 4, byte (-1 : word_t) i.val = 0xFF := by decide
  have merged := merged_byte (-1) b (place p) (place i)
  rw [ones] at merged
  have number : (place i).val = i % 4 := rfl
  rw [← number,merged,around]
  simp only [place,Fin.ext_iff]
  rfl

/-- With a clear `errno` the line of the byte is stored at the start of its block. -/
theorem write_byte_stores {mem : mem_space} {paddr : phy_addr_t} {cs : caches} {b : byte_t} {stack : stack_t} {r : write_t}
    (ran : cache_write_byte 0 mem paddr cs b .LRU stack = some r) (a : Nat) :
    byte_at r.mem a = if a / 16 = address paddr / 64 * 4 then stored_byte mem (address paddr) b (a % 16)
      else byte_at mem a := by
  rw [write_byte_clear,bit_select_correct] at ran
  obtain ⟨_,_,effect⟩ := cache_write_returns ran
  obtain ⟨_,old,loaded,stored⟩ := effect.resolve_left (fun set => set.1 rfl)
  have aligned := address_word_aligned paddr
  have small : a % 16 / 4 < L1_ICACHE_WORDS_PER_LINE := by
    rw [L1_ICACHE_WORDS_PER_LINE]
    omega
  have number : word_number (address (word_aligned paddr)) = address paddr / 4 % 4 := by
    rw [word_number]
    omega
  have there := load_line_word loaded small
  rw [store_line_bytes stored,show address (word_aligned paddr) / 64 = address paddr / 64 by omega]
  by_cases inBlock : a / 16 = address paddr / 64 * 4
  · rw [if_pos inBlock,if_pos inBlock,new_line_word _ _ _ _ small,number,stored_byte]
    by_cases inWord : a % 16 / 4 = address paddr / 4 % 4
    · rw [if_pos inWord,if_pos inWord,merged_ones,show a % 16 % 4 = a % 4 by omega]
    · rw [line_base,show address (word_aligned paddr) / 16 = address paddr / 16 by omega] at there
      have kept := byte_at_load there (a := address paddr / 16 * 16 + a % 16) (by omega)
      rw [if_neg inWord,if_neg inWord,kept,show (address paddr / 16 * 16 + a % 16) % 4 = a % 4 by omega]
  · rw [if_neg inBlock,if_neg inBlock]

/-- The memory holds the byte at an address and is otherwise as before. -/
def ByteWritten (mem after : mem_space) (p : Nat) (b : byte_t) : Prop :=
  ∀ a, byte_at after a = if a = p then some b else byte_at mem a

/-- In the first line of a block: the other bytes of the word are those the write puts around its byte. -/
def WordAround (mem : mem_space) (p : Nat) : Prop :=
  ∀ i < 4, i ≠ p % 4 → byte_at mem (p / 4 * 4 + i) = some (around (p % 4) i)

/-- In another line: the byte is there already, and so is the line stored at the start of the block. -/
def LineThere (mem : mem_space) (p : Nat) (b : byte_t) : Prop :=
  byte_at mem p = some b ∧ ∀ i < 16, byte_at mem (p / 64 * 64 + i) = stored_byte mem p b i

/-- In the first line of a block the byte goes where it should, with others around it. -/
theorem byte_written_in_place {mem after : mem_space} {p : Nat} {b : byte_t} (first : p / 16 % 4 = 0)
    (stores : ∀ a, byte_at after a = if a / 16 = p / 64 * 4 then stored_byte mem p b (a % 16) else byte_at mem a) :
    ByteWritten mem after p b ↔ WordAround mem p := by
  constructor
  · intro written i small other
    have here := written (p / 4 * 4 + i)
    rw [stores,if_pos (by omega),stored_byte,if_pos (by omega),if_neg (by omega),if_neg (by omega)] at here
    rw [← here,show (p / 4 * 4 + i) % 16 % 4 = i by omega]
  · intro fits a
    rw [stores]
    by_cases inLine : a / 16 = p / 64 * 4
    · rw [if_pos inLine,stored_byte]
      by_cases inWord : a % 16 / 4 = p / 4 % 4
      · rw [if_pos inWord]
        by_cases here : a = p
        · rw [if_pos (by omega),if_pos here]
        · have other := fits (a % 4) (Nat.mod_lt a (by decide)) (by omega)
          rw [show p / 4 * 4 + a % 4 = a by omega] at other
          rw [if_neg (by omega),if_neg here,other,show a % 16 % 4 = a % 4 by omega]
      · rw [if_neg inWord,if_neg (by omega),show p / 16 * 16 + a % 16 = a by omega]
    · rw [if_neg inLine,if_neg (by omega)]

/-- In another line the store misses the byte. -/
theorem byte_written_elsewhere {mem after : mem_space} {p : Nat} {b : byte_t} (later : p / 16 % 4 ≠ 0)
    (stores : ∀ a, byte_at after a = if a / 16 = p / 64 * 4 then stored_byte mem p b (a % 16) else byte_at mem a) :
    ByteWritten mem after p b ↔ LineThere mem p b := by
  constructor
  · intro written
    have here := written p
    rw [stores,if_neg (by omega),if_pos rfl] at here
    refine ⟨here,?_⟩
    intro i small
    have stored := written (p / 64 * 64 + i)
    rw [stores,if_pos (by omega),if_neg (by omega),show (p / 64 * 64 + i) % 16 = i by omega] at stored
    exact stored.symm
  · rintro ⟨here,line⟩ a
    rw [stores]
    by_cases inLine : a / 16 = p / 64 * 4
    · have there := line (a % 16) (Nat.mod_lt a (by decide))
      rw [show p / 64 * 64 + a % 16 = a by omega] at there
      rw [if_pos inLine,if_neg (by omega),there]
    · rw [if_neg inLine]
      by_cases same : a = p
      · rw [if_pos same,same,here]
      · rw [if_neg same]

/-! ### The byte writes that are accepted -/

/-- The byte writes that return, and without an error. -/
def ByteWriteAccepted (errno : Int) (mem : mem_space) (cs : caches) (p : Nat) : Prop :=
  (errno ≠ 0 ∧ p % 16 < 4) ∨ (errno = 0 ∧ LineInside mem p ∧ Cold cs p)

theorem word_aligned_line (paddr : phy_addr_t) : address (word_aligned paddr) / 16 = address paddr / 16 := by
  rw [address_word_aligned]
  omega

theorem write_byte_accepted (errno : Int) (mem : mem_space) (paddr : phy_addr_t) (cs : caches) (b : byte_t)
    (stack : stack_t) : (∃ r, cache_write_byte errno mem paddr cs b .LRU stack = some r ∧ r.code = .ERR_NONE) ↔
      ByteWriteAccepted errno mem cs (address paddr) := by
  have line := word_aligned_line paddr
  have lineInside : LineInside mem (address (word_aligned paddr)) ↔ LineInside mem (address paddr) := by
    rw [LineInside,LineInside,line_base,line_base,line]
  have set : set_of .l1_cache (address (word_aligned paddr)) = set_of .l1_cache (address paddr) := by
    simp only [set_of,L1_ICACHE_LINE,line]
  by_cases clear : errno = 0
  · subst clear
    have returns := cache_write_isSome 0 mem (word_aligned paddr) cs (merge_byte (-1) b (bit_select paddr)) stack
    rw [WriteReturns,lineInside,Cold,set] at returns
    rw [write_byte_clear]
    constructor
    · rintro ⟨r,ran,_⟩
      rw [ran] at returns
      exact .inr ⟨rfl,(returns.mp rfl).resolve_left (fun other => other rfl)⟩
    · rintro (⟨other,_⟩ | ⟨_,defined⟩)
      · exact absurd rfl other
      · obtain ⟨r,ran⟩ := Option.isSome_iff_exists.mp (returns.mpr (.inr defined))
        exact ⟨r,ran,(cache_write_returns ran).1⟩
  · have aligned := address_word_aligned paddr
    rw [write_byte_set clear]
    constructor
    · rintro ⟨r,ran,code⟩
      by_cases first : address (word_aligned paddr) % 16 = 0
      · exact .inl ⟨clear,by omega⟩
      · rw [if_neg first] at ran
        obtain rfl := Option.some.inj ran
        cases code
    · rintro (⟨_,low⟩ | ⟨zero,_⟩)
      · rw [if_pos (by omega)]
        exact ⟨_,rfl,rfl⟩
      · exact absurd zero clear

/-- A byte write that is accepted has its effect exactly where the memory already
    is as it becomes: with `errno` set, when it has the byte; with a clear one,
    when what is stored around the byte, or at the start of the block, is there. -/
theorem write_byte_effect_iff (errno : Int) (mem : mem_space) (paddr : phy_addr_t) (cs : caches) (b : byte_t)
    (stack : stack_t) :
    ((∃ r, cache_write_byte errno mem paddr cs b .LRU stack = some r ∧ r.code = .ERR_NONE) ↔
      ByteWriteAccepted errno mem cs (address paddr)) ∧
    ((∀ r, cache_write_byte errno mem paddr cs b .LRU stack = some r → r.code = .ERR_NONE →
      ByteWritten mem r.mem (address paddr) b) ↔
      (ByteWriteAccepted errno mem cs (address paddr) →
        (errno ≠ 0 → byte_at mem (address paddr) = some b) ∧
        (errno = 0 → if address paddr / 16 % 4 = 0 then WordAround mem (address paddr)
          else LineThere mem (address paddr) b))) := by
  have accepted := write_byte_accepted errno mem paddr cs b stack
  refine ⟨accepted,?_⟩
  rw [← accepted]
  by_cases clear : errno = 0
  · subst clear
    have written : ∀ r, cache_write_byte 0 mem paddr cs b .LRU stack = some r →
        (ByteWritten mem r.mem (address paddr) b ↔ if address paddr / 16 % 4 = 0 then WordAround mem (address paddr)
          else LineThere mem (address paddr) b) := by
      intro r ran
      by_cases first : address paddr / 16 % 4 = 0
      · rw [if_pos first]
        exact byte_written_in_place first (write_byte_stores ran)
      · rw [if_neg first]
        exact byte_written_elsewhere first (write_byte_stores ran)
    constructor
    · rintro every ⟨r,ran,code⟩
      exact ⟨fun other => absurd rfl other,fun _ => (written r ran).mp (every r ran code)⟩
    · intro fits r ran code
      exact (written r ran).mpr ((fits ⟨r,ran,code⟩).2 rfl)
  · have unchanged : ∀ r, cache_write_byte errno mem paddr cs b .LRU stack = some r → r.mem = mem := by
      intro r ran
      rw [write_byte_set clear] at ran
      split at ran
      · obtain rfl := Option.some.inj ran
        rfl
      · obtain rfl := Option.some.inj ran
        rfl
    constructor
    · rintro every ⟨r,ran,code⟩
      have here := every r ran code (address paddr)
      rw [unchanged r ran,if_pos rfl] at here
      exact ⟨fun _ => here,fun zero => absurd zero clear⟩
    · intro fits r ran code a
      rw [unchanged r ran]
      by_cases here : a = address paddr
      · rw [if_pos here,here]
        exact (fits ⟨r,ran,code⟩).1 clear
      · rw [if_neg here]

theorem flushed_coherent (mem : mem_space) : Coherent mem flushed :=
  ⟨fun a words held => absurd held (flushed_absent a words),fun a words held => absurd held (flushed_absent a words)⟩

/-- Writing byte 7 at address 0 of zeros puts 255 into the three bytes behind it. -/
theorem write_byte_spoils_word : Coherent zero_block flushed ∧ address ⟨0,0⟩ < zero_block.capacity ∧
    ∃ r, cache_write_byte 0 zero_block ⟨0,0⟩ flushed 7 .LRU zero_stack = some r ∧ r.code = .ERR_NONE ∧
      ¬ ByteWritten zero_block r.mem (address ⟨0,0⟩) 7 := by
  have cold : Cold flushed (address ⟨0,0⟩) := ⟨0,rfl⟩
  obtain ⟨r,ran,code⟩ := (write_byte_accepted 0 zero_block ⟨0,0⟩ flushed 7 zero_stack).mpr
    (.inr ⟨rfl,by decide,cold⟩)
  refine ⟨flushed_coherent zero_block,by decide,r,ran,code,?_⟩
  rw [byte_written_in_place (by decide) (write_byte_stores ran)]
  intro fits
  exact absurd (fits 1 (by decide) (by decide)) (by decide)

end CacheEmulator.CacheBytes
