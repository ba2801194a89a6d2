import CacheEmulator.Bytes

/-!
The simulated memory: a block of bytes that the program reads and writes as
32-bit little-endian words. A word outside the block has no value: reading or
writing it is undefined.
-/
namespace CacheEmulator.Memory

abbrev word_t := BitVec 32
abbrev byte_t := BitVec 8
abbrev pte_t := BitVec 32

/-- One allocated block. -/
structure mem_space where
  capacity : Nat
  byte : Fin capacity → byte_t

/-- Zero bytes; as a page table, one entry that points at the table itself. -/
def zeros (capacity : Nat) : mem_space := ⟨capacity,fun _ => 0⟩
def zero_mem : mem_space := zeros 4

/-- The word at a word index, lowest byte first. -/
def load (mem : mem_space) (index : Nat) : Option word_t :=
  if inside : 4 * index + 3 < mem.capacity then
    some (mem.byte ⟨4 * index + 3,inside⟩ ++ mem.byte ⟨4 * index + 2,by omega⟩ ++
      mem.byte ⟨4 * index + 1,by omega⟩ ++ mem.byte ⟨4 * index,by omega⟩)
  else none

/-- Replaces the word at a word index. -/
def store (mem : mem_space) (index : Nat) (word : word_t) : Option mem_space :=
  if 4 * index + 3 < mem.capacity then
    some { mem with
      byte := fun a => if a.val / 4 = index then word.extractLsb' (8 * (a.val % 4)) 8 else mem.byte a }
  else none

theorem load_isSome (mem : mem_space) (index : Nat) : (load mem index).isSome ↔ 4 * index + 3 < mem.capacity := by
  unfold load
  by_cases inside : 4 * index + 3 < mem.capacity
  · simp [inside]
  · simp [inside]

theorem load_zeros {capacity index : Nat} (inside : 4 * index + 3 < capacity) : load (zeros capacity) index = some 0 := by
  have inside' : 4 * index + 3 < (zeros capacity).capacity := inside
  have joined : 0#8 ++ 0#8 ++ 0#8 ++ 0#8 = 0#32 := by decide
  rw [load,dif_pos inside']
  exact congrArg some joined

theorem store_capacity {mem after : mem_space} {index : Nat} {word : word_t}
    (stored : store mem index word = some after) : after.capacity = mem.capacity := by
  unfold store at stored
  split at stored
  · cases stored; rfl
  · cases stored

/-- The four bytes of a word give the word back. -/
theorem bytes_word (word : word_t) :
    (word.extractLsb' 24 8 ++ word.extractLsb' 16 8 ++ word.extractLsb' 8 8 ++ word.extractLsb' 0 8 : BitVec 32) =
      word := by
  apply BitVec.eq_of_getLsbD_eq
  intro i inside
  simp only [BitVec.getLsbD_append,BitVec.getLsbD_extractLsb']
  split_ifs with h1 h2 h3
  · simp [h1]
  · have : i - 8 < 8 := by omega
    simp [this,show 8 + (i - 8) = i by omega]
  · have : i - 8 - 8 < 8 := by omega
    simp [this,show 16 + (i - 8 - 8) = i by omega]
  · have : i - 8 - 8 - 8 < 8 := by omega
    simp [this,show 24 + (i - 8 - 8 - 8) = i by omega]

/-- A store changes exactly the word it names. -/
theorem load_store {mem after : mem_space} {index : Nat} {word : word_t}
    (stored : store mem index word = some after) (other : Nat) :
    load after other = if other = index then some word else load mem other := by
  unfold store at stored
  split at stored
  · rename_i inside
    cases stored
    by_cases same : other = index
    · subst same
      simp only [load,inside,↓reduceDIte,↓reduceIte,Option.some.injEq]
      have q3 : (4 * other + 3) / 4 = other := by omega
      have q2 : (4 * other + 2) / 4 = other := by omega
      have q1 : (4 * other + 1) / 4 = other := by omega
      have q0 : (4 * other) / 4 = other := by omega
      have r3 : (4 * other + 3) % 4 = 3 := by omega
      have r2 : (4 * other + 2) % 4 = 2 := by omega
      have r1 : (4 * other + 1) % 4 = 1 := by omega
      have r0 : (4 * other) % 4 = 0 := by omega
      simp only [q3,q2,q1,q0,r3,r2,r1,r0,↓reduceIte]
      exact bytes_word word
    · have q3 : (4 * other + 3) / 4 ≠ index := by omega
      have q2 : (4 * other + 2) / 4 ≠ index := by omega
      have q1 : (4 * other + 1) / 4 ≠ index := by omega
      have q0 : (4 * other) / 4 ≠ index := by omega
      simp only [load,q3,q2,q1,q0,same,↓reduceIte]
  · cases stored

/-- A word made of four bytes has these bytes. -/
theorem word_bytes (b3 b2 b1 b0 : byte_t) :
    (b3 ++ b2 ++ b1 ++ b0 : BitVec 32).extractLsb' 0 8 = b0 ∧ (b3 ++ b2 ++ b1 ++ b0 : BitVec 32).extractLsb' 8 8 = b1 ∧
      (b3 ++ b2 ++ b1 ++ b0 : BitVec 32).extractLsb' 16 8 = b2 ∧
      (b3 ++ b2 ++ b1 ++ b0 : BitVec 32).extractLsb' 24 8 = b3 := by
  refine ⟨?_,?_,?_,?_⟩
  all_goals
    apply BitVec.eq_of_getLsbD_eq
    intro i inside
    simp only [BitVec.getLsbD_extractLsb',BitVec.getLsbD_append]
    split_ifs <;> try omega
    all_goals (simp only [inside,decide_true,Bool.true_and]; congr 1; omega)

/-- The bytes of a word are those it is read from. -/
theorem load_byte {mem : mem_space} {index : Nat} {word : word_t} (loaded : load mem index = some word)
    (a : Fin mem.capacity) (inWord : a.val / 4 = index) : word.extractLsb' (8 * (a.val % 4)) 8 = mem.byte a := by
  have inside : 4 * index + 3 < mem.capacity := by
    rw [← load_isSome,loaded,Option.isSome_some]
  simp only [load,inside,↓reduceDIte,Option.some.injEq] at loaded
  obtain ⟨byte0,byte1,byte2,byte3⟩ := word_bytes (mem.byte ⟨4 * index + 3,inside⟩) (mem.byte ⟨4 * index + 2,by omega⟩)
    (mem.byte ⟨4 * index + 1,by omega⟩) (mem.byte ⟨4 * index,by omega⟩)
  rw [loaded] at byte0 byte1 byte2 byte3
  have cases : a.val % 4 = 0 ∨ a.val % 4 = 1 ∨ a.val % 4 = 2 ∨ a.val % 4 = 3 := by omega
  rcases cases with r | r | r | r
  · rw [r,byte0]
    exact congrArg mem.byte (Fin.ext (by simp only; omega))
  · rw [r,byte1]
    exact congrArg mem.byte (Fin.ext (by simp only; omega))
  · rw [r,byte2]
    exact congrArg mem.byte (Fin.ext (by simp only; omega))
  · rw [r,byte3]
    exact congrArg mem.byte (Fin.ext (by simp only; omega))

/-- Storing the word that is there already changes nothing. -/
theorem store_same {mem : mem_space} {index : Nat} {word : word_t} (loaded : load mem index = some word) :
    store mem index word = some mem := by
  have inside : 4 * index + 3 < mem.capacity := by
    rw [← load_isSome,loaded,Option.isSome_some]
  rw [store,if_pos inside]
  congr 1
  have bytes : (fun a : Fin mem.capacity => if a.val / 4 = index then word.extractLsb' (8 * (a.val % 4)) 8
      else mem.byte a) = mem.byte := by
    funext a
    by_cases inWord : a.val / 4 = index
    · rw [if_pos inWord,load_byte loaded a inWord]
    · rw [if_neg inWord]
  rw [bytes]

theorem store_isSome (mem : mem_space) (index : Nat) (word : word_t) :
    (store mem index word).isSome ↔ 4 * index + 3 < mem.capacity := by
  unfold store
  split <;> simp_all

/-! ### Bytes -/

/-- The byte at an address. -/
def byte_at (mem : mem_space) (a : Nat) : Option byte_t :=
  if inside : a < mem.capacity then some (mem.byte ⟨a,inside⟩) else none

/-- Memories of one size with the same bytes are the same. -/
theorem mem_ext {mem mem' : mem_space} (capacity : mem.capacity = mem'.capacity)
    (bytes : ∀ a, byte_at mem a = byte_at mem' a) : mem = mem' := by
  obtain ⟨capacity',byte⟩ := mem
  obtain ⟨_,byte'⟩ := mem'
  obtain rfl : capacity' = _ := capacity
  congr 1
  funext a
  simpa [byte_at] using bytes a.val

/-- The bytes of a word are at its four addresses. -/
theorem byte_at_load {mem : mem_space} {index : Nat} {word : word_t} (loaded : load mem index = some word) {a : Nat}
    (inWord : a / 4 = index) : byte_at mem a = some (Bytes.byte word (a % 4)) := by
  have inside : 4 * index + 3 < mem.capacity := by
    rw [← load_isSome,loaded,Option.isSome_some]
  have here : a < mem.capacity := by omega
  rw [byte_at,dif_pos here,Bytes.byte,load_byte loaded ⟨a,here⟩ inWord]

/-- A store changes exactly the bytes of the word it names. -/
theorem byte_at_store {mem after : mem_space} {index : Nat} {word : word_t}
    (stored : store mem index word = some after) (a : Nat) :
    byte_at after a = if a / 4 = index then some (Bytes.byte word (a % 4)) else byte_at mem a := by
  by_cases inWord : a / 4 = index
  · have loaded := load_store stored index
    rw [if_pos rfl] at loaded
    rw [if_pos inWord,byte_at_load loaded inWord]
  · rw [if_neg inWord]
    unfold store at stored
    split at stored
    · cases stored
      simp [byte_at,inWord]
    · cases stored

end CacheEmulator.Memory
