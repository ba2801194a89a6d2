import Mathlib.Data.List.Basic
import Mathlib.Tactic.Common

/-!
Blocks of a heap by number, as `malloc` and `free` deal with them. A block that
was freed is never given out again, so that every use of it shows: reading,
writing and freeing it have no result.
-/
namespace CacheEmulator.Blocks
universe u
variable {α : Type u} {heap after : List (Option α)} {b : Nat} {a : α}

/-- What a block holds; a freed one holds nothing. -/
def read (heap : List (Option α)) (b : Nat) : Option α := heap[b]?.join

/-- The number of blocks that are not freed. -/
def live (heap : List (Option α)) : Nat := heap.countP Option.isSome

/-- A new block, and the heap with it. -/
def allocate (heap : List (Option α)) (a : α) : Nat × List (Option α) := (heap.length,heap ++ [some a])

def free (heap : List (Option α)) (b : Nat) : Option (List (Option α)) := (read heap b).map (fun _ => heap.set b none)

def write (heap : List (Option α)) (b : Nat) (a : α) : Option (List (Option α)) := (read heap b).map (fun _ => heap.set b (some a))

theorem read_some (there : read heap b = some a) : ∃ inside : b < heap.length, heap[b] = some a := by
  unfold read at there
  cases found : heap[b]? with
  | none => rw [found] at there; cases there
  | some block =>
    obtain ⟨inside,same⟩ := List.getElem?_eq_some_iff.mp found
    rw [found] at there
    exact ⟨inside,same.trans there⟩

/-- A live block counts as one. -/
theorem live_set (there : read heap b = some a) (block : Option α) :
    live (heap.set b block) = live heap - 1 + if block.isSome then 1 else 0 := by
  obtain ⟨inside,same⟩ := read_some there
  rw [live,List.countP_set inside,same]
  rfl

theorem live_allocate (heap : List (Option α)) (a : α) : live (allocate heap a).2 = live heap + 1 := by
  simp [live,allocate]

theorem read_allocate (heap : List (Option α)) (a : α) : read (allocate heap a).2 (allocate heap a).1 = some a := by
  simp [read,allocate]

theorem read_allocate_old (there : read heap b = some a) (new : α) : read (allocate heap new).2 b = some a := by
  obtain ⟨inside,same⟩ := read_some there
  simp [read,allocate,List.getElem?_append_left inside,List.getElem?_eq_getElem inside,same]

theorem free_live (there : read heap b = some a) : ∃ after, free heap b = some after ∧ live after = live heap - 1 ∧
    ∀ other, other ≠ b → read after other = read heap other := by
  refine ⟨heap.set b none,by rw [free,there,Option.map_some],?_,?_⟩
  · rw [live_set there]
    rfl
  · intro other different
    rw [read,read,List.getElem?_set_ne (Ne.symm different)]

/-- A block that moves: a new one, and the old one freed. -/
theorem move_live (there : read heap b = some a) (new : α) :
    ∃ after, free (allocate heap new).2 b = some after ∧ live after = live heap ∧
      read after (allocate heap new).1 = some new := by
  obtain ⟨inside,_⟩ := read_some there
  obtain ⟨after,freed,count,others⟩ := free_live (read_allocate_old there new)
  refine ⟨after,freed,?_,?_⟩
  · rw [count,live_allocate]
    rfl
  · have different : (allocate heap new).1 ≠ b := Nat.ne_of_gt inside
    rw [others _ different]
    exact read_allocate heap new

end CacheEmulator.Blocks
