import CacheEmulator.LinkedList

/-!
The loop of `clear_list`, which takes its nodes off the list it runs over. A
freed node has no content any more, so that a run with a result reads live nodes
only and frees none of them twice.
-/
namespace CacheEmulator.ListClear
open CacheEmulator.LinkedList

/-- The rest of `for_all_nodes(node, this) { pop_front(this); }`, for at most the
    given number of turns. The loop goes on from `node` after the body has run. -/
def clear_from : Nat → heap_t → list_t → Option node_ptr → Option (heap_t × list_t)
  | _, heap, this, none => some (heap,this)
  | 0, _, _, some _ => none
  | turns + 1, heap, this, some node => do
    let (heap,this) ← pop_front heap this
    let content ← heap.lookup node
    clear_from turns heap this content.next

def clear_list (turns : Nat) (heap : heap_t) (this : list_t) : Option (heap_t × list_t) :=
  clear_from turns heap this this.front

/-- The loop ends without reading or freeing a dead node, with nothing in the
    list, all its nodes freed and the others as they were. -/
def ClearedSafely (heap : heap_t) (this : list_t) (ps : List node_ptr) : Prop :=
  ∃ turns after, clear_list turns heap this = some (after,init_list) ∧ (∀ p ∈ ps, p ∉ after) ∧
    ∀ p, p ∉ ps → after.lookup p = heap.lookup p

/-- The first turn frees the node that the loop goes on from. -/
theorem pop_frees_front {heap : heap_t} {this : list_t} {p : node_ptr} {ps : List node_ptr}
    (list : IsList heap this (p :: ps)) :
    ∃ after rest, pop_front heap this = some (after,rest) ∧ IsList after rest ps ∧ after.lookup p = none := by
  obtain ⟨after,rest,popped,remaining,values⟩ := pop_front_total list
  refine ⟨after,rest,popped,remaining,?_⟩
  have freed : value_of after p = none := by rw [values,Function.update_self]
  rw [value_of,Option.map_eq_none_iff] at freed
  exact freed

/-- On a list with a node the loop has no result, however many turns it is given. -/
theorem clear_undefined {heap : heap_t} {this : list_t} {p : node_ptr} {ps : List node_ptr}
    (list : IsList heap this (p :: ps)) (turns : Nat) : clear_list turns heap this = none := by
  have frontIs : this.front = some p := list.front_eq
  obtain ⟨after,rest,popped,_,freed⟩ := pop_frees_front list
  rw [clear_list,frontIs]
  cases turns with
  | zero => rfl
  | succ turns => simp [clear_from,popped,freed]

theorem empty_is_init {heap : heap_t} {this : list_t} (list : IsList heap this []) : this = init_list := by
  have frontIs : this.front = none := list.front_eq
  have backIs : this.back = none := list.back_eq
  cases this
  cases frontIs
  cases backIs
  rfl

/-- The loop is safe on the empty list and on no other. -/
theorem clear_list_safe_iff {heap : heap_t} {this : list_t} {ps : List node_ptr} (list : IsList heap this ps) :
    ClearedSafely heap this ps ↔ ps = [] := by
  constructor
  · rintro ⟨turns,after,executed,_⟩
    cases ps with
    | nil => rfl
    | cons p ps =>
      rw [clear_undefined list] at executed
      cases executed
  · rintro rfl
    obtain rfl := empty_is_init list
    refine ⟨0,heap,rfl,?_,fun _ _ => rfl⟩
    intro p member
    exact absurd member List.not_mem_nil

/-- A heap of one node, which makes up a list. -/
def one_node_heap : heap_t := (∅ : heap_t).insert 1 ⟨7,none,none⟩
def one_node_list : list_t := ⟨some 1,some 1⟩

theorem one_node_is_list : IsList one_node_heap one_node_list [1] := one_node ∅ 1 7

theorem clear_list_safe_iff_one_node : ClearedSafely one_node_heap one_node_list [1] ↔ [1] = ([] : List node_ptr) :=
  clear_list_safe_iff one_node_is_list

/-- Clearing a list of one node reads the node after it has been freed. -/
theorem one_node_not_cleared : IsList one_node_heap one_node_list [1] ∧
    ¬ ClearedSafely one_node_heap one_node_list [1] := by
  refine ⟨one_node_is_list,?_⟩
  rintro ⟨turns,after,executed,_⟩
  rw [clear_undefined one_node_is_list] at executed
  cases executed

end CacheEmulator.ListClear
