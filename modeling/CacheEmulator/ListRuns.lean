import CacheEmulator.LinkedList
import CacheEmulator.Machine

/-!
Runs of list operations against a plain sequence. A run names the nodes that the
allocator gives out; they are fresh when they are neither among the objects
that were on the heap before nor in the list.
-/
namespace CacheEmulator.ListRuns
open CacheEmulator.LinkedList
open CacheEmulator.Machine (run)

inductive operation
  | push_back (allocated : node_ptr) (value : list_content_t)
  | push_front (allocated : node_ptr) (value : list_content_t)
  | pop_back
  | pop_front
  | move_back (node : node_ptr)

/-- One call on the list, with the pointer it returns. -/
def step (s : heap_t × list_t) : operation → Option (Option node_ptr × heap_t × list_t)
  | .push_back allocated value =>
    (LinkedList.push_back s.1 s.2 (some allocated) value).map (fun r => (some r.2.2,r.1,r.2.1))
  | .push_front allocated value =>
    (LinkedList.push_front s.1 s.2 (some allocated) value).map (fun r => (some r.2.2,r.1,r.2.1))
  | .pop_back => (LinkedList.pop_back s.1 s.2).map (fun r => (none,r))
  | .pop_front => (LinkedList.pop_front s.1 s.2).map (fun r => (none,r))
  | .move_back node => (LinkedList.move_back s.1 s.2 (some node)).map (fun r => (none,r))

/-! ### The plain sequence -/

/-- A node and the value in it. -/
abbrev cell := node_ptr × list_content_t

def apply (cells : List cell) : operation → List cell
  | .push_back allocated value => cells ++ [(allocated,value)]
  | .push_front allocated value => (allocated,value) :: cells
  | .pop_back => cells.dropLast
  | .pop_front => cells.tail
  | .move_back node => cells.filter (fun c => c.1 ≠ node) ++ cells.filter (fun c => c.1 = node)

def returned : operation → Option node_ptr
  | .push_back allocated _ | .push_front allocated _ => some allocated
  | .pop_back | .pop_front | .move_back _ => none

/-- New nodes are fresh, and only nodes of the list are moved. -/
def Legal (others : heap_t) (cells : List cell) : operation → Prop
  | .push_back allocated _ | .push_front allocated _ => allocated ∉ others ∧ allocated ∉ cells.map Prod.fst
  | .pop_back | .pop_front => True
  | .move_back node => node ∈ cells.map Prod.fst

def LegalFrom (others : heap_t) : List cell → List operation → Prop
  | _, [] => True
  | cells, op :: ops => Legal others cells op ∧ LegalFrom others (apply cells op) ops

/-! ### Well-formed lists -/

/-- The ends are both NULL or both not, nothing lies beyond them, and the loops
    over the list end and meet the same nodes in opposite orders. -/
structure WellFormed (heap : heap_t) (this : list_t) : Prop where
  ends : this.front = none ↔ this.back = none
  first : ∀ p, this.front = some p → ∃ content, heap.lookup p = some content ∧ content.previous = none
  last : ∀ p, this.back = some p → ∃ content, heap.lookup p = some content ∧ content.next = none
  reversed : ∃ ps, for_all_nodes heap this = some ps ∧ for_all_nodes_reverse heap this = some ps.reverse

/-- The list holds the cells, front to back. -/
structure Holds (heap : heap_t) (this : list_t) (cells : List cell) : Prop where
  list : IsList heap this (cells.map Prod.fst)
  values : ∀ c ∈ cells, value_of heap c.1 = some c.2

theorem isList_wellFormed {heap : heap_t} {this : list_t} {ps : List node_ptr} (list : IsList heap this ps) :
    WellFormed heap this := by
  refine ⟨?_,?_,?_,ps,list.for_all_nodes_eq⟩
  · rw [list.front_eq,list.back_eq,List.head?_eq_none_iff,List.getLast?_eq_none_iff]
  · intro p front
    rw [list.front_eq] at front
    obtain ⟨rest,rfl⟩ := List.head?_eq_some_iff.mp front
    obtain ⟨value,found⟩ := (show IsList heap this ([] ++ p :: rest) from list).node_at
    exact ⟨_,found,rfl⟩
  · intro p back
    rw [list.back_eq] at back
    obtain ⟨rest,rfl⟩ := List.getLast?_eq_some_iff.mp back
    obtain ⟨value,found⟩ := list.node_at
    exact ⟨_,found,rfl⟩

/-! ### One operation -/

/-- The list holds the cells, and there are no other new nodes on the heap. -/
structure Stands (others : heap_t) (cells : List cell) (s : heap_t × list_t) : Prop where
  holds : Holds s.1 s.2 cells
  nodes : ∀ p ∈ s.1, p ∈ others ∨ p ∈ cells.map Prod.fst

variable {others heap heap' : heap_t} {this this' : list_t} {cells : List cell}

theorem mem_update {value : Option list_content_t} {p q : node_ptr}
    (values : value_of heap' = Function.update (value_of heap) p value) : q ∈ heap' → q = p ∨ q ∈ heap := by
  intro member
  rw [alive_value,values,Function.update_apply] at member
  by_cases same : q = p
  · exact Or.inl same
  · rw [if_neg same,← alive_value] at member
    exact Or.inr member

/-- A node that is added anywhere to the list brings its value. -/
theorem stands_push {p : node_ptr} {value : list_content_t} {cells' : List cell} (stands : Stands others cells (heap,this))
    (fresh : p ∉ cells.map Prod.fst) (grown : ∀ c, c ∈ cells' ↔ c = (p,value) ∨ c ∈ cells)
    (list : IsList heap' this' (cells'.map Prod.fst))
    (values : value_of heap' = Function.update (value_of heap) p (some value)) : Stands others cells' (heap',this') := by
  refine ⟨⟨list,?_⟩,?_⟩
  · intro c member
    rw [values]
    rcases (grown c).mp member with new | old
    · rw [new,Function.update_self]
    · have other : c.1 ≠ p := fun same => fresh (same ▸ List.mem_map_of_mem old)
      rw [Function.update_of_ne other]
      exact stands.holds.values c old
  · intro q member
    rcases mem_update values member with new | old
    · exact Or.inr (new ▸ List.mem_map_of_mem ((grown (p,value)).mpr (Or.inl rfl)))
    · rcases stands.nodes q old with other | inList
      · exact Or.inl other
      · obtain ⟨c,inCells,rfl⟩ := List.mem_map.mp inList
        exact Or.inr (List.mem_map_of_mem ((grown c).mpr (Or.inr inCells)))

/-- A node that is taken off the list, at either end, is gone from the heap. -/
theorem stands_pop {c : cell} {cells' : List cell} (stands : Stands others cells (heap,this))
    (shrunk : cells.Perm (c :: cells')) (list : IsList heap' this' (cells'.map Prod.fst))
    (values : value_of heap' = Function.update (value_of heap) c.1 none) : Stands others cells' (heap',this') := by
  have distinct : ((c :: cells').map Prod.fst).Nodup := (shrunk.map Prod.fst).nodup_iff.mp stands.holds.list.nodup
  rw [List.map_cons,List.nodup_cons] at distinct
  refine ⟨⟨list,?_⟩,?_⟩
  · intro d member
    have other : d.1 ≠ c.1 := fun same => distinct.1 (same ▸ List.mem_map_of_mem member)
    rw [values,Function.update_of_ne other]
    exact stands.holds.values d (shrunk.mem_iff.mpr (List.mem_cons_of_mem c member))
  · intro q member
    have gone : q ≠ c.1 := by
      rintro rfl
      rw [alive_value,values,Function.update_self] at member
      cases member
    rcases stands.nodes q ((mem_update values member).resolve_left gone) with other | inList
    · exact Or.inl other
    · rw [(shrunk.map Prod.fst).mem_iff,List.map_cons,List.mem_cons] at inList
      exact Or.inr (inList.resolve_left gone)

/-- Nodes that only change their places keep their values. -/
theorem stands_move {cells' : List cell} (stands : Stands others cells (heap,this)) (moved : cells'.Perm cells)
    (list : IsList heap' this' (cells'.map Prod.fst)) (values : value_of heap' = value_of heap) :
    Stands others cells' (heap',this') := by
  refine ⟨⟨list,?_⟩,?_⟩
  · intro d member
    rw [values]
    exact stands.holds.values d (moved.mem_iff.mp member)
  · intro q alive
    rw [alive_of_values values] at alive
    rw [(moved.map Prod.fst).mem_iff]
    exact stands.nodes q alive

theorem filter_node {before behind : List cell} {c : cell} (distinct : ((before ++ c :: behind).map Prod.fst).Nodup) :
    (before ++ c :: behind).filter (fun d => d.1 ≠ c.1) = before ++ behind ∧
      (before ++ c :: behind).filter (fun d => d.1 = c.1) = [c] := by
  have apart : c.1 ∉ (before ++ behind).map Prod.fst := by
    have perm : ((before ++ c :: behind).map Prod.fst).Perm ((c :: (before ++ behind)).map Prod.fst) :=
      List.perm_middle.map Prod.fst
    exact (List.nodup_cons.mp (perm.nodup_iff.mp distinct)).1
  have other : ∀ d ∈ before ++ behind, d.1 ≠ c.1 := fun d member same => apart (same ▸ List.mem_map_of_mem member)
  have before' : ∀ d ∈ before, d.1 ≠ c.1 := fun d member => other d (List.mem_append_left _ member)
  have behind' : ∀ d ∈ behind, d.1 ≠ c.1 := fun d member => other d (List.mem_append_right _ member)
  constructor
  · rw [List.filter_append,List.filter_cons_of_neg (by simp),List.filter_eq_self.mpr,List.filter_eq_self.mpr]
    · simpa using behind'
    · simpa using before'
  · rw [List.filter_append,List.filter_cons_of_pos (by simp),List.filter_eq_nil_iff.mpr,List.filter_eq_nil_iff.mpr,
      List.nil_append]
    · simpa using behind'
    · simpa using before'

/-- Every legal operation has a result, and does to the list what it does to the plain sequence. -/
theorem step_total {s : heap_t × list_t} {op : operation} (stands : Stands others cells s) (legal : Legal others cells op) :
    ∃ next, step s op = some (returned op,next) ∧ Stands others (apply cells op) next := by
  obtain ⟨heap,this⟩ := s
  have list := stands.holds.list
  cases op with
  | push_back p value =>
    have fresh : p ∉ heap := fun member => (stands.nodes p member).elim legal.1 legal.2
    obtain ⟨heap',this',pushed,grown,values⟩ := push_back_total value list fresh
    refine ⟨(heap',this'),by simp [step,pushed,returned],stands_push stands legal.2 ?_ ?_ values⟩
    · intro c
      simp [apply,or_comm]
    · simpa [apply] using grown
  | push_front p value =>
    have fresh : p ∉ heap := fun member => (stands.nodes p member).elim legal.1 legal.2
    obtain ⟨heap',this',pushed,grown,values⟩ := push_front_total value list fresh
    refine ⟨(heap',this'),by simp [step,pushed,returned],stands_push stands legal.2 ?_ ?_ values⟩
    · intro c
      simp [apply]
    · simpa [apply] using grown
  | pop_back =>
    rcases List.eq_nil_or_concat cells with rfl | ⟨before,c,rfl⟩
    · have backIs : this.back = none := list.back_eq
      exact ⟨(heap,this),by simp [step,LinkedList.pop_back,backIs,returned],stands⟩
    · rw [List.concat_eq_append] at stands list ⊢
      rw [List.map_append] at list
      obtain ⟨heap',this',popped,rest,values⟩ := pop_back_total list
      refine ⟨(heap',this'),by simp [step,popped,returned],?_⟩
      rw [apply,List.dropLast_concat]
      exact stands_pop stands (List.perm_append_singleton c before) rest values
  | pop_front =>
    cases cells with
    | nil =>
      have frontIs : this.front = none := list.front_eq
      exact ⟨(heap,this),by simp [step,LinkedList.pop_front,frontIs,returned],stands⟩
    | cons c cells =>
      obtain ⟨heap',this',popped,rest,values⟩ := pop_front_total list
      exact ⟨(heap',this'),by simp [step,popped,returned],stands_pop stands (List.Perm.refl _) rest values⟩
  | move_back p =>
    obtain ⟨c,member,rfl⟩ := List.mem_map.mp legal
    obtain ⟨before,behind,rfl⟩ := List.append_of_mem member
    obtain ⟨others_first,this_last⟩ := filter_node list.nodup
    rw [List.map_append,List.map_cons] at list
    obtain ⟨heap',this',moved,ordered,values⟩ := move_back_total list
    have same : apply (before ++ c :: behind) (.move_back c.1) = before ++ behind ++ [c] := by
      rw [apply,others_first,this_last]
    have perm : (before ++ behind ++ [c]).Perm (before ++ c :: behind) :=
      (List.perm_append_singleton c (before ++ behind)).trans List.perm_middle.symm
    refine ⟨(heap',this'),by simp [step,moved,returned],?_⟩
    rw [same]
    exact stands_move stands perm (by simpa using ordered) values

/-! ### Whole runs -/

theorem run_stands : ∀ (ops : List operation) (cells : List cell) (s : heap_t × list_t), Stands others cells s →
    LegalFrom others cells ops →
    ∃ next, run step s ops = some (ops.map returned,next) ∧ Stands others (ops.foldl apply cells) next := by
  intro ops
  induction ops with
  | nil =>
    intro cells s stands _
    exact ⟨s,rfl,stands⟩
  | cons op ops ih =>
    rintro cells s stands ⟨legal,later⟩
    obtain ⟨next,stepped,kept⟩ := step_total stands legal
    obtain ⟨last,ran,final⟩ := ih (apply cells op) next kept later
    refine ⟨last,?_,final⟩
    rw [Machine.run_cons_of stepped,ran]
    rfl

/-- Every run of legal operations from the empty list has a result; the list is
    then well formed and holds the plain sequence. -/
theorem list_refines_sequence (others : heap_t) (ops : List operation) (legal : LegalFrom others [] ops) :
    ∃ heap this, run step (others,init_list) ops = some (ops.map returned,(heap,this)) ∧ WellFormed heap this ∧
      for_all_nodes heap this = some ((ops.foldl apply []).map Prod.fst) ∧
      ∀ c ∈ ops.foldl apply [], value_of heap c.1 = some c.2 := by
  have empty : Stands others [] (others,init_list) := by
    refine ⟨⟨init_list_empty others,?_⟩,fun p member => Or.inl member⟩
    intro c member
    exact absurd member List.not_mem_nil
  obtain ⟨⟨heap,this⟩,ran,stands⟩ := run_stands ops [] (others,init_list) empty legal
  exact ⟨heap,this,ran,isList_wellFormed stands.holds.list,stands.holds.list.for_all_nodes_eq.1,stands.holds.values⟩

/-- Three nodes are pushed, one from the front is moved, and one is popped at each end. -/
def some_operations : List operation :=
  [.push_back 1 10,.push_front 2 20,.push_back 3 30,.move_back 2,.pop_front,.pop_back]

theorem list_refines_sequence_some_operations :
    ∃ heap this, run step (∅,init_list) some_operations = some (some_operations.map returned,(heap,this)) ∧
      WellFormed heap this ∧ for_all_nodes heap this = some ((some_operations.foldl apply []).map Prod.fst) ∧
      ∀ c ∈ some_operations.foldl apply [], value_of heap c.1 = some c.2 := by
  have legal : LegalFrom ∅ [] some_operations := by
    simp [some_operations,LegalFrom,Legal,apply,Finmap.notMem_empty]
  exact list_refines_sequence ∅ some_operations legal

end CacheEmulator.ListRuns
