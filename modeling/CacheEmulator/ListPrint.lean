import CacheEmulator.ListRuns
import CacheEmulator.Numeral

/-!
Printing a list: `print_list` and `print_reverse_list` of `list.c`. A list without
nodes is printed as an opening parenthesis alone.
-/
namespace CacheEmulator.ListPrint
open CacheEmulator.LinkedList CacheEmulator.ListRuns CacheEmulator.Numeral CacheEmulator.Printing CacheEmulator.Stdio
open CacheEmulator.Machine (run)

def is_empty_list (this : list_t) : Bool := this.front = none ∧ this.back = none

def print_node (value : list_content_t) : List byte := print_decimal value.toNat

/-- What one turn of either loop prints; `onward` is the pointer the loop goes on to. -/
def print_turn (onward : node_t → Option node_ptr) (node : node_t) : List byte :=
  print_node node.value ++ if onward node = none then text ")" else text ", "

/-- The number of nodes and the text written to `stream`. -/
def print_nodes (onward : node_t → Option node_ptr) (heap : heap_t) (nodes : List node_ptr) : Option (Nat × List byte) := do
  let turns ← nodes.mapM (fun p => (heap.lookup p).map (print_turn onward))
  some (nodes.length,text "(" ++ turns.flatten)

def print_list (heap : heap_t) (this : list_t) : Option (Nat × List byte) :=
  (for_all_nodes heap this).bind (print_nodes node_t.next heap)
def print_reverse_list (heap : heap_t) (this : list_t) : Option (Nat × List byte) :=
  (for_all_nodes_reverse heap this).bind (print_nodes node_t.previous heap)

/-! ### The text of a sequence -/

def sequence_text (values : List list_content_t) : List byte :=
  text "(" ++ separated print_node (text ", ") (text ")") values

theorem print_node_inj {a b : list_content_t} (stop stop' : byte) (noDigit : ∀ d < 10, decimal_char d ≠ stop)
    (noDigit' : ∀ d < 10, decimal_char d ≠ stop') {rest rest' : List byte}
    (same : print_node a ++ stop :: rest = print_node b ++ stop' :: rest') : a = b ∧ stop :: rest = stop' :: rest' := by
  obtain ⟨value,behind⟩ := numeral_split (by decide) decimal_char_distinct noDigit noDigit' same
  exact ⟨BitVec.eq_of_toNat_eq value,behind⟩

/-- The text of a sequence that is not empty ends with itself. -/
theorem sequence_text_split {left right : List list_content_t} {rest rest' : List byte} (some_ : left ≠ [])
    (some_' : right ≠ []) (same : sequence_text left ++ rest = sequence_text right ++ rest') :
    left = right ∧ rest = rest' := by
  rw [sequence_text,sequence_text,List.append_assoc,List.append_assoc,List.append_cancel_left_eq] at same
  refine separated_split ?_ ?_ ?_ some_ some_' same
  · intro a b rest rest' same
    obtain ⟨value,behind⟩ := print_node_inj (chr ',') (chr ',') (by decide) (by decide) same
    have rests : text ", " ++ rest = text ", " ++ rest' := behind
    exact ⟨value,List.append_cancel_left rests⟩
  · intro a b rest rest' same
    obtain ⟨value,behind⟩ := print_node_inj (chr ')') (chr ')') (by decide) (by decide) same
    exact ⟨value,(List.cons.inj behind).2⟩
  · intro a b rest rest' same
    have behind := (print_node_inj (chr ',') (chr ')') (by decide) (by decide) same).2
    exact absurd (List.cons.inj behind).1 (by decide)

/-- Different sequences have different texts. -/
theorem sequence_text_inj (left right : List list_content_t) : sequence_text left = sequence_text right ↔ left = right := by
  refine ⟨fun same => ?_,congrArg sequence_text⟩
  have long : ∀ a others, sequence_text [] ≠ sequence_text (a :: others) := by
    intro a others same
    rw [sequence_text,sequence_text,List.append_cancel_left_eq] at same
    exact separated_ne_nil (by decide) a others same.symm
  cases left with
  | nil =>
    cases right with
    | nil => rfl
    | cons b right => exact absurd same (long b right)
  | cons a left =>
    cases right with
    | nil => exact absurd same.symm (long a left)
    | cons b right =>
      exact (sequence_text_split (List.cons_ne_nil a left) (List.cons_ne_nil b right) (congrArg (· ++ []) same)).1

/-! ### What is printed -/

/-- Nodes that hold the values, where the loop ends behind the last one. -/
theorem print_nodes_correct (onward : node_t → Option node_ptr) (heap : heap_t) : ∀ cells : List cell,
    (∀ before c behind, cells = before ++ c :: behind →
      ∃ node, heap.lookup c.1 = some node ∧ node.value = c.2 ∧ (onward node = none ↔ behind = [])) →
    ∃ turns, (cells.map Prod.fst).mapM (fun p => (heap.lookup p).map (print_turn onward)) = some turns ∧
      turns.flatten = separated print_node (text ", ") (text ")") (cells.map Prod.snd) := by
  intro cells
  induction cells with
  | nil => exact fun _ => ⟨[],rfl,rfl⟩
  | cons c cells ih =>
    intro found
    obtain ⟨node,here,value,ends⟩ := found [] c cells rfl
    obtain ⟨turns,printed,texts⟩ := ih (fun before d behind same => found (c :: before) d behind (by rw [same]; rfl))
    refine ⟨print_turn onward node :: turns,by simp [here,printed],?_⟩
    rw [List.flatten_cons,texts,print_turn,value]
    cases cells with
    | nil =>
      rw [if_pos (ends.mpr rfl)]
      simp [separated]
    | cons d cells =>
      rw [if_neg (fun none => by cases ends.mp none)]
      simp [separated]

/-- Both loops print the values that the list holds. -/
theorem holds_prints {heap : heap_t} {this : list_t} {cells : List cell} (holds : Holds heap this cells) :
    print_list heap this = some (cells.length,sequence_text (cells.map Prod.snd)) ∧
      print_reverse_list heap this = some (cells.length,sequence_text (cells.map Prod.snd).reverse) := by
  have node : ∀ before c behind, cells = before ++ c :: behind → ∃ node, heap.lookup c.1 = some node ∧ node.value = c.2 ∧
      node.previous = (before.map Prod.fst).getLast? ∧ node.next = (behind.map Prod.fst).head? := by
    rintro before c behind rfl
    have list := holds.list
    rw [List.map_append,List.map_cons] at list
    obtain ⟨value,found⟩ := list.node_at
    have same := holds.values c (by simp)
    rw [value_of,found,Option.map_some] at same
    exact ⟨_,found,Option.some.inj same,rfl,rfl⟩
  constructor
  · obtain ⟨turns,printed,texts⟩ := print_nodes_correct node_t.next heap cells (by
      intro before c behind split
      obtain ⟨content,found,value,_,next⟩ := node before c behind split
      exact ⟨content,found,value,by simp [next]⟩)
    rw [print_list,holds.list.for_all_nodes_eq.1,Option.bind_some,print_nodes,printed]
    simp [sequence_text,texts]
  · obtain ⟨turns,printed,texts⟩ := print_nodes_correct node_t.previous heap cells.reverse (by
      intro before c behind split
      have whole : cells = behind.reverse ++ c :: before.reverse := by
        rw [← List.reverse_reverse cells,split]
        simp
      obtain ⟨content,found,value,previous,_⟩ := node behind.reverse c before.reverse whole
      exact ⟨content,found,value,by simp [previous]⟩)
    rw [List.map_reverse] at printed
    rw [print_reverse_list,holds.list.for_all_nodes_eq.2,Option.bind_some,print_nodes,printed]
    simp [sequence_text,texts]

theorem holds_empty {heap : heap_t} {this : list_t} {cells : List cell} (holds : Holds heap this cells) :
    is_empty_list this = true ↔ cells = [] := by
  rw [is_empty_list,decide_eq_true_iff,holds.list.front_eq,holds.list.back_eq,List.head?_eq_none_iff,
    List.getLast?_eq_none_iff,and_self,List.map_eq_nil_iff]

/-- After every run of legal operations both loops print the plain sequence, one of them
    backwards, and the text tells every value of it. -/
theorem list_prints_sequence (others : heap_t) (ops : List operation) (legal : LegalFrom others [] ops) :
    ∃ heap this, run step (others,init_list) ops = some (ops.map returned,(heap,this)) ∧
      print_list heap this = some ((ops.foldl apply []).length,sequence_text ((ops.foldl apply []).map Prod.snd)) ∧
      print_reverse_list heap this =
        some ((ops.foldl apply []).length,sequence_text ((ops.foldl apply []).map Prod.snd).reverse) ∧
      (is_empty_list this = true ↔ ops.foldl apply [] = []) ∧
      ∀ values, sequence_text values = sequence_text ((ops.foldl apply []).map Prod.snd) →
        values = (ops.foldl apply []).map Prod.snd := by
  have empty : Stands others [] (others,init_list) :=
    ⟨⟨init_list_empty others,fun c member => absurd member List.not_mem_nil⟩,fun p member => Or.inl member⟩
  obtain ⟨⟨heap,this⟩,ran,stands⟩ := run_stands ops [] (others,init_list) empty legal
  obtain ⟨forwards,backwards⟩ := holds_prints stands.holds
  exact ⟨heap,this,ran,forwards,backwards,holds_empty stands.holds,fun values => (sequence_text_inj values _).mp⟩

theorem list_prints_sequence_some_operations :
    ∃ heap this, run step (∅,init_list) some_operations = some (some_operations.map returned,(heap,this)) ∧
      print_list heap this =
        some ((some_operations.foldl apply []).length,sequence_text ((some_operations.foldl apply []).map Prod.snd)) ∧
      print_reverse_list heap this = some ((some_operations.foldl apply []).length,
        sequence_text ((some_operations.foldl apply []).map Prod.snd).reverse) ∧
      (is_empty_list this = true ↔ some_operations.foldl apply [] = []) ∧
      ∀ values, sequence_text values = sequence_text ((some_operations.foldl apply []).map Prod.snd) →
        values = (some_operations.foldl apply []).map Prod.snd := by
  have legal : LegalFrom ∅ [] some_operations := by
    simp [some_operations,LegalFrom,Legal,apply,Finmap.notMem_empty]
  exact list_prints_sequence ∅ some_operations legal

end CacheEmulator.ListPrint
