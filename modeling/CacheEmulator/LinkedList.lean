import Mathlib.Data.Finmap
import CacheEmulator.Links

/-!
The doubly linked lists of `list.c`, over a heap of nodes. NULL is `none`;
reading or writing through NULL, or through a pointer to no node of the heap,
has no result. The list argument is an object, so its tests for NULL hold.
-/
namespace CacheEmulator.LinkedList
open CacheEmulator.Links
open Function (update)

abbrev list_content_t := BitVec 32
abbrev node_ptr := Nat

structure node_t where
  value : list_content_t
  previous : Option node_ptr
  next : Option node_ptr
  deriving DecidableEq

structure list_t where
  front : Option node_ptr
  back : Option node_ptr
  deriving DecidableEq

abbrev heap_t := Finmap (fun _ : node_ptr => node_t)

def write_next (heap : heap_t) (node next : Option node_ptr) : Option heap_t := do
  let p ← node
  let content ← heap.lookup p
  some (heap.insert p { content with next := next })

def write_previous (heap : heap_t) (node previous : Option node_ptr) : Option heap_t := do
  let p ← node
  let content ← heap.lookup p
  some (heap.insert p { content with previous := previous })

def init_list : list_t := ⟨none,none⟩

/-- `calloc` answers with a pointer or NULL, and the value is written through it untested. -/
def new_node (heap : heap_t) (allocated : Option node_ptr) (value : list_content_t) : Option (heap_t × node_ptr) := do
  let new ← allocated
  some (heap.insert new ⟨value,none,none⟩,new)

def place_node_at_back (heap : heap_t) (this : list_t) (node : node_ptr) : Option (heap_t × list_t) := do
  let heap ← write_next heap this.back (some node)
  let heap ← write_previous heap (some node) this.back
  let heap ← write_next heap (some node) none
  some (heap,{ this with back := some node })

def push_back (heap : heap_t) (this : list_t) (allocated : Option node_ptr) (value : list_content_t) :
    Option (heap_t × list_t × node_ptr) := do
  let (heap,new) ← new_node heap allocated value
  if this.front = none then some (heap,⟨some new,some new⟩,new)
  else do
    let (heap,this) ← place_node_at_back heap this new
    some (heap,this,new)

def push_front (heap : heap_t) (this : list_t) (allocated : Option node_ptr) (value : list_content_t) :
    Option (heap_t × list_t × node_ptr) := do
  let (heap,new) ← new_node heap allocated value
  if this.back = none then some (heap,⟨some new,some new⟩,new)
  else do
    let heap ← write_previous heap this.front (some new)
    let heap ← write_next heap (some new) this.front
    let heap ← write_previous heap (some new) none
    some (heap,{ this with front := some new },new)

/-- Freeing NULL does nothing; only a node of the heap can be freed. -/
def free (heap : heap_t) (node : Option node_ptr) : Option heap_t :=
  match node with
  | none => some heap
  | some p => (heap.lookup p).map (fun _ => heap.erase p)

def pop_back (heap : heap_t) (this : list_t) : Option (heap_t × list_t) :=
  match this.back with
  | none => some (heap,this)
  | some p => do
    let content ← heap.lookup p
    match content.previous with
    | none => (free heap this.back).map (fun heap => (heap,init_list))
    | some b => do
      let this := { this with back := some b }
      let content ← heap.lookup b
      let heap ← free heap content.next
      let heap ← write_next heap this.back none
      some (heap,this)

def pop_front (heap : heap_t) (this : list_t) : Option (heap_t × list_t) :=
  match this.front with
  | none => some (heap,this)
  | some p => do
    let content ← heap.lookup p
    match content.next with
    | none => (free heap this.front).map (fun heap => (heap,init_list))
    | some f => do
      let this := { this with front := some f }
      let content ← heap.lookup f
      let heap ← free heap content.previous
      let heap ← write_previous heap this.front none
      some (heap,this)

def move_back (heap : heap_t) (this : list_t) (node : Option node_ptr) : Option (heap_t × list_t) :=
  match node with
  | none => some (heap,this)
  | some p => do
    let content ← heap.lookup p
    if content.previous ≠ none ∧ content.next ≠ none then do
      let heap ← write_next heap content.previous content.next
      let content ← heap.lookup p
      let heap ← write_previous heap content.next content.previous
      place_node_at_back heap this p
    else if content.previous = none ∧ content.next ≠ none then do
      let this := { this with front := content.next }
      let heap ← write_previous heap this.front none
      place_node_at_back heap this p
    else some (heap,this)

/-- The nodes that a loop over the list meets from a node on. The steps are
    bounded by the nodes there are: a longer loop never ends. -/
def nodes_from (step : node_t → Option node_ptr) (heap : heap_t) : Nat → Option node_ptr → Option (List node_ptr)
  | _, none => some []
  | 0, some _ => none
  | steps + 1, some p => do
    let node ← heap.lookup p
    let rest ← nodes_from step heap steps (step node)
    some (p :: rest)

def for_all_nodes (heap : heap_t) (this : list_t) : Option (List node_ptr) :=
  nodes_from node_t.next heap heap.keys.card this.front
def for_all_nodes_reverse (heap : heap_t) (this : list_t) : Option (List node_ptr) :=
  nodes_from node_t.previous heap heap.keys.card this.back

/-! ### Links, with NULL as the sentinel -/

def next_of (heap : heap_t) (this : list_t) : Option node_ptr → Option node_ptr
  | none => this.front
  | some p => (heap.lookup p).bind node_t.next
def previous_of (heap : heap_t) (this : list_t) : Option node_ptr → Option node_ptr
  | none => this.back
  | some p => (heap.lookup p).bind node_t.previous
def value_of (heap : heap_t) (p : node_ptr) : Option list_content_t := (heap.lookup p).map node_t.value

/-- The list has the given nodes, front to back, all of them in the heap. -/
structure IsList (heap : heap_t) (this : list_t) (ps : List node_ptr) : Prop where
  ring : Ringed (next_of heap this) (previous_of heap this) none (ps.map some)
  alive : ∀ p ∈ ps, p ∈ heap

theorem alive_value {heap : heap_t} {p : node_ptr} : p ∈ heap ↔ (value_of heap p).isSome := by
  rw [value_of,Option.isSome_map,Finmap.lookup_isSome]

theorem alive_of_values {heap after : heap_t} (kept : value_of after = value_of heap) {p : node_ptr} :
    p ∈ after ↔ p ∈ heap := by
  rw [alive_value,alive_value,kept]

theorem next_of_insert (heap : heap_t) (this : list_t) (p : node_ptr) (content : node_t) :
    next_of (heap.insert p content) this = update (next_of heap this) (some p) content.next := by
  funext q
  cases q with
  | none => rfl
  | some q =>
    by_cases same : q = p
    · subst same
      simp [next_of]
    · simp [next_of,same,Finmap.lookup_insert_of_ne _ same]

theorem previous_of_insert (heap : heap_t) (this : list_t) (p : node_ptr) (content : node_t) :
    previous_of (heap.insert p content) this = update (previous_of heap this) (some p) content.previous := by
  funext q
  cases q with
  | none => rfl
  | some q =>
    by_cases same : q = p
    · subst same
      simp [previous_of]
    · simp [previous_of,same,Finmap.lookup_insert_of_ne _ same]

theorem value_of_insert (heap : heap_t) (p : node_ptr) (content : node_t) :
    value_of (heap.insert p content) = update (value_of heap) p (some content.value) := by
  funext q
  by_cases same : q = p
  · subst same
    simp [value_of]
  · simp [value_of,same,Finmap.lookup_insert_of_ne _ same]

theorem next_of_erase (heap : heap_t) (this : list_t) (p : node_ptr) :
    next_of (heap.erase p) this = update (next_of heap this) (some p) none := by
  funext q
  cases q with
  | none => rfl
  | some q =>
    by_cases same : q = p
    · subst same
      simp [next_of]
    · simp [next_of,same,Finmap.lookup_erase_ne same]

theorem previous_of_erase (heap : heap_t) (this : list_t) (p : node_ptr) :
    previous_of (heap.erase p) this = update (previous_of heap this) (some p) none := by
  funext q
  cases q with
  | none => rfl
  | some q =>
    by_cases same : q = p
    · subst same
      simp [previous_of]
    · simp [previous_of,same,Finmap.lookup_erase_ne same]

theorem value_of_erase (heap : heap_t) (p : node_ptr) : value_of (heap.erase p) = update (value_of heap) p none := by
  funext q
  by_cases same : q = p
  · subst same
    simp [value_of]
  · simp [value_of,same,Finmap.lookup_erase_ne same]

/-- Writing a forward link changes that link alone. -/
theorem write_next_total {heap : heap_t} {p : node_ptr} (alive : p ∈ heap) (target : Option node_ptr) :
    ∃ after, write_next heap (some p) target = some after ∧ value_of after = value_of heap ∧
      (∀ this, next_of after this = update (next_of heap this) (some p) target) ∧
      ∀ this, previous_of after this = previous_of heap this := by
  obtain ⟨content,found⟩ := Finmap.mem_iff.mp alive
  refine ⟨heap.insert p { content with next := target },?_,?_,fun this => next_of_insert heap this p _,?_⟩
  · simp only [write_next,found,Option.bind_eq_bind,Option.bind_some]
  · rw [value_of_insert]
    exact Function.update_eq_self_iff.mpr (by simp [value_of,found])
  · intro this
    rw [previous_of_insert]
    exact Function.update_eq_self_iff.mpr (by simp [previous_of,found])

theorem write_previous_total {heap : heap_t} {p : node_ptr} (alive : p ∈ heap) (target : Option node_ptr) :
    ∃ after, write_previous heap (some p) target = some after ∧ value_of after = value_of heap ∧
      (∀ this, next_of after this = next_of heap this) ∧
      ∀ this, previous_of after this = update (previous_of heap this) (some p) target := by
  obtain ⟨content,found⟩ := Finmap.mem_iff.mp alive
  refine ⟨heap.insert p { content with previous := target },?_,?_,?_,fun this => previous_of_insert heap this p _⟩
  · simp only [write_previous,found,Option.bind_eq_bind,Option.bind_some]
  · rw [value_of_insert]
    exact Function.update_eq_self_iff.mpr (by simp [value_of,found])
  · intro this
    rw [next_of_insert]
    exact Function.update_eq_self_iff.mpr (by simp [next_of,found])

theorem next_of_back (heap : heap_t) (this : list_t) (back : Option node_ptr) :
    next_of heap { this with back := back } = next_of heap this := by
  funext q
  cases q with
  | none => rfl
  | some q => rfl

theorem previous_of_back (heap : heap_t) (this : list_t) (back : Option node_ptr) :
    previous_of heap { this with back := back } = update (previous_of heap this) none back := by
  funext q
  cases q with
  | none => rfl
  | some q => rfl

theorem next_of_front (heap : heap_t) (this : list_t) (front : Option node_ptr) :
    next_of heap { this with front := front } = update (next_of heap this) none front := by
  funext q
  cases q with
  | none => rfl
  | some q => rfl

theorem previous_of_front (heap : heap_t) (this : list_t) (front : Option node_ptr) :
    previous_of heap { this with front := front } = previous_of heap this := by
  funext q
  cases q with
  | none => rfl
  | some q => rfl

/-! ### What the operations do to a list -/

theorem last_of_map (ps : List node_ptr) : (ps.map some).getLastD none = ps.getLast? := by
  rw [List.getLastD_eq_getLast?,List.getLast?_map]
  cases ps.getLast? with
  | none => rfl
  | some p => rfl

theorem first_of_map (ps : List node_ptr) : (ps.map some).headD none = ps.head? := by
  cases ps with
  | nil => rfl
  | cons p ps => rfl

namespace IsList
variable {heap : heap_t} {this : list_t} {ps as bs : List node_ptr} {p : node_ptr}

theorem front_eq (list : IsList heap this ps) : this.front = ps.head? := by
  rw [← first_of_map]
  exact list.ring.fwd_sentinel

theorem back_eq (list : IsList heap this ps) : this.back = ps.getLast? := by
  rw [← last_of_map]
  exact list.ring.bwd_sentinel

theorem nodup (list : IsList heap this ps) : ps.Nodup :=
  (List.nodup_cons.mp list.ring.distinct).2.of_map some

/-- The content of a node with a given place in the list. -/
theorem node_at (list : IsList heap this (as ++ p :: bs)) :
    ∃ value, heap.lookup p = some ⟨value,as.getLast?,bs.head?⟩ := by
  obtain ⟨content,found⟩ := Finmap.mem_iff.mp (list.alive p (by simp))
  have ring := list.ring
  rw [List.map_append,List.map_cons] at ring
  have next := ring.fwd_at
  have previous := ring.bwd_at
  rw [first_of_map] at next
  rw [last_of_map] at previous
  have nextIs : content.next = bs.head? := by simpa [next_of,found] using next
  have previousIs : content.previous = as.getLast? := by simpa [previous_of,found] using previous
  refine ⟨content.value,?_⟩
  rw [found,← nextIs,← previousIs]

end IsList

theorem place_node_at_back_total {heap : heap_t} {this : list_t} {ps : List node_ptr} {p : node_ptr}
    (list : IsList heap this ps) (some_node : ps ≠ []) (alive : p ∈ heap) (fresh : p ∉ ps) :
    ∃ heap' this', place_node_at_back heap this p = some (heap',this') ∧ IsList heap' this' (ps ++ [p]) ∧
      value_of heap' = value_of heap := by
  obtain ⟨l,last⟩ : ∃ l, ps.getLast? = some l := Option.isSome_iff_exists.mp (by simpa using some_node)
  have backIs : this.back = some l := list.back_eq.trans last
  have lastMember : l ∈ ps := List.mem_of_getLast? last
  have apart : l ≠ p := fun same => fresh (same ▸ lastMember)
  obtain ⟨heap1,wrote1,values1,next1,previous1⟩ := write_next_total (list.alive l lastMember) (some p)
  obtain ⟨heap2,wrote2,values2,next2,previous2⟩ :=
    write_previous_total ((alive_of_values values1).mpr alive) this.back
  obtain ⟨heap3,wrote3,values3,next3,previous3⟩ :=
    write_next_total ((alive_of_values (values2.trans values1)).mpr alive) none
  have values : value_of heap3 = value_of heap := values3.trans (values2.trans values1)
  have executed : place_node_at_back heap this p = some (heap3,{ this with back := some p }) := by
    rw [place_node_at_back,backIs]
    rw [backIs] at wrote2
    simp only [wrote1,wrote2,wrote3,Option.bind_eq_bind,Option.bind_some]
  refine ⟨heap3,{ this with back := some p },executed,⟨?_,?_⟩,values⟩
  · rw [next_of_back,previous_of_back,next3,next2,next1,previous3,previous2,previous1,List.map_append,
      List.map_singleton,backIs]
    have lastLink : (ps.map some).getLastD none = some l := (last_of_map ps).trans last
    have old : Ringed (next_of heap this) (previous_of heap this) none (ps.map some ++ []) := by
      rw [List.append_nil]; exact list.ring
    refine old.link (by simpa using fresh) ?_ ?_
    · intro a
      rw [lastLink,List.headD_nil,Function.update_apply,Function.update_apply]
    · intro b
      rw [lastLink,List.headD_nil,Function.update_apply,Function.update_apply]
      by_cases new : b = some p
      · subst new
        simp
      · simp [new]
  · intro q member
    rw [alive_of_values values]
    rcases List.mem_append.mp member with old | new
    · exact list.alive q old
    · exact (List.mem_singleton.mp new) ▸ alive

/-- A heap in which the two links over a node are set holds the list without the
    node, wherever the links of the node itself point. -/
theorem IsList.unlink_node {heap after : heap_t} {this this' : list_t} {as bs : List node_ptr} {p : node_ptr}
    (list : IsList heap this (as ++ p :: bs))
    (next : ∀ q, q ≠ some p → next_of after this' q = update (next_of heap this) as.getLast? bs.head? q)
    (previous : ∀ q, q ≠ some p → previous_of after this' q = update (previous_of heap this) bs.head? as.getLast? q)
    (alive : ∀ q ∈ as ++ bs, q ∈ after) : IsList after this' (as ++ bs) := by
  refine ⟨?_,alive⟩
  have ring := list.ring
  rw [List.map_append,List.map_cons] at ring
  rw [List.map_append]
  refine ring.unlink ?_ ?_
  · intro a other
    rw [next a other,Function.update_apply,last_of_map,first_of_map]
  · intro b other
    rw [previous b other,Function.update_apply,last_of_map,first_of_map]

theorem IsList.unlink {heap after : heap_t} {this this' : list_t} {as bs : List node_ptr} {p : node_ptr}
    (list : IsList heap this (as ++ p :: bs))
    (next : next_of after this' = update (next_of heap this) as.getLast? bs.head?)
    (previous : previous_of after this' = update (previous_of heap this) bs.head? as.getLast?)
    (values : value_of after = value_of heap) : IsList after this' (as ++ bs) := by
  refine list.unlink_node (fun q _ => by rw [next]) (fun q _ => by rw [previous]) ?_
  intro q member
  rw [alive_of_values values]
  refine list.alive q ?_
  rcases List.mem_append.mp member with before | behind
  · exact List.mem_append_left _ before
  · exact List.mem_append_right _ (List.mem_cons_of_mem p behind)

/-- A node of a list moves to its back; the values stay in their nodes. -/
theorem move_back_total {heap : heap_t} {this : list_t} {as bs : List node_ptr} {p : node_ptr}
    (list : IsList heap this (as ++ p :: bs)) :
    ∃ heap' this', move_back heap this (some p) = some (heap',this') ∧ IsList heap' this' (as ++ bs ++ [p]) ∧
      value_of heap' = value_of heap := by
  obtain ⟨value,found⟩ := list.node_at
  have alive : p ∈ heap := Finmap.mem_of_lookup_eq_some found
  have apart : p ∉ as ++ bs := (List.nodup_cons.mp (list.nodup.perm List.perm_middle)).1
  cases bs with
  | nil =>
    have executed : move_back heap this (some p) = some (heap,this) := by simp [move_back,found]
    exact ⟨heap,this,executed,by simpa using list,rfl⟩
  | cons b bs =>
    have aliveB : b ∈ heap := list.alive b (by simp)
    have nonempty : as ++ b :: bs ≠ [] := by simp
    -- In both cases the links over the node are set first, and the node is then placed at the back.
    cases previous : as.getLast? with
    | none =>
      obtain ⟨heap1,wrote1,values1,next1,previous1⟩ := write_previous_total aliveB none
      have unlinked : IsList heap1 { this with front := some b } (as ++ b :: bs) := by
        refine list.unlink ?_ ?_ values1
        · rw [next_of_front,next1,previous,List.head?_cons]
        · rw [previous_of_front,previous1,previous,List.head?_cons]
      obtain ⟨heap2,this2,placed,moved,values2⟩ :=
        place_node_at_back_total unlinked nonempty ((alive_of_values values1).mpr alive) apart
      refine ⟨heap2,this2,?_,moved,values2.trans values1⟩
      simp [move_back,found,previous,wrote1,placed]
    | some a =>
      have memberA : a ∈ as := List.mem_of_getLast? previous
      have aliveA : a ∈ heap := list.alive a (List.mem_append_left _ memberA)
      have notA : p ≠ a := fun same => apart (same ▸ List.mem_append_left _ memberA)
      obtain ⟨heap1,wrote1,values1,next1,previous1⟩ := write_next_total aliveA (some b)
      obtain ⟨heap2,wrote2,values2,next2,previous2⟩ :=
        write_previous_total ((alive_of_values values1).mpr aliveB) (some a)
      have values : value_of heap2 = value_of heap := values2.trans values1
      have unlinked : IsList heap2 this (as ++ b :: bs) := by
        refine list.unlink ?_ ?_ values
        · rw [next2,next1,previous,List.head?_cons]
        · rw [previous2,previous1,previous,List.head?_cons]
      -- The node itself is read again and is as before.
      have again : ∃ content, heap1.lookup p = some content ∧ content.next = some b ∧ content.previous = some a := by
        obtain ⟨content,found1⟩ := Finmap.mem_iff.mp ((alive_of_values values1).mpr alive)
        have nextP := congrFun (next1 this) (some p)
        have previousP := congrFun (previous1 this) (some p)
        rw [Function.update_of_ne (by simpa using notA)] at nextP
        simp only [next_of,found,found1,Option.bind_some,List.head?_cons] at nextP
        simp only [previous_of,found,found1,Option.bind_some,previous] at previousP
        exact ⟨content,found1,nextP,previousP⟩
      obtain ⟨content,found1,nextIs,previousIs⟩ := again
      obtain ⟨heap3,this3,placed,moved,values3⟩ :=
        place_node_at_back_total unlinked nonempty ((alive_of_values values).mpr alive) apart
      refine ⟨heap3,this3,?_,moved,values3.trans values⟩
      simp [move_back,found,previous,wrote1,found1,nextIs,previousIs,wrote2,placed]

theorem init_list_empty (heap : heap_t) : IsList heap init_list [] :=
  ⟨ringed_nil rfl rfl,fun _ member => absurd member List.not_mem_nil⟩

/-- Allocating a node leaves a list as it was. -/
theorem IsList.allocate {heap : heap_t} {this : list_t} {ps : List node_ptr} {p : node_ptr} (list : IsList heap this ps)
    (absent : p ∉ ps) (content : node_t) : IsList (heap.insert p content) this ps := by
  refine ⟨list.ring.congr ?_,fun q member => Finmap.mem_insert.mpr (Or.inr (list.alive q member))⟩
  intro a member
  have apart : a ≠ some p := by
    rintro rfl
    simp [absent] at member
  rw [next_of_insert,previous_of_insert]
  exact ⟨Function.update_of_ne apart _ _,Function.update_of_ne apart _ _⟩

theorem one_node (heap : heap_t) (p : node_ptr) (value : list_content_t) :
    IsList (heap.insert p ⟨value,none,none⟩) ⟨some p,some p⟩ [p] := by
  refine ⟨⟨?_,by simp⟩,by simp⟩
  have links : Linked (next_of (heap.insert p ⟨value,none,none⟩) ⟨some p,some p⟩)
      (previous_of (heap.insert p ⟨value,none,none⟩) ⟨some p,some p⟩) none (some p) := ⟨rfl,by simp [previous_of]⟩
  have closed : Linked (next_of (heap.insert p ⟨value,none,none⟩) ⟨some p,some p⟩)
      (previous_of (heap.insert p ⟨value,none,none⟩) ⟨some p,some p⟩) (some p) none := ⟨by simp [next_of],rfl⟩
  exact List.isChain_cons_cons.mpr ⟨links,List.isChain_pair.mpr closed⟩

/-- A fresh node is added at the back with its value. -/
theorem push_back_total {heap : heap_t} {this : list_t} {ps : List node_ptr} {p : node_ptr} (value : list_content_t)
    (list : IsList heap this ps) (fresh : p ∉ heap) :
    ∃ heap' this', push_back heap this (some p) value = some (heap',this',p) ∧ IsList heap' this' (ps ++ [p]) ∧
      value_of heap' = update (value_of heap) p (some value) := by
  have absent : p ∉ ps := fun member => fresh (list.alive p member)
  have new : p ∈ heap.insert p ⟨value,none,none⟩ := Finmap.mem_insert.mpr (Or.inl rfl)
  cases ps with
  | nil =>
    have frontIs : this.front = none := list.front_eq
    refine ⟨heap.insert p ⟨value,none,none⟩,⟨some p,some p⟩,?_,one_node heap p value,value_of_insert _ _ _⟩
    simp [push_back,new_node,frontIs]
  | cons q qs =>
    have frontIs : this.front = some q := list.front_eq
    obtain ⟨heap',this',placed,grown,values⟩ :=
      place_node_at_back_total (list.allocate absent _) (List.cons_ne_nil q qs) new absent
    refine ⟨heap',this',?_,grown,by rw [values,value_of_insert]⟩
    simp [push_back,new_node,frontIs,placed]

/-- A fresh node is added at the front with its value. -/
theorem push_front_total {heap : heap_t} {this : list_t} {ps : List node_ptr} {p : node_ptr} (value : list_content_t)
    (list : IsList heap this ps) (fresh : p ∉ heap) :
    ∃ heap' this', push_front heap this (some p) value = some (heap',this',p) ∧ IsList heap' this' (p :: ps) ∧
      value_of heap' = update (value_of heap) p (some value) := by
  have absent : p ∉ ps := fun member => fresh (list.alive p member)
  have new : p ∈ heap.insert p ⟨value,none,none⟩ := Finmap.mem_insert.mpr (Or.inl rfl)
  cases ps with
  | nil =>
    have backIs : this.back = none := list.back_eq
    refine ⟨heap.insert p ⟨value,none,none⟩,⟨some p,some p⟩,?_,one_node heap p value,value_of_insert _ _ _⟩
    simp [push_front,new_node,backIs]
  | cons q qs =>
    have frontIs : this.front = some q := list.front_eq
    have backIs : this.back ≠ none := by
      rw [list.back_eq]
      simp
    have kept := list.allocate absent ⟨value,none,none⟩
    obtain ⟨heap1,wrote1,values1,next1,previous1⟩ := write_previous_total (kept.alive q List.mem_cons_self) (some p)
    obtain ⟨heap2,wrote2,values2,next2,previous2⟩ := write_next_total ((alive_of_values values1).mpr new) (some q)
    obtain ⟨heap3,wrote3,values3,next3,previous3⟩ :=
      write_previous_total ((alive_of_values (values2.trans values1)).mpr new) none
    have values : value_of heap3 = value_of (heap.insert p ⟨value,none,none⟩) := values3.trans (values2.trans values1)
    refine ⟨heap3,{ this with front := some p },?_,⟨?_,?_⟩,by rw [values,value_of_insert]⟩
    · simp [push_front,new_node,frontIs,backIs,wrote1,wrote2,wrote3]
    · rw [next_of_front,previous_of_front,next3,next2,next1,previous3,previous2,previous1,List.map_cons]
      have apart : q ≠ p := fun same => absent (same ▸ List.mem_cons_self)
      have old : Ringed (next_of (heap.insert p ⟨value,none,none⟩) this)
          (previous_of (heap.insert p ⟨value,none,none⟩) this) none ([] ++ (q :: qs).map some) := kept.ring
      refine old.link (by simpa using absent) ?_ ?_
      · intro a
        rw [List.getLastD_nil,List.map_cons,List.headD_cons,Function.update_apply,Function.update_apply]
        by_cases sentinel : a = none
        · simp [sentinel]
        · simp [sentinel]
      · intro b
        rw [List.getLastD_nil,List.map_cons,List.headD_cons,Function.update_apply,Function.update_apply]
    · intro r member
      rw [alive_of_values values]
      rcases List.mem_cons.mp member with first | later
      · exact first ▸ new
      · exact kept.alive r later

/-- The last node is taken off and freed. -/
theorem pop_back_total {heap : heap_t} {this : list_t} {as : List node_ptr} {p : node_ptr}
    (list : IsList heap this (as ++ [p])) :
    ∃ heap' this', pop_back heap this = some (heap',this') ∧ IsList heap' this' as ∧
      value_of heap' = update (value_of heap) p none := by
  obtain ⟨value,found⟩ := list.node_at
  have backIs : this.back = some p := list.back_eq.trans (List.getLast?_concat)
  cases previous : as.getLast? with
  | none =>
    obtain rfl := List.getLast?_eq_none_iff.mp previous
    refine ⟨heap.erase p,init_list,?_,init_list_empty _,value_of_erase heap p⟩
    simp [pop_back,backIs,found,free]
  | some b =>
    have memberB : b ∈ as := List.mem_of_getLast? previous
    have apart : b ≠ p := by
      rintro rfl
      exact (List.nodup_append.mp list.nodup).2.2 b memberB b (List.mem_singleton_self b) rfl
    obtain ⟨content,foundB⟩ := Finmap.mem_iff.mp (list.alive b (List.mem_append_left _ memberB))
    have nextB : content.next = some p := by
      obtain ⟨front,split⟩ := List.getLast?_eq_some_iff.mp previous
      have whole := list
      rw [split,List.append_assoc] at whole
      obtain ⟨_,found'⟩ := whole.node_at
      rw [foundB] at found'
      obtain rfl := Option.some.inj found'
      rfl
    have aliveB : b ∈ heap.erase p := Finmap.mem_erase.mpr ⟨apart,Finmap.mem_of_lookup_eq_some foundB⟩
    obtain ⟨heap1,wrote1,values1,next1,previous1⟩ := write_next_total aliveB none
    have values : value_of heap1 = update (value_of heap) p none := values1.trans (value_of_erase heap p)
    refine ⟨heap1,{ this with back := some b },?_,?_,values⟩
    · simp [pop_back,backIs,found,previous,foundB,nextB,free,wrote1]
    · have rest : IsList heap1 { this with back := some b } (as ++ []) := by
        refine list.unlink_node ?_ ?_ ?_
        · intro q other
          rw [next_of_back,next1,next_of_erase,previous,List.head?_nil,Function.update_apply,Function.update_apply,
            if_neg other,Function.update_apply]
        · intro q other
          rw [previous_of_back,previous1,previous_of_erase,previous,List.head?_nil,Function.update_apply,
            Function.update_apply,if_neg other,Function.update_apply]
        · intro q member
          rw [List.append_nil] at member
          have notP : q ≠ p := by
            rintro rfl
            exact (List.nodup_append.mp list.nodup).2.2 q member q (List.mem_singleton_self q) rfl
          rw [alive_of_values values1]
          exact Finmap.mem_erase.mpr ⟨notP,list.alive q (List.mem_append_left _ member)⟩
      rwa [List.append_nil] at rest

/-- The first node is taken off and freed. -/
theorem pop_front_total {heap : heap_t} {this : list_t} {bs : List node_ptr} {p : node_ptr}
    (list : IsList heap this (p :: bs)) :
    ∃ heap' this', pop_front heap this = some (heap',this') ∧ IsList heap' this' bs ∧
      value_of heap' = update (value_of heap) p none := by
  have whole : IsList heap this ([] ++ p :: bs) := list
  obtain ⟨value,found⟩ := whole.node_at
  have frontIs : this.front = some p := list.front_eq
  have absent : p ∉ bs := (List.nodup_cons.mp list.nodup).1
  cases bs with
  | nil =>
    refine ⟨heap.erase p,init_list,?_,init_list_empty _,value_of_erase heap p⟩
    simp [pop_front,frontIs,found,free]
  | cons f bs =>
    have apart : f ≠ p := fun same => absent (same ▸ List.mem_cons_self)
    have second : IsList heap this ([p] ++ f :: bs) := list
    obtain ⟨valueF,foundF⟩ := second.node_at
    have aliveF : f ∈ heap.erase p := Finmap.mem_erase.mpr ⟨apart,Finmap.mem_of_lookup_eq_some foundF⟩
    obtain ⟨heap1,wrote1,values1,next1,previous1⟩ := write_previous_total aliveF none
    have values : value_of heap1 = update (value_of heap) p none := values1.trans (value_of_erase heap p)
    refine ⟨heap1,{ this with front := some f },?_,?_,values⟩
    · simp [pop_front,frontIs,found,foundF,free,wrote1]
    · refine whole.unlink_node ?_ ?_ ?_
      · intro q other
        rw [next_of_front,next1,next_of_erase,List.getLast?_nil,List.head?_cons,Function.update_apply,
          Function.update_apply,if_neg other,Function.update_apply]
      · intro q other
        rw [previous_of_front,previous1,previous_of_erase,List.getLast?_nil,List.head?_cons,Function.update_apply,
          Function.update_apply,if_neg other,Function.update_apply]
      · intro q member
        rw [alive_of_values values1]
        exact Finmap.mem_erase.mpr ⟨fun same => absent (same ▸ member),list.alive q (List.mem_cons_of_mem p member)⟩

/-! ### What a loop over a list meets -/

namespace IsList
variable {heap : heap_t} {this : list_t} {ps : List node_ptr}

theorem length_le_nodes (list : IsList heap this ps) : ps.length ≤ heap.keys.card := by
  rw [← List.toFinset_card_of_nodup list.nodup]
  refine Finset.card_le_card ?_
  intro p member
  exact Finmap.mem_keys.mpr (list.alive p (List.mem_toFinset.mp member))

theorem nodes_forward : ∀ (bs as : List node_ptr) (steps : Nat), IsList heap this (as ++ bs) → bs.length ≤ steps →
    nodes_from node_t.next heap steps bs.head? = some bs := by
  intro bs
  induction bs with
  | nil =>
    intro as steps _ _
    cases steps with
    | zero => rfl
    | succ steps => rfl
  | cons p bs ih =>
    intro as steps list enough
    obtain ⟨steps,rfl⟩ : ∃ m, steps = m + 1 := ⟨steps - 1,by simp at enough; omega⟩
    obtain ⟨value,found⟩ := list.node_at
    have rest := ih (as ++ [p]) steps (by rwa [List.append_assoc]) (by simpa using enough)
    simp [nodes_from,found,rest]

theorem nodes_backward : ∀ (as bs : List node_ptr) (steps : Nat), IsList heap this (as ++ bs) → as.length ≤ steps →
    nodes_from node_t.previous heap steps as.getLast? = some as.reverse := by
  intro as
  induction as using List.reverseRecOn with
  | nil =>
    intro bs steps _ _
    cases steps with
    | zero => rfl
    | succ steps => rfl
  | append_singleton as p ih =>
    intro bs steps list enough
    obtain ⟨steps,rfl⟩ : ∃ m, steps = m + 1 := ⟨steps - 1,by simp at enough; omega⟩
    rw [List.append_assoc] at list
    obtain ⟨value,found⟩ := list.node_at
    have rest := ih (p :: bs) steps list (by simpa using enough)
    simp [nodes_from,found,rest]

/-- The loops meet the nodes in order, and in the reverse order. -/
theorem for_all_nodes_eq (list : IsList heap this ps) :
    for_all_nodes heap this = some ps ∧ for_all_nodes_reverse heap this = some ps.reverse := by
  have enough := list.length_le_nodes
  constructor
  · rw [for_all_nodes,list.front_eq]
    exact nodes_forward ps [] _ list enough
  · rw [for_all_nodes_reverse,list.back_eq]
    exact nodes_backward ps [] _ (by rwa [List.append_nil]) enough

end IsList

end CacheEmulator.LinkedList
