import CacheEmulator.LinkedList
import CacheEmulator.PageWalk

/-!
The fully associative TLB: `tlb.h` and `tlb_mng.c`, with the operations of
`list.c` as its replacement policy. A line index outside the table has no result.
-/
namespace CacheEmulator.Tlb
open CacheEmulator.Error CacheEmulator.Memory CacheEmulator.Addr CacheEmulator.PageWalk CacheEmulator.LinkedList

def TLB_LINES : Nat := 128

structure tlb_entry_t where
  tag : BitVec 36
  phy_page_num : BitVec 20
  v : BitVec 1
  deriving DecidableEq

abbrev tlb_t := Fin TLB_LINES → tlb_entry_t

/-- The table, and the list of line indices that orders the replacement. -/
structure state where
  tlb : tlb_t
  heap : heap_t
  ll : list_t

def tlb_entry_init (vaddr : virt_addr_t) (paddr : phy_addr_t) : error_code × tlb_entry_t :=
  (.ERR_NONE,
    { tag := (virt_addr_t_to_virtual_page_number vaddr).setWidth 36
      phy_page_num := paddr.phy_page_num
      v := 1#1 })

def tlb_flush : error_code × tlb_t := (.ERR_NONE,fun _ => { tag := 0, phy_page_num := 0, v := 0#1 })

def tlb_line (tlb : tlb_t) (index : BitVec 32) : Option tlb_entry_t :=
  if inside : index.toNat < TLB_LINES then some (tlb ⟨index.toNat,inside⟩) else none

def write_tlb_line (tlb : tlb_t) (index : BitVec 32) (tlb_entry : tlb_entry_t) : Option tlb_t :=
  if inside : index.toNat < TLB_LINES then some (Function.update tlb ⟨index.toNat,inside⟩ tlb_entry) else none

/-- The loop of `tlb_hit`, from a node towards the front, up to the node of a
    line that holds the page. The steps are bounded by the nodes there are: a
    longer walk never ends. -/
def hit_node (heap : heap_t) (tlb : tlb_t) (virt_page_num : BitVec 64) : Nat → Option node_ptr → Option (Option node_ptr)
  | _, none => some none
  | 0, some _ => none
  | steps + 1, some p => do
    let node ← heap.lookup p
    let line ← tlb_line tlb node.value
    if line.tag.setWidth 64 = virt_page_num ∧ line.v = 1#1 then some (some p)
    else hit_node heap tlb virt_page_num steps node.previous

/-- The hit flag, the physical address, which only a hit writes, and the list after the call. -/
def tlb_hit (vaddr : virt_addr_t) (paddr : phy_addr_t) (s : state) : Option (Bool × phy_addr_t × heap_t × list_t) := do
  let virt_page_num := virt_addr_t_to_virtual_page_number vaddr
  match ← hit_node s.heap s.tlb virt_page_num s.heap.keys.card s.ll.back with
  | none => some (false,paddr,s.heap,s.ll)
  | some p =>
    let node ← s.heap.lookup p
    let line ← tlb_line s.tlb node.value
    let (heap,ll) ← move_back s.heap s.ll (some p)
    some (true,{ phy_page_num := line.phy_page_num, page_offset := vaddr.page_offset },heap,ll)

/-- What a search returns and leaves behind. -/
structure search_t where
  code : error_code
  hit_or_miss : Bool
  paddr : phy_addr_t
  state : state

def tlb_search (mem : mem_space) (vaddr : virt_addr_t) (paddr : phy_addr_t) (s : state) : Option search_t := do
  let (hit_or_miss,paddr,heap,ll) ← tlb_hit vaddr paddr s
  if hit_or_miss then some ⟨.ERR_NONE,hit_or_miss,paddr,s.tlb,heap,ll⟩
  else do
    let (code,paddr) ← page_walk mem vaddr paddr
    if code = .ERR_NONE then do
      let tlb_entry := (tlb_entry_init vaddr paddr).2
      let front ← ll.front
      let node ← heap.lookup front
      let tlb ← write_tlb_line s.tlb node.value tlb_entry
      let (heap,ll) ← move_back heap ll ll.front
      some ⟨.ERR_NONE,hit_or_miss,paddr,tlb,heap,ll⟩
    else some ⟨.ERR_NONE,hit_or_miss,paddr,s.tlb,heap,ll⟩

/-! ### Lines and the list of their indices -/

/-- The nodes of the list stand for lines of the table. -/
def Indices (heap : heap_t) (ps : List node_ptr) (index : node_ptr → Fin TLB_LINES) : Prop :=
  ∀ p ∈ ps, value_of heap p = some (BitVec.ofNat 32 (index p).val)

/-- A line translates the page. -/
def Translates (line : tlb_entry_t) (page_number : Nat) : Prop := line.v = 1#1 ∧ line.tag.toNat = page_number

instance (line : tlb_entry_t) (page_number : Nat) : Decidable (Translates line page_number) :=
  inferInstanceAs (Decidable (_ ∧ _))

theorem index_lt (i : Fin TLB_LINES) : (BitVec.ofNat 32 i.val).toNat = i.val := by
  have small : i.val < 128 := i.isLt
  rw [BitVec.toNat_ofNat]
  omega

theorem tlb_line_index (tlb : tlb_t) (i : Fin TLB_LINES) : tlb_line tlb (BitVec.ofNat 32 i.val) = some (tlb i) := by
  have same := index_lt i
  simp only [tlb_line,same,i.isLt,↓reduceDIte]

theorem write_tlb_line_index (tlb : tlb_t) (i : Fin TLB_LINES) (entry : tlb_entry_t) :
    write_tlb_line tlb (BitVec.ofNat 32 i.val) entry = some (Function.update tlb i entry) := by
  have same := index_lt i
  simp only [write_tlb_line,same,i.isLt,↓reduceDIte]

/-- The comparison of `tlb_hit` in terms of page numbers. -/
theorem compare_correct (line : tlb_entry_t) (vaddr : virt_addr_t) :
    (line.tag.setWidth 64 = virt_addr_t_to_virtual_page_number vaddr ∧ line.v = 1#1) ↔ Translates line (page vaddr) := by
  have widen : (line.tag.setWidth 64).toNat = line.tag.toNat := Bits.toNat_widen _ (by decide)
  have compared : line.tag.setWidth 64 = virt_addr_t_to_virtual_page_number vaddr ↔ line.tag.toNat = page vaddr := by
    rw [← BitVec.toNat_inj,widen,virtual_page_number_correct]
  rw [compared,Translates,and_comm]

theorem tlb_entry_init_correct (vaddr : virt_addr_t) (paddr : phy_addr_t) :
    (tlb_entry_init vaddr paddr).2.phy_page_num = paddr.phy_page_num ∧
      Translates (tlb_entry_init vaddr paddr).2 (page vaddr) := by
  have small := page_lt vaddr
  refine ⟨rfl,rfl,?_⟩
  rw [tlb_entry_init,BitVec.toNat_setWidth,virtual_page_number_correct]
  exact Nat.mod_eq_of_lt small

/-- The loop finds the last node whose line translates the page. -/
theorem hit_node_correct {heap : heap_t} {this : list_t} {index : node_ptr → Fin TLB_LINES} (tlb : tlb_t)
    (vaddr : virt_addr_t) : ∀ (as bs : List node_ptr) (steps : Nat), IsList heap this (as ++ bs) →
      Indices heap as index → as.length ≤ steps →
      hit_node heap tlb (virt_addr_t_to_virtual_page_number vaddr) steps as.getLast? =
        some (as.reverse.find? (fun p => Translates (tlb (index p)) (page vaddr))) := by
  intro as
  induction as using List.reverseRecOn with
  | nil =>
    intro bs steps _ _ _
    cases steps with
    | zero => rfl
    | succ steps => rfl
  | append_singleton as p ih =>
    intro bs steps list indices enough
    obtain ⟨steps,rfl⟩ : ∃ m, steps = m + 1 := ⟨steps - 1,by simp at enough; omega⟩
    rw [List.append_assoc] at list
    obtain ⟨value,found⟩ := list.node_at
    have stored := indices p (by simp)
    have valueIs : value = BitVec.ofNat 32 (index p).val := by simpa [value_of,found] using stored
    subst valueIs
    have rest := ih (p :: bs) steps list (fun q member => indices q (List.mem_append_left _ member))
      (by simpa using enough)
    rw [List.getLast?_concat,List.reverse_concat]
    by_cases translates : Translates (tlb (index p)) (page vaddr)
    · have compared := (compare_correct _ _).mpr translates
      simp [hit_node,found,tlb_line_index,compared,translates]
    · have compared := mt (compare_correct _ _).mp translates
      simp [hit_node,found,tlb_line_index,compared,translates,rest]

/-- A lookup in a well-formed table: a miss leaves everything, a hit moves the node found to the back. -/
theorem tlb_hit_correct {s : state} {ps : List node_ptr} {index : node_ptr → Fin TLB_LINES}
    (list : IsList s.heap s.ll ps) (indices : Indices s.heap ps index) (vaddr : virt_addr_t) (paddr : phy_addr_t) :
    tlb_hit vaddr paddr s = match ps.reverse.find? (fun p => Translates (s.tlb (index p)) (page vaddr)) with
      | none => some (false,paddr,s.heap,s.ll)
      | some p => (move_back s.heap s.ll (some p)).map (fun moved =>
          (true,⟨(s.tlb (index p)).phy_page_num,vaddr.page_offset⟩,moved.1,moved.2)) := by
  have whole : IsList s.heap s.ll (ps ++ []) := by rwa [List.append_nil]
  have searched := hit_node_correct s.tlb vaddr ps [] s.heap.keys.card whole indices list.length_le_nodes
  rw [← list.back_eq] at searched
  cases found : ps.reverse.find? (fun p => Translates (s.tlb (index p)) (page vaddr)) with
  | none =>
    rw [found] at searched
    simp [tlb_hit,searched]
  | some p =>
    rw [found] at searched
    have member : p ∈ ps := List.mem_reverse.mp (List.mem_of_find?_eq_some found)
    have stored := indices p member
    obtain ⟨node,present,valueIs⟩ := Option.map_eq_some_iff.mp stored
    simp only [tlb_hit,searched,present,valueIs,tlb_line_index,Option.bind_eq_bind,Option.bind_some]
    cases move_back s.heap s.ll (some p) with
    | none => rfl
    | some moved => rfl

end CacheEmulator.Tlb
