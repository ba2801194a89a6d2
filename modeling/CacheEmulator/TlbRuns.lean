import CacheEmulator.Machine
import CacheEmulator.Recency
import CacheEmulator.Tlb
import Mathlib.Data.Fintype.Card

/-!
Runs of searches in the fully associative TLB. The replacement list holds the
lines not yet used and behind them the lines of the most recent pages, the
oldest first.
-/
namespace CacheEmulator.TlbRuns
open CacheEmulator.Error CacheEmulator.Memory CacheEmulator.Addr CacheEmulator.PageWalk CacheEmulator.LinkedList
open CacheEmulator.Tlb CacheEmulator.Recency
open CacheEmulator.Machine (run Answers)

/-- The page number a line is tagged with. -/
def tag_of (s : state) (index : node_ptr → Fin TLB_LINES) (p : node_ptr) : Nat := (s.tlb (index p)).tag.toNat

/-- The lines of `used` translate the most recent pages of the history, in order. -/
structure Recent (mem : mem_space) (index : node_ptr → Fin TLB_LINES) (history : List Nat) (s : state)
    (free used : List node_ptr) : Prop where
  list : IsList s.heap s.ll (free ++ used)
  indices : Indices s.heap (free ++ used) index
  distinct : ((free ++ used).map index).Nodup
  total : (free ++ used).length = TLB_LINES
  unused : ∀ p ∈ free, (s.tlb (index p)).v = 0#1
  valid : ∀ p ∈ used, (s.tlb (index p)).v = 1#1
  frames : ∀ p ∈ used, ∀ vaddr, page vaddr = tag_of s index p → frame mem vaddr = some (s.tlb (index p)).phy_page_num
  recent : used.map (tag_of s index) = mostRecent TLB_LINES history

variable {mem : mem_space} {index : node_ptr → Fin TLB_LINES} {history : List Nat} {s : state}
  {free used : List node_ptr}

/-- The search from the back finds the line of a recent page, and nothing for another page. -/
theorem found_iff (inv : Recent mem index history s free used) (page_number : Nat) :
    ((free ++ used).reverse.find? (fun p => Translates (s.tlb (index p)) page_number)).isSome ↔
      page_number ∈ mostRecent TLB_LINES history := by
  rw [List.find?_isSome,← inv.recent,List.mem_map]
  constructor
  · rintro ⟨p,member,translates⟩
    rw [decide_eq_true_eq] at translates
    rcases List.mem_append.mp (List.mem_reverse.mp member) with inFree | inUsed
    · have invalid := inv.unused p inFree
      have contradiction := invalid.symm.trans translates.1
      exact absurd contradiction (by decide)
    · exact ⟨p,inUsed,translates.2⟩
  · rintro ⟨p,inUsed,tagged⟩
    refine ⟨p,List.mem_reverse.mpr (List.mem_append_right _ inUsed),?_⟩
    rw [decide_eq_true_eq]
    exact ⟨inv.valid p inUsed,tagged⟩

theorem found_used (inv : Recent mem index history s free used) {page_number : Nat} {p : node_ptr}
    (found : (free ++ used).reverse.find? (fun p => Translates (s.tlb (index p)) page_number) = some p) :
    p ∈ used ∧ Translates (s.tlb (index p)) page_number := by
  have translates := List.find?_some found
  rw [decide_eq_true_eq] at translates
  refine ⟨?_,translates⟩
  rcases List.mem_append.mp (List.mem_reverse.mp (List.mem_of_find?_eq_some found)) with inFree | inUsed
  · have contradiction := (inv.unused p inFree).symm.trans translates.1
    exact absurd contradiction (by decide)
  · exact inUsed

/-- A new order of the same nodes, with the values they had, stands for the same lines. -/
theorem reordered (inv : Recent mem index history s free used) {order : List node_ptr} {heap : heap_t}
    (perm : order.Perm (free ++ used)) (values : value_of heap = value_of s.heap) :
    Indices heap order index ∧ (order.map index).Nodup ∧ order.length = TLB_LINES := by
  refine ⟨?_,(perm.map index).nodup_iff.mpr inv.distinct,perm.length_eq.trans inv.total⟩
  intro q member
  rw [values]
  exact inv.indices q (perm.mem_iff.mp member)

/-- After a hit the line found is the last one. -/
theorem hit_restores {before behind : List node_ptr} {p : node_ptr} {heap : heap_t} {ll : list_t} {page_number : Nat}
    (inv : Recent mem index history s free (before ++ p :: behind)) (tagged : tag_of s index p = page_number)
    (moved : IsList heap ll (free ++ before ++ behind ++ [p])) (values : value_of heap = value_of s.heap) :
    Recent mem index (history ++ [page_number]) ⟨s.tlb,heap,ll⟩ free (before ++ behind ++ [p]) := by
  have perm : (before ++ behind ++ [p]).Perm (before ++ p :: behind) :=
    (List.perm_append_singleton p (before ++ behind)).trans List.perm_middle.symm
  obtain ⟨indices,distinct,total⟩ := reordered inv (List.Perm.append_left free perm) values
  refine ⟨?_,indices,distinct,total,inv.unused,?_,?_,?_⟩
  · rwa [← List.append_assoc,← List.append_assoc]
  · intro q member
    exact inv.valid q (perm.mem_iff.mp member)
  · intro q member
    exact inv.frames q (perm.mem_iff.mp member)
  · have recent := inv.recent
    rw [List.map_append,List.map_cons,tagged] at recent
    have once : page_number ∉ before.map (tag_of s index) := by
      have nodup := mostRecent_nodup TLB_LINES history
      rw [← recent] at nodup
      intro member
      exact (List.nodup_append.mp nodup).2.2 _ member _ List.mem_cons_self rfl
    have held : page_number ∈ mostRecent TLB_LINES history := by
      rw [← recent]
      exact List.mem_append_right _ List.mem_cons_self
    rw [mostRecent_concat history page_number (by decide),touch,if_pos held,← recent,
      List.erase_append_right _ once,List.erase_cons_head]
    simp only [List.map_append,List.map_singleton]
    exact congrArg₂ (· ++ ·) rfl (congrArg (fun k => [k]) tagged)

/-- The front of the list is a line not yet used, or else that of the oldest page. -/
theorem oldest_first (inv : Recent mem index history s free used) {page_number : Nat}
    (missing : page_number ∉ mostRecent TLB_LINES history) :
    ∃ p free' used', free ++ used = p :: (free' ++ used') ∧ (∀ q ∈ free', q ∈ free) ∧ (∀ q ∈ used', q ∈ used) ∧
      used'.map (tag_of s index) ++ [page_number] = mostRecent TLB_LINES (history ++ [page_number]) := by
  have step : mostRecent TLB_LINES (history ++ [page_number]) =
      if used.length < TLB_LINES then used.map (tag_of s index) ++ [page_number]
      else (used.map (tag_of s index)).tail ++ [page_number] := by
    rw [mostRecent_concat history page_number (by decide),touch,if_neg missing,← inv.recent,List.length_map]
  have total := inv.total
  rw [List.length_append] at total
  cases free with
  | cons p free' =>
    refine ⟨p,free',used,rfl,fun q member => List.mem_cons_of_mem p member,fun q member => member,?_⟩
    have room : used.length < TLB_LINES := by
      rw [List.length_cons] at total
      omega
    rw [step,if_pos room]
  | nil =>
    cases used with
    | nil => exact absurd total (by decide)
    | cons p used' =>
      refine ⟨p,[],used',rfl,fun q member => member,fun q member => List.mem_cons_of_mem p member,?_⟩
      have full : ¬ (p :: used').length < TLB_LINES := by
        rw [List.length_nil] at total
        omega
      rw [step,if_neg full,List.map_cons,List.tail_cons]

/-- After a miss the line at the front is filled and becomes the last one. -/
theorem miss_restores {free' used' : List node_ptr} {p : node_ptr} {after : state} {page_number : Nat}
    (inv : Recent mem index history s free used) (order : free ++ used = p :: (free' ++ used'))
    (stillFree : ∀ q ∈ free', q ∈ free) (stillUsed : ∀ q ∈ used', q ∈ used)
    (recent : used'.map (tag_of s index) ++ [page_number] = mostRecent TLB_LINES (history ++ [page_number]))
    (filled : Translates (after.tlb (index p)) page_number)
    (walked : ∀ vaddr, page vaddr = page_number → frame mem vaddr = some (after.tlb (index p)).phy_page_num)
    (otherLines : ∀ i, i ≠ index p → after.tlb i = s.tlb i)
    (moved : IsList after.heap after.ll (free' ++ used' ++ [p])) (values : value_of after.heap = value_of s.heap) :
    Recent mem index (history ++ [page_number]) after free' (used' ++ [p]) := by
  have whole : (free' ++ (used' ++ [p])).Perm (free ++ used) := by
    rw [order,← List.append_assoc]
    exact List.perm_append_singleton p (free' ++ used')
  have other : ∀ q, q ∈ free' ++ used' → after.tlb (index q) = s.tlb (index q) := by
    have distinct := inv.distinct
    rw [order,List.map_cons,List.nodup_cons] at distinct
    intro q member
    exact otherLines _ (fun same => distinct.1 (same ▸ List.mem_map_of_mem member))
  obtain ⟨indices,distinct,total⟩ := reordered inv whole values
  refine ⟨by rwa [← List.append_assoc],indices,distinct,total,?_,?_,?_,?_⟩
  · intro q member
    rw [other q (List.mem_append_left _ member)]
    exact inv.unused q (stillFree q member)
  · intro q member
    rcases List.mem_append.mp member with old | new
    · rw [other q (List.mem_append_right _ old)]
      exact inv.valid q (stillUsed q old)
    · rw [List.mem_singleton.mp new]
      exact filled.1
  · intro q member vaddr
    rcases List.mem_append.mp member with old | new
    · simp only [tag_of,other q (List.mem_append_right _ old)]
      exact inv.frames q (stillUsed q old) vaddr
    · rw [List.mem_singleton.mp new]
      simp only [tag_of,filled.2]
      exact walked vaddr
  · rw [← recent,List.map_append,List.map_singleton]
    refine congrArg₂ (· ++ ·) (List.map_congr_left ?_) ?_
    · intro q member
      rw [tag_of,tag_of,other q (List.mem_append_right _ member)]
    · rw [tag_of,filled.2]

/-- One search hits on the recent pages, translates as the page walk does and restores the invariant. -/
theorem tlb_search_total (inv : Recent mem index history s free used) (vaddr : virt_addr_t) (paddr : phy_addr_t)
    (inside : (page_walk mem vaddr paddr).isSome) :
    ∃ r, tlb_search mem vaddr paddr s = some r ∧ r.code = .ERR_NONE ∧
      (r.hit_or_miss = true ↔ page vaddr ∈ mostRecent TLB_LINES history) ∧
      page_walk mem vaddr paddr = some (.ERR_NONE,r.paddr) ∧
      ∃ free' used', Recent mem index (history ++ [page vaddr]) r.state free' used' := by
  have isRecent := found_iff inv (page vaddr)
  have looked := tlb_hit_correct inv.list inv.indices vaddr paddr
  cases found : (free ++ used).reverse.find? (fun p => Translates (s.tlb (index p)) (page vaddr)) with
  | some p =>
    obtain ⟨member,translates⟩ := found_used inv found
    obtain ⟨before,behind,rfl⟩ := List.append_of_mem member
    have list := inv.list
    rw [← List.append_assoc] at list
    obtain ⟨heap,ll,moved,relisted,values⟩ := move_back_total list
    have walked := inv.frames p member vaddr translates.2.symm
    rw [found] at looked isRecent
    simp only [moved,Option.map_some] at looked
    refine ⟨⟨.ERR_NONE,true,⟨(s.tlb (index p)).phy_page_num,vaddr.page_offset⟩,s.tlb,heap,ll⟩,?_,rfl,?_,?_,?_⟩
    · simp [tlb_search,looked]
    · simpa using isRecent
    · rw [page_walk_correct,walked,Option.map_some]
    · exact ⟨free,before ++ behind ++ [p],hit_restores inv translates.2 relisted values⟩
  | none =>
    rw [found] at looked isRecent
    simp only [Option.isSome_none,Bool.false_eq_true,false_iff] at isRecent
    rw [page_walk_isSome] at inside
    obtain ⟨f,walked⟩ := Option.isSome_iff_exists.mp inside
    obtain ⟨p,free',used',order,stillFree,stillUsed,recent⟩ := oldest_first inv isRecent
    have list : IsList s.heap s.ll ([] ++ p :: (free' ++ used')) := by
      rw [List.nil_append,← order]
      exact inv.list
    have frontIs : s.ll.front = some p := list.front_eq
    have stored := inv.indices p (by rw [order]; exact List.mem_cons_self)
    obtain ⟨node,present,valueIs⟩ := Option.map_eq_some_iff.mp stored
    obtain ⟨heap,ll,moved,relisted,values⟩ := move_back_total list
    have walk : page_walk mem vaddr paddr = some (.ERR_NONE,⟨f,vaddr.page_offset⟩) := by
      rw [page_walk_correct,walked,Option.map_some]
    obtain ⟨sameFrame,translates⟩ := tlb_entry_init_correct vaddr ⟨f,vaddr.page_offset⟩
    refine ⟨⟨.ERR_NONE,false,⟨f,vaddr.page_offset⟩,
      Function.update s.tlb (index p) (tlb_entry_init vaddr ⟨f,vaddr.page_offset⟩).2,heap,ll⟩,?_,rfl,?_,walk,?_⟩
    · simp [tlb_search,looked,walk,frontIs,present,valueIs,write_tlb_line_index,moved]
    · simpa using isRecent
    · have filled : Function.update s.tlb (index p) (tlb_entry_init vaddr ⟨f,vaddr.page_offset⟩).2 (index p) =
          (tlb_entry_init vaddr ⟨f,vaddr.page_offset⟩).2 := Function.update_self _ _ _
      refine ⟨free',used' ++ [p],miss_restores inv order stillFree stillUsed recent ?_ ?_ ?_ relisted values⟩
      · dsimp only
        rw [filled]
        exact translates
      · intro other same
        dsimp only
        rw [frame_of_page mem same,walked,filled,sameFrame]
      · intro i different
        exact Function.update_of_ne different _ _

/-- A search that is defined read its page-table entries inside the memory. -/
theorem tlb_search_inside (inv : Recent mem index history s free used) {vaddr : virt_addr_t} {paddr : phy_addr_t}
    {r : search_t} (searched : tlb_search mem vaddr paddr s = some r) : (page_walk mem vaddr paddr).isSome := by
  have looked := tlb_hit_correct inv.list inv.indices vaddr paddr
  cases found : (free ++ used).reverse.find? (fun p => Translates (s.tlb (index p)) (page vaddr)) with
  | some p =>
    obtain ⟨member,translates⟩ := found_used inv found
    rw [page_walk_isSome,inv.frames p member vaddr translates.2.symm,Option.isSome_some]
  | none =>
    rw [found] at looked
    simp only [tlb_search,looked,Option.bind_eq_bind,Option.bind_some,Bool.false_eq_true,↓reduceIte] at searched
    cases walked : page_walk mem vaddr paddr with
    | none => simp [walked] at searched
    | some answer => rfl

/-! ### Whole runs -/

/-- One request, with what the caller's address held before. -/
structure call where
  vaddr : virt_addr_t
  paddr : phy_addr_t

def search (mem : mem_space) (s : state) (c : call) : Option (search_t × state) :=
  (tlb_search mem c.vaddr c.paddr s).map (fun r => (r,r.state))

/-- Calls whose page walks stay inside the memory. -/
def Inside (mem : mem_space) (calls : List call) : Prop := ∀ c ∈ calls, (page_walk mem c.vaddr c.paddr).isSome

/-- The page numbers that were searched. -/
def pages (calls : List call) : List Nat := calls.map (fun c => page c.vaddr)

/-- A flushed table and a replacement list that holds the line indices in order. -/
structure Initial (s : state) (ps : List node_ptr) : Prop where
  flushed : s.tlb = tlb_flush.2
  list : IsList s.heap s.ll ps
  values : ps.map (value_of s.heap) = (List.range TLB_LINES).map (fun i => some (BitVec.ofNat 32 i))

/-- The invariant of a run, for some order of the lines. -/
def Reached (mem : mem_space) (index : node_ptr → Fin TLB_LINES) (before : List call) (s : state) : Prop :=
  ∃ free used, Recent mem index (pages before) s free used

/-- The line index that a node of the list holds. -/
def index_in (heap : heap_t) (p : node_ptr) : Fin TLB_LINES :=
  ⟨((value_of heap p).getD 0).toNat % TLB_LINES,Nat.mod_lt _ (by decide)⟩

theorem range_value {i : Nat} (inside : i ∈ List.range TLB_LINES) : (BitVec.ofNat 32 i).toNat % TLB_LINES = i := by
  have small : i < 128 := List.mem_range.mp inside
  rw [index_lt ⟨i,small⟩]
  exact Nat.mod_eq_of_lt small

theorem initial_indices {ps : List node_ptr} (initial : Initial s ps) : Indices s.heap ps (index_in s.heap) := by
  intro p member
  have stored : value_of s.heap p ∈ (List.range TLB_LINES).map (fun i => some (BitVec.ofNat 32 i)) := by
    rw [← initial.values]
    exact List.mem_map_of_mem member
  obtain ⟨i,inside,same⟩ := List.mem_map.mp stored
  have indexIs : (index_in s.heap p).val = i := by
    simp only [index_in,← same,Option.getD_some]
    exact range_value inside
  rw [← same,indexIs]

theorem initial_order {ps : List node_ptr} (initial : Initial s ps) :
    (ps.map (index_in s.heap)).map Fin.val = List.range TLB_LINES := by
  have same := congrArg (List.map (fun v : Option list_content_t => (v.getD 0).toNat % TLB_LINES)) initial.values
  rw [List.map_map,List.map_map] at same
  rw [List.map_map]
  refine same.trans ((List.map_congr_left ?_).trans (List.map_id _))
  intro i inside
  exact range_value inside

theorem initial_recent {ps : List node_ptr} (initial : Initial s ps) (mem : mem_space) :
    Recent mem (index_in s.heap) [] s ps [] := by
  have order := initial_order initial
  have lengths := congrArg List.length order
  rw [List.length_map,List.length_map,List.length_range] at lengths
  refine ⟨?_,?_,?_,?_,?_,?_,?_,?_⟩
  · rw [List.append_nil]; exact initial.list
  · rw [List.append_nil]; exact initial_indices initial
  · rw [List.append_nil]
    refine List.Nodup.of_map Fin.val ?_
    rw [order]
    exact List.nodup_range
  · rw [List.append_nil]; exact lengths
  · intro p _
    rw [initial.flushed]
    rfl
  · intro p member; exact absurd member List.not_mem_nil
  · intro p member; exact absurd member List.not_mem_nil
  · rw [mostRecent_nil,List.map_nil]

theorem pages_concat (before : List call) (c : call) : pages (before ++ [c]) = pages before ++ [page c.vaddr] := by
  rw [pages,List.map_append,List.map_singleton,pages]

/-- What a call has to answer after those before it. -/
def Answered (mem : mem_space) (before : List call) (c : call) (r : search_t) : Prop :=
  r.code = .ERR_NONE ∧ (r.hit_or_miss = true ↔ page c.vaddr ∈ mostRecent TLB_LINES (pages before)) ∧
    page_walk mem c.vaddr c.paddr = some (.ERR_NONE,r.paddr)

theorem search_kept {before : List call} {c : call} {r : search_t} {next : state}
    (reached : Reached mem index before s) (searched : search mem s c = some (r,next)) :
    Reached mem index (before ++ [c]) next ∧ Answered mem before c r := by
  obtain ⟨free,used,inv⟩ := reached
  obtain ⟨answer,defined,same⟩ := Option.map_eq_some_iff.mp searched
  obtain ⟨rfl,rfl⟩ := Prod.mk.inj same
  obtain ⟨r,again,code,hit,walked,restored⟩ := tlb_search_total inv c.vaddr c.paddr (tlb_search_inside inv defined)
  obtain rfl : answer = r := Option.some.inj (defined.symm.trans again)
  refine ⟨?_,code,hit,walked⟩
  rw [Reached,pages_concat]
  exact restored

theorem run_defined {ps : List node_ptr} (initial : Initial s ps) {calls : List call} (inside : Inside mem calls) :
    ∃ results last, run (search mem) s calls = some (results,last) := by
  have total : ∀ (before : List call) (s' : state) (c : call), Reached mem (index_in s.heap) before s' →
      (page_walk mem c.vaddr c.paddr).isSome →
      ∃ r next, search mem s' c = some (r,next) ∧ Reached mem (index_in s.heap) (before ++ [c]) next ∧
        Answered mem before c r := by
    rintro before s' c ⟨free,used,inv⟩ walks
    obtain ⟨r,searched,_⟩ := tlb_search_total inv c.vaddr c.paddr walks
    have defined : search mem s' c = some (r,r.state) := by rw [search,searched,Option.map_some]
    exact ⟨r,r.state,defined,search_kept ⟨free,used,inv⟩ defined⟩
  obtain ⟨results,last,ran,_⟩ :=
    Machine.run_answers total calls [] s ⟨ps,[],initial_recent initial mem⟩ inside
  exact ⟨results,last,ran⟩

/-- What every defined run keeps and answers. -/
theorem run_kept {ps : List node_ptr} (initial : Initial s ps) {calls : List call} {results : List search_t}
    {last : state} (ran : run (search mem) s calls = some (results,last)) :
    Reached mem (index_in s.heap) calls last ∧ Answers (Answered mem) [] calls results :=
  Machine.run_keeps (fun _ _ _ _ _ reached => search_kept reached) calls [] s last results
    (⟨ps,[],initial_recent initial mem⟩ : Reached mem (index_in s.heap) [] s) ran

/-! ### The initial list -/

/-- The loop that fills the replacement list, with the pointers the allocator gives. -/
def fill_lines (allocated : Nat → node_ptr) : Nat → Option (heap_t × list_t)
  | 0 => some (∅,init_list)
  | lines + 1 => do
    let (heap,ll) ← fill_lines allocated lines
    let (heap,ll,_) ← push_back heap ll (some (allocated lines)) (BitVec.ofNat 32 lines)
    some (heap,ll)

theorem fill_lines_total {allocated : Nat → node_ptr} (fresh : Function.Injective allocated) (lines : Nat) :
    ∃ heap ll, fill_lines allocated lines = some (heap,ll) ∧ IsList heap ll ((List.range lines).map allocated) ∧
      (∀ p, p ∈ heap ↔ ∃ i < lines, p = allocated i) ∧
      ∀ i < lines, value_of heap (allocated i) = some (BitVec.ofNat 32 i) := by
  induction lines with
  | zero => exact ⟨∅,init_list,rfl,init_list_empty ∅,by simp [Finmap.notMem_empty],by simp⟩
  | succ lines ih =>
    obtain ⟨heap,ll,filled,list,nodes,values⟩ := ih
    have new : allocated lines ∉ heap := by
      rw [nodes]
      rintro ⟨i,earlier,same⟩
      have := fresh same
      omega
    obtain ⟨heap',ll',pushed,grown,valuesAfter⟩ := push_back_total (BitVec.ofNat 32 lines) list new
    refine ⟨heap',ll',?_,?_,?_,?_⟩
    · simp [fill_lines,filled,pushed]
    · rwa [List.range_succ,List.map_append,List.map_singleton]
    · intro p
      rw [alive_value,valuesAfter,Function.update_apply]
      by_cases last : p = allocated lines
      · simp only [last,↓reduceIte,Option.isSome_some,true_iff]
        exact ⟨lines,by omega,rfl⟩
      · rw [if_neg last,← alive_value,nodes]
        constructor
        · rintro ⟨i,earlier,same⟩
          exact ⟨i,by omega,same⟩
        · rintro ⟨i,inside,rfl⟩
          have notLast : i ≠ lines := fun same => last (same ▸ rfl)
          exact ⟨i,by omega,rfl⟩
    · intro i inside
      rw [valuesAfter,Function.update_apply]
      by_cases last : i = lines
      · rw [last,if_pos rfl]
      · rw [if_neg (fun same => last (fresh same)),values i (by omega)]

/-- The program starts in an initial state, wherever the nodes lie. -/
theorem start_initial {allocated : Nat → node_ptr} (fresh : Function.Injective allocated) :
    ∃ heap ll, fill_lines allocated TLB_LINES = some (heap,ll) ∧
      Initial ⟨tlb_flush.2,heap,ll⟩ ((List.range TLB_LINES).map allocated) := by
  obtain ⟨heap,ll,filled,list,_,values⟩ := fill_lines_total fresh TLB_LINES
  refine ⟨heap,ll,filled,rfl,list,?_⟩
  rw [List.map_map]
  refine List.map_congr_left ?_
  intro i inside
  exact values i (List.mem_range.mp inside)

/-- Page 0 twice: a miss and a hit. -/
def zero_calls : List call := [⟨⟨0,0,0,0,0,0⟩,⟨0,0⟩⟩,⟨⟨0,0,0,0,0,1⟩,⟨0,0⟩⟩]

theorem zero_calls_inside : Inside zero_mem zero_calls := by
  unfold Inside
  decide

/-! ### Hits and translations -/

/-- The TLB is least recently used replacement of 128 lines: a call hits exactly
    on the 128 most recent distinct pages of the calls before it. -/
theorem tlb_least_recently_used (mem : mem_space) (s : state) (ps : List node_ptr) (initial : Initial s ps)
    (calls : List call) :
    (Inside mem calls → ∃ results last, run (search mem) s calls = some (results,last)) ∧
      ∀ results last, run (search mem) s calls = some (results,last) → results.length = calls.length ∧
        ∀ (k : Nat) (c : call) (r : search_t), calls[k]? = some c → results[k]? = some r →
          (r.hit_or_miss = true ↔ page c.vaddr ∈ mostRecent TLB_LINES (pages (calls.take k))) := by
  refine ⟨run_defined initial,?_⟩
  intro results last ran
  obtain ⟨_,answers⟩ := run_kept initial ran
  obtain ⟨lengths,positions⟩ := Machine.answers_get answers
  refine ⟨lengths,?_⟩
  intro k c r call result
  exact (positions k c r call result).2.1

theorem tlb_least_recently_used_zero : ∃ heap ll, fill_lines id TLB_LINES = some (heap,ll) ∧
    ∃ results last, run (search zero_mem) ⟨tlb_flush.2,heap,ll⟩ zero_calls = some (results,last) ∧
      results.length = zero_calls.length ∧
        ∀ (k : Nat) (c : call) (r : search_t), zero_calls[k]? = some c → results[k]? = some r →
          (r.hit_or_miss = true ↔ page c.vaddr ∈ mostRecent TLB_LINES (pages (zero_calls.take k))) := by
  obtain ⟨heap,ll,filled,initial⟩ := start_initial Function.injective_id
  have correct := tlb_least_recently_used zero_mem _ _ initial zero_calls
  obtain ⟨results,last,ran⟩ := correct.1 zero_calls_inside
  exact ⟨heap,ll,filled,results,last,ran,correct.2 results last ran⟩

/-- The TLB is transparent: each call of a run delivers the translation of the page walk. -/
theorem tlb_transparent (mem : mem_space) (s : state) (ps : List node_ptr) (initial : Initial s ps) (calls : List call)
    (inside : Inside mem calls) :
    ∃ results last, run (search mem) s calls = some (results,last) ∧ results.length = calls.length ∧
      ∀ (k : Nat) (c : call) (r : search_t), calls[k]? = some c → results[k]? = some r →
        r.code = .ERR_NONE ∧ page_walk mem c.vaddr c.paddr = some (.ERR_NONE,r.paddr) := by
  obtain ⟨results,last,ran⟩ := run_defined initial inside
  obtain ⟨_,answers⟩ := run_kept initial ran
  obtain ⟨lengths,positions⟩ := Machine.answers_get answers
  refine ⟨results,last,ran,lengths,?_⟩
  intro k c r call result
  obtain ⟨code,_,walked⟩ := positions k c r call result
  exact ⟨code,walked⟩

theorem tlb_transparent_zero : ∃ heap ll, fill_lines id TLB_LINES = some (heap,ll) ∧
    ∃ results last, run (search zero_mem) ⟨tlb_flush.2,heap,ll⟩ zero_calls = some (results,last) ∧
      results.length = zero_calls.length ∧
        ∀ (k : Nat) (c : call) (r : search_t), zero_calls[k]? = some c → results[k]? = some r →
          r.code = .ERR_NONE ∧ page_walk zero_mem c.vaddr c.paddr = some (.ERR_NONE,r.paddr) := by
  obtain ⟨heap,ll,filled,initial⟩ := start_initial Function.injective_id
  exact ⟨heap,ll,filled,tlb_transparent zero_mem _ _ initial zero_calls zero_calls_inside⟩

/-! ### The list and the tags in reachable states -/

/-- The nodes of the list stand for all the lines. -/
theorem line_in_list (inv : Recent mem index history s free used) (i : Fin TLB_LINES) :
    ∃ p ∈ free ++ used, index p = i := by
  have all : (Finset.univ : Finset (Fin TLB_LINES)) ⊆ ((free ++ used).map index).toFinset := by
    refine (Finset.eq_of_subset_of_card_le (Finset.subset_univ _) ?_).symm.subset
    rw [List.toFinset_card_of_nodup inv.distinct,List.length_map,inv.total,Finset.card_univ,Fintype.card_fin]
  obtain ⟨p,member,same⟩ := List.mem_map.mp (List.mem_toFinset.mp (all (Finset.mem_univ i)))
  exact ⟨p,member,same⟩

theorem values_perm (inv : Recent mem index history s free used) :
    ((free ++ used).map (value_of s.heap)).Perm ((List.range TLB_LINES).map (fun i => some (BitVec.ofNat 32 i))) := by
  have lines : ((free ++ used).map index).Perm (List.finRange TLB_LINES) := by
    refine (List.perm_ext_iff_of_nodup inv.distinct (List.nodup_finRange _)).mpr ?_
    intro i
    obtain ⟨p,member,same⟩ := line_in_list inv i
    exact ⟨fun _ => List.mem_finRange i,fun _ => same ▸ List.mem_map_of_mem member⟩
  have stored : (free ++ used).map (value_of s.heap) =
      ((free ++ used).map index).map (fun i => some (BitVec.ofNat 32 i.val)) := by
    rw [List.map_map]
    exact List.map_congr_left inv.indices
  have range : (List.range TLB_LINES).map (fun i => some (BitVec.ofNat 32 i)) =
      (List.finRange TLB_LINES).map (fun i => some (BitVec.ofNat 32 i.val)) := by
    rw [← List.map_coe_finRange_eq_range,List.map_map]
    rfl
  rw [stored,range]
  exact lines.map _

/-- Valid lines are the ones in use, whose tags are distinct recent pages. -/
theorem tags_distinct (inv : Recent mem index history s free used) {i j : Fin TLB_LINES} (validI : (s.tlb i).v = 1#1)
    (validJ : (s.tlb j).v = 1#1) (same : (s.tlb i).tag = (s.tlb j).tag) : i = j := by
  have inUse : ∀ k, (s.tlb k).v = 1#1 → ∃ p ∈ used, index p = k := by
    intro k valid
    obtain ⟨p,member,rfl⟩ := line_in_list inv k
    rcases List.mem_append.mp member with inFree | inUsed
    · exact absurd ((inv.unused p inFree).symm.trans valid) (by decide)
    · exact ⟨p,inUsed,rfl⟩
  obtain ⟨p,usedP,rfl⟩ := inUse i validI
  obtain ⟨q,usedQ,rfl⟩ := inUse j validJ
  have distinct : (used.map (tag_of s index)).Nodup := by
    rw [inv.recent]
    exact mostRecent_nodup _ _
  have tags : tag_of s index p = tag_of s index q := congrArg BitVec.toNat same
  rw [List.inj_on_of_nodup_map distinct usedP usedQ tags]

/-- In every state that a run reaches, the list is a permutation of the line
    numbers both ways, and no tag is valid twice. -/
theorem list_permuted_tags_distinct (mem : mem_space) (s : state) (ps : List node_ptr) (initial : Initial s ps)
    (calls : List call) (results : List search_t) (last : state) (ran : run (search mem) s calls = some (results,last)) :
    (∃ order, for_all_nodes last.heap last.ll = some order ∧ for_all_nodes_reverse last.heap last.ll = some order.reverse ∧
      (order.map (value_of last.heap)).Perm ((List.range TLB_LINES).map (fun i => some (BitVec.ofNat 32 i)))) ∧
    ∀ i j, (last.tlb i).v = 1#1 → (last.tlb j).v = 1#1 → (last.tlb i).tag = (last.tlb j).tag → i = j := by
  obtain ⟨⟨free,used,inv⟩,_⟩ := run_kept initial ran
  obtain ⟨forward,backward⟩ := inv.list.for_all_nodes_eq
  exact ⟨⟨free ++ used,forward,backward,values_perm inv⟩,fun i j => tags_distinct inv⟩

theorem list_permuted_tags_distinct_zero : ∃ heap ll, fill_lines id TLB_LINES = some (heap,ll) ∧
    ∃ results last, run (search zero_mem) ⟨tlb_flush.2,heap,ll⟩ zero_calls = some (results,last) ∧
      (∃ order, for_all_nodes last.heap last.ll = some order ∧
        for_all_nodes_reverse last.heap last.ll = some order.reverse ∧
        (order.map (value_of last.heap)).Perm ((List.range TLB_LINES).map (fun i => some (BitVec.ofNat 32 i)))) ∧
      ∀ i j, (last.tlb i).v = 1#1 → (last.tlb j).v = 1#1 → (last.tlb i).tag = (last.tlb j).tag → i = j := by
  obtain ⟨heap,ll,filled,initial⟩ := start_initial Function.injective_id
  obtain ⟨results,last,ran⟩ := run_defined initial zero_calls_inside
  exact ⟨heap,ll,filled,results,last,ran,list_permuted_tags_distinct zero_mem _ _ initial zero_calls results last ran⟩

end CacheEmulator.TlbRuns
