import CacheEmulator.TlbRuns

/-!
The fully associative TLB without the cells of its list: a table, and the order
in which its lines are replaced. The search of `tlb_mng.c` does on the list what
is done here on the order, wherever the allocator has put the cells.
-/
namespace CacheEmulator.TlbPlain
open CacheEmulator.Error CacheEmulator.Memory CacheEmulator.Addr CacheEmulator.PageWalk CacheEmulator.LinkedList
open CacheEmulator.Tlb CacheEmulator.Recency CacheEmulator.TlbRuns
open CacheEmulator.Machine (run Agree)

/-! ### The order of replacement -/

/-- Every line once, the next one to be replaced first. -/
structure order_t where
  lines : List (Fin TLB_LINES)
  all : lines.Perm (List.finRange TLB_LINES)

namespace order_t
variable (order : order_t)

theorem nodup : order.lines.Nodup := order.all.nodup_iff.mpr (List.nodup_finRange _)
theorem mem (i : Fin TLB_LINES) : i ∈ order.lines := order.all.mem_iff.mpr (List.mem_finRange i)
theorem ne_nil : order.lines ≠ [] := List.ne_nil_of_mem (order.mem ⟨0,Nat.zero_lt_succ _⟩)
@[ext] theorem ext {left right : order_t} (same : left.lines = right.lines) : left = right := by
  cases left; cases right
  cases same
  rfl

def oldest : Fin TLB_LINES := order.lines.head order.ne_nil

/-- The line becomes the last one to be replaced. -/
def use (i : Fin TLB_LINES) : order_t where
  lines := order.lines.erase i ++ [i]
  all := (List.perm_append_singleton i _).trans ((List.perm_cons_erase (order.mem i)).symm.trans order.all)

theorem use_of_split {before behind : List (Fin TLB_LINES)} {i : Fin TLB_LINES}
    (split : order.lines = before ++ i :: behind) : (order.use i).lines = before ++ behind ++ [i] := by
  have distinct := order.nodup
  rw [split] at distinct
  have once : i ∉ before := fun member => (List.nodup_append.mp distinct).2.2 i member i List.mem_cons_self rfl
  change order.lines.erase i ++ [i] = _
  rw [split,List.erase_append_right _ once,List.erase_cons_head]

end order_t

/-- The lines in the order of their numbers. -/
def numbered : order_t := ⟨List.finRange TLB_LINES,.refl _⟩

/-! ### The plain search -/

structure plain where
  tlb : tlb_t
  order : order_t

def start : plain := ⟨tlb_flush.2,numbered⟩

structure found where
  hit : Bool
  paddr : phy_addr_t

/-- The line that translates the page is used; when there is none the oldest line is filled. -/
def plain_search (mem : mem_space) (s : plain) (vaddr : virt_addr_t) : Option (found × plain) :=
  match s.order.lines.reverse.find? (fun i => Translates (s.tlb i) (page vaddr)) with
  | some i => some (⟨true,⟨(s.tlb i).phy_page_num,vaddr.page_offset⟩⟩,{ s with order := s.order.use i })
  | none => (frame mem vaddr).map (fun f =>
    (⟨false,⟨f,vaddr.page_offset⟩⟩,
      { tlb := Function.update s.tlb s.order.oldest { tag := BitVec.ofNat 36 (page vaddr), phy_page_num := f, v := 1#1 }
        order := s.order.use s.order.oldest }))

/-- The table is the same, and the list holds the numbers of the lines in their order. -/
structure Stands (index : node_ptr → Fin TLB_LINES) (ps : List node_ptr) (c : state) (s : plain) : Prop where
  tlb : c.tlb = s.tlb
  list : IsList c.heap c.ll ps
  indices : Indices c.heap ps index
  order : ps.map index = s.order.lines

variable {index : node_ptr → Fin TLB_LINES} {ps : List node_ptr} {c : state} {s : plain}

theorem entry_init (vaddr : virt_addr_t) (paddr : phy_addr_t) : (tlb_entry_init vaddr paddr).2 =
    { tag := BitVec.ofNat 36 (page vaddr), phy_page_num := paddr.phy_page_num, v := 1#1 } := by
  have tag : (virt_addr_t_to_virtual_page_number vaddr).setWidth 36 = BitVec.ofNat 36 (page vaddr) := by
    apply BitVec.eq_of_toNat_eq
    rw [BitVec.toNat_setWidth,virtual_page_number_correct,BitVec.toNat_ofNat]
  rw [tlb_entry_init,tag]

/-- A node of the list that is moved to the back stands for a line that is used. -/
theorem stands_use (stands : Stands index ps c s) {before behind : List node_ptr} {p : node_ptr}
    (split : ps = before ++ p :: behind) {heap : heap_t} {ll : list_t} (moved : IsList heap ll (before ++ behind ++ [p]))
    (values : value_of heap = value_of c.heap) (tlb : tlb_t) :
    Stands index (before ++ behind ++ [p]) ⟨tlb,heap,ll⟩ ⟨tlb,s.order.use (index p)⟩ := by
  have perm : (before ++ behind ++ [p]).Perm ps :=
    split ▸ (List.perm_append_singleton p (before ++ behind)).trans List.perm_middle.symm
  refine ⟨rfl,moved,?_,?_⟩
  · intro q member
    rw [values]
    exact stands.indices q (perm.mem_iff.mp member)
  · have lines : s.order.lines = before.map index ++ index p :: behind.map index := by
      rw [← stands.order,split,List.map_append,List.map_cons]
    rw [order_t.use_of_split _ lines,List.map_append,List.map_append,List.map_singleton]

/-- The search on the list and the plain search are undefined together, and
    otherwise find the same and leave the same. -/
theorem tlb_search_plain (mem : mem_space) (stands : Stands index ps c s) (vaddr : virt_addr_t) (paddr : phy_addr_t) :
    Agree (fun r after => r.code = .ERR_NONE ∧ after.1 = ⟨r.hit_or_miss,r.paddr⟩ ∧ ∃ ps', Stands index ps' r.state after.2)
      (tlb_search mem vaddr paddr c) (plain_search mem s vaddr) := by
  have looked := tlb_hit_correct stands.list stands.indices vaddr paddr
  have lines : s.order.lines.reverse.find? (fun i => Translates (s.tlb i) (page vaddr)) =
      (ps.reverse.find? (fun p => Translates (c.tlb (index p)) (page vaddr))).map index := by
    rw [← stands.order,← List.map_reverse,List.find?_map,stands.tlb]
    rfl
  rw [plain_search,lines]
  cases found : ps.reverse.find? (fun p => Translates (c.tlb (index p)) (page vaddr)) with
  | some p =>
    obtain ⟨before,behind,split⟩ := List.append_of_mem (List.mem_reverse.mp (List.mem_of_find?_eq_some found))
    obtain ⟨heap,ll,moved,relisted,values⟩ := move_back_total (split ▸ stands.list)
    rw [found] at looked
    simp only [moved,Option.map_some] at looked
    simp only [tlb_search,looked,Option.bind_eq_bind,Option.bind_some,↓reduceIte,Option.map_some,Agree]
    refine ⟨trivial,by rw [stands.tlb],before ++ behind ++ [p],?_⟩
    have after := stands_use stands split relisted values c.tlb
    rwa [stands.tlb] at after ⊢
  | none =>
    rw [found] at looked
    simp only [tlb_search,looked,page_walk_correct,Option.bind_eq_bind,Option.bind_some,Bool.false_eq_true,↓reduceIte,
      Option.map_none]
    cases walked : frame mem vaddr with
    | none => trivial
    | some f =>
      obtain ⟨p,rest,split⟩ : ∃ p rest, ps = p :: rest := by
        refine List.exists_cons_of_ne_nil ?_
        rintro rfl
        exact s.order.ne_nil stands.order.symm
      have front : c.ll.front = some p := by rw [stands.list.front_eq,split]; rfl
      have oldest : s.order.oldest = index p := by
        simp only [order_t.oldest,← stands.order,split,List.map_cons,List.head_cons]
      obtain ⟨node,present,valueIs⟩ := Option.map_eq_some_iff.mp (stands.indices p (by rw [split]; exact List.mem_cons_self))
      obtain ⟨heap,ll,moved,relisted,values⟩ :=
        move_back_total (show IsList c.heap c.ll ([] ++ p :: rest) from split ▸ stands.list)
      simp only [Option.map_some,Option.bind_some,front,present,valueIs,write_tlb_line_index,moved,Agree,oldest,entry_init,
        ↓reduceIte]
      refine ⟨trivial,trivial,[] ++ rest ++ [p],?_⟩
      have after := stands_use stands (show ps = [] ++ p :: rest from split) relisted values
        (Function.update c.tlb (index p) { tag := BitVec.ofNat 36 (page vaddr), phy_page_num := f, v := 1#1 })
      rwa [stands.tlb] at after ⊢

/-! ### What the plain TLB holds -/

variable {mem : mem_space} {history : List Nat}

/-- The order is that of the lines not in use and then of the most recent pages, the oldest
    first, and a line in use translates its page as the page walk does. -/
structure Ranked (mem : mem_space) (history : List Nat) (s : plain) (free used : List (Fin TLB_LINES)) : Prop where
  order : s.order.lines = free ++ used
  unused : ∀ i ∈ free, (s.tlb i).v = 0#1
  valid : ∀ i ∈ used, (s.tlb i).v = 1#1
  frames : ∀ i ∈ used, ∀ vaddr, page vaddr = (s.tlb i).tag.toNat → frame mem vaddr = some (s.tlb i).phy_page_num
  recent : used.map (fun i => (s.tlb i).tag.toNat) = mostRecent TLB_LINES history

theorem stands_ranked {free used : List node_ptr} (stands : Stands index ps c s)
    (inv : Recent mem index history c free used) : Ranked mem history s (free.map index) (used.map index) := by
  have same : ps = free ++ used :=
    Option.some.inj (stands.list.for_all_nodes_eq.1.symm.trans inv.list.for_all_nodes_eq.1)
  refine ⟨?_,?_,?_,?_,?_⟩
  · rw [← stands.order,same,List.map_append]
  · intro i member
    obtain ⟨p,inFree,rfl⟩ := List.mem_map.mp member
    exact stands.tlb ▸ inv.unused p inFree
  · intro i member
    obtain ⟨p,inUsed,rfl⟩ := List.mem_map.mp member
    exact stands.tlb ▸ inv.valid p inUsed
  · intro i member
    obtain ⟨p,inUsed,rfl⟩ := List.mem_map.mp member
    exact stands.tlb ▸ inv.frames p inUsed
  · rw [List.map_map,← inv.recent,← stands.tlb]
    rfl

/-- The plain TLB after searches for the pages, as the TLB on its list stands for it. -/
def Reached (mem : mem_space) (index : node_ptr → Fin TLB_LINES) (history : List Nat) (s : plain) : Prop :=
  ∃ c ps free used, Stands index ps c s ∧ Recent mem index history c free used

theorem reached_ranked (reached : Reached mem index history s) : ∃ free used, Ranked mem history s free used := by
  obtain ⟨c,ps,free,used,stands,inv⟩ := reached
  exact ⟨_,_,stands_ranked stands inv⟩

theorem initial_stands {initial : state} (starts : Initial initial ps) :
    Stands (index_in initial.heap) ps initial start := by
  refine ⟨starts.flushed,starts.list,initial_indices starts,?_⟩
  refine List.map_injective_iff.mpr Fin.val_injective ?_
  rw [initial_order starts]
  exact (List.map_coe_finRange_eq_range).symm

theorem start_reached (mem : mem_space) : ∃ index, Reached mem index [] start := by
  obtain ⟨heap,ll,_,starts⟩ := start_initial Function.injective_id
  exact ⟨_,_,_,_,_,initial_stands starts,initial_recent starts mem⟩

/-- A plain search hits on the most recent pages and translates as the page walk does. -/
theorem plain_search_correct {vaddr : virt_addr_t} {f : found} {next : plain} (reached : Reached mem index history s)
    (searched : plain_search mem s vaddr = some (f,next)) :
    Reached mem index (history ++ [page vaddr]) next ∧ (f.hit = true ↔ page vaddr ∈ mostRecent TLB_LINES history) ∧
      page_walk mem vaddr ⟨0,0⟩ = some (.ERR_NONE,f.paddr) := by
  obtain ⟨c,ps,free,used,stands,inv⟩ := reached
  have together := tlb_search_plain mem stands vaddr ⟨0,0⟩
  rw [searched] at together
  obtain ⟨r,defined,_,same,ps',after⟩ := Machine.agree_right together
  obtain ⟨r',again,_,hit,walked,free',used',restored⟩ := tlb_search_total inv vaddr ⟨0,0⟩ (tlb_search_inside inv defined)
  obtain rfl : r = r' := Option.some.inj (defined.symm.trans again)
  obtain rfl : f = ⟨r.hit_or_miss,r.paddr⟩ := same
  exact ⟨⟨r.state,ps',free',used',after,restored⟩,hit,walked⟩

theorem plain_search_total {vaddr : virt_addr_t} (inside : (frame mem vaddr).isSome) (s : plain) :
    ∃ f next, plain_search mem s vaddr = some (f,next) := by
  obtain ⟨f,walked⟩ := Option.isSome_iff_exists.mp inside
  unfold plain_search
  split
  · exact ⟨_,_,rfl⟩
  · rw [walked]
    exact ⟨_,_,rfl⟩

/-! ### Runs -/

/-- The plain TLB has the same table, and its order is what the list reads forwards. -/
def Shows (c : state) (s : plain) : Prop :=
  c.tlb = s.tlb ∧ ∃ nodes, for_all_nodes c.heap c.ll = some nodes ∧
    nodes.map (value_of c.heap) = s.order.lines.map (fun i => some (BitVec.ofNat 32 i.val))

theorem stands_shows (stands : Stands index ps c s) : Shows c s := by
  refine ⟨stands.tlb,ps,stands.list.for_all_nodes_eq.1,?_⟩
  rw [← stands.order,List.map_map]
  exact List.map_congr_left stands.indices

/-- What a search delivers. -/
def shown (r : search_t) : found := ⟨r.hit_or_miss,r.paddr⟩

/-- From a flushed table and a list of the line numbers in order, every run of searches over the
    list is the run of the plain TLB: the same hits and addresses, and in the end the same lines,
    filled by the same pages, in the same order of replacement. -/
theorem tlb_refines_plain (mem : mem_space) {initial : state} (starts : Initial initial ps) (calls : List call) :
    Agree (fun a b => a.1.map shown = b.1 ∧ Shows a.2 b.2) (run (search mem) initial calls)
      (run (plain_search mem) start (calls.map call.vaddr)) := by
  have together : ∀ (c : state) (s : plain) (i : call), (∃ ps, Stands (index_in initial.heap) ps c s) →
      Agree (fun a b => shown a.1 = b.1 ∧ ∃ ps, Stands (index_in initial.heap) ps a.2 b.2) (search mem c i)
        (plain_search mem s i.vaddr) := by
    rintro c s i ⟨ps,stands⟩
    rcases Machine.agree_cases (tlb_search_plain mem stands i.vaddr i.paddr) with
      ⟨defined,plainly⟩ | ⟨r,after,defined,plainly,_,same,restored⟩
    · rw [search,defined,plainly]
      trivial
    · rw [search,defined,plainly]
      exact ⟨same.symm,restored⟩
  rcases Machine.agree_cases (Machine.run_simulates call.vaddr shown together calls initial start
    ⟨ps,initial_stands starts⟩) with ⟨defined,plainly⟩ | ⟨a,b,defined,plainly,same,_,stands⟩
  · rw [defined,plainly]
    trivial
  · rw [defined,plainly]
    exact ⟨same,stands_shows stands⟩

theorem tlb_refines_plain_zero : ∃ heap ll, fill_lines id TLB_LINES = some (heap,ll) ∧
    Agree (fun a b => a.1.map shown = b.1 ∧ Shows a.2 b.2) (run (search zero_mem) ⟨tlb_flush.2,heap,ll⟩ zero_calls)
      (run (plain_search zero_mem) start (zero_calls.map call.vaddr)) := by
  obtain ⟨heap,ll,filled,starts⟩ := start_initial Function.injective_id
  exact ⟨heap,ll,filled,tlb_refines_plain zero_mem starts zero_calls⟩

end CacheEmulator.TlbPlain
