import CacheEmulator.TlbHrchyRuns

/-!
What single operations on the hierarchy leave behind: which entries an insertion
answers for, which lines a search touches, and that a page just searched for is
found again.
-/
namespace CacheEmulator.TlbHrchyEffects
open CacheEmulator.Error CacheEmulator.Memory CacheEmulator.Addr CacheEmulator.PageWalk CacheEmulator.TlbHrchy
open CacheEmulator.TlbHrchyRuns
open CacheEmulator.DirectMapped (lookup keyOf line held)
open CacheEmulator.Machine (run)

/-! ### Insertion -/

/-- The entry of a translation, put into the line of its page, fills that line. -/
theorem insert_init (vaddr : virt_addr_t) (paddr : phy_addr_t) {type : tlb_t} (table : tlb type) :
    tlb_insert (BitVec.ofNat 32 (page vaddr % lines type)) (tlb_entry_init vaddr paddr type).2 table =
      (.ERR_NONE,fill (page vaddr) paddr.phy_page_num table) := by
  have pos := Nat.pos_of_neZero (lines type)
  have few : lines type ≤ 64 := by cases type <;> decide
  have small := Nat.mod_lt (page vaddr) pos
  have index : (BitVec.ofNat 32 (page vaddr % lines type)).toNat = page vaddr % lines type := by
    rw [BitVec.toNat_ofNat]
    exact Nat.mod_eq_of_lt (by omega)
  have entry : (tlb_entry_init vaddr paddr type).2 =
      casted ((virt_addr_t_to_virtual_page_number vaddr >>> lines_bits type).setWidth 32) paddr := by
    simp only [tlb_entry_init,casted]
    rw [BitVec.setWidth_setWidth_of_le _ (tag_narrow type)]
  rw [entry]
  exact tlb_insert_correct vaddr paddr table index (tag_correct vaddr type)

/-- Entries never alias: after the translation of a page is inserted in its line,
    that page hits with it, the other pages of the line miss, and the pages of
    the other lines are answered as before. -/
theorem insert_no_alias (type : tlb_t) (table : tlb type) (vaddr : virt_addr_t) (paddr : phy_addr_t) :
    (tlb_entry_init vaddr paddr type).1 = .ERR_NONE ∧
    ∃ after, tlb_insert (BitVec.ofNat 32 (page vaddr % lines type)) (tlb_entry_init vaddr paddr type).2 table =
        (.ERR_NONE,after) ∧
      ∀ (sought : virt_addr_t) (old : phy_addr_t),
        (page sought = page vaddr → tlb_hit sought old after = (true,⟨paddr.phy_page_num,sought.page_offset⟩)) ∧
        (page sought ≠ page vaddr → page sought % lines type = page vaddr % lines type →
          tlb_hit sought old after = (false,old)) ∧
        (page sought % lines type ≠ page vaddr % lines type →
          tlb_hit sought old after = tlb_hit sought old table) := by
  refine ⟨rfl,fill (page vaddr) paddr.phy_page_num table,insert_init vaddr paddr table,?_⟩
  intro sought old
  rw [tlb_hit_correct,tlb_hit_correct,view_fill table (page_lt vaddr)]
  refine ⟨?_,?_,?_⟩
  · intro same
    rw [same,DirectMapped.lookup_insert_same]
  · intro different together
    rw [DirectMapped.lookup_insert_other _ _ different,if_pos together]
  · intro apart
    have different : page sought ≠ page vaddr := fun same => apart (by rw [same])
    rw [DirectMapped.lookup_insert_other _ _ different,if_neg apart]

/-! ### What a search touches -/

theorem fill_elsewhere {type : tlb_t} (page_number : Nat) (f : BitVec 20) (table : tlb type) {i : Fin (lines type)}
    (apart : i ≠ line _ page_number) : fill page_number f table i = table i :=
  Function.update_of_ne apart _ _

/-- The check clears at most the valid bit of the line it is given. -/
theorem check_invalidate_elsewhere {type : tlb_t} (index i : Fin (lines type)) (msb : BitVec 32) (table : tlb type)
    (apart : i ≠ index) : check_invalidate index msb table i = table i := by
  unfold check_invalidate
  split_ifs
  · exact Function.update_of_ne apart _ _
  · rfl
theorem check_invalidate_bit {type : tlb_t} (index i : Fin (lines type)) (msb : BitVec 32) (table : tlb type) :
    ∃ v, check_invalidate index msb table i = { table i with v := v } := by
  by_cases here : i = index
  · subst here
    unfold check_invalidate
    split_ifs
    · exact ⟨0#1,Function.update_self _ _ _⟩
    · exact ⟨(table i).v,rfl⟩
  · exact ⟨(table i).v,check_invalidate_elsewhere index i msb table here⟩

/-- What a search for a page may change: the line of the page in the L1 it uses,
    its line in L2 on a miss, and the valid bit of its line in the other L1. -/
structure Framed (access : mem_access_t) (page_number : Nat) (missed : Prop) (s after : tlbs) : Prop where
  used : ∀ i, i ≠ line _ page_number → l1 access after i = l1 access s i
  second_level : ∀ i, ¬ (missed ∧ i = line _ page_number) → after.l2_tlb i = s.l2_tlb i
  other_lines : ∀ i, i ≠ line _ page_number → l1 (other access) after i = l1 (other access) s i
  other_bit : ∀ i, ∃ v, l1 (other access) after i = { l1 (other access) s i with v := v }

theorem move_framed {mem : mem_space} {vaddr : virt_addr_t} {access : mem_access_t} {s : tlbs} {r : search_t}
    (move : Move mem vaddr access s r) : Framed access (page vaddr) (r.hit_or_miss = false) s r.tlbs := by
  cases move with
  | stay _ => exact ⟨fun _ _ => rfl,fun _ _ => rfl,fun _ _ => rfl,fun i => ⟨(l1 (other access) s i).v,rfl⟩⟩
  | @copy f _ _ =>
    refine ⟨?_,fun i _ => by rw [l2_set_l1],fun i _ => by rw [l1_set_other],fun i => ?_⟩
    · intro i apart
      rw [l1_set_same]
      exact fill_elsewhere _ f _ apart
    · exact ⟨(l1 (other access) s i).v,by rw [l1_set_other]⟩
  | @walk f _ _ _ =>
    refine ⟨?_,?_,?_,?_⟩
    · intro i apart
      simp only [refill,l1_set_this,l1_set_same]
      exact fill_elsewhere _ f _ apart
    · intro i apart
      have elsewhere : i ≠ line _ (page vaddr) := fun here => apart ⟨rfl,here⟩
      simp only [refill,l2_set_l1]
      exact fill_elsewhere _ f _ elsewhere
    · intro i apart
      simp only [refill,l1_set_same]
      exact check_invalidate_elsewhere _ i _ _ apart
    · intro i
      simp only [refill,l1_set_same]
      exact check_invalidate_bit _ i _ _

theorem view_none {type : tlb_t} {table : tlb type} {i : Fin (lines type)} : view table i = none ↔ (table i).v = 0#1 := by
  unfold view
  by_cases valid : (table i).v = 1#1
  · simp [valid]
  · have clear : (table i).v = 0#1 := by
      revert valid
      generalize (table i).v = v
      revert v
      decide
    simp [clear]

/-- The translation that a line of a table holds. -/
def translation {type : tlb_t} (table : tlb type) (i : Fin (lines type)) : Option (Nat × BitVec 20) :=
  held (view table) i

/-- An entry of the other L1 is dropped just when a walk overwrote its translation in L2. -/
theorem move_dropped {mem : mem_space} {vaddr : virt_addr_t} {access : mem_access_t} {s : tlbs} {r : search_t}
    (inv : Invariant mem s) (move : Move mem vaddr access s r) {i : Fin (lines (l1_type (other access)))}
    (valid : (l1 (other access) s i).v = 1#1) :
    (l1 (other access) r.tlbs i).v = 0#1 ↔
      r.hit_or_miss = false ∧ translation s.l2_tlb (line _ (page vaddr)) = translation (l1 (other access) s) i := by
  cases move with
  | stay _ => simp [valid]
  | copy _ _ => simp [valid]
  | walk _ _ _ =>
    have occupied : (view (l1 (other access) s) i).isSome := by simp [view,valid]
    have dropped := (inv.backed (other access)).dropped (page vaddr) occupied
    rw [← view_none,view_refill_other]
    exact dropped.trans (by simp [translation])

/-- A search changes no more than it must, and the other L1 loses a translation
    exactly when the search overwrote that translation in L2. -/
theorem search_exact {mem : mem_space} {calls : List call} {results : List search_t} {s : tlbs}
    (ran : run (search mem) flushed calls = some (results,s)) (vaddr : virt_addr_t) (paddr : phy_addr_t)
    (access : mem_access_t) {r : search_t} (searched : tlb_search mem vaddr paddr access s = some r) :
    Framed access (page vaddr) (r.hit_or_miss = false) s r.tlbs ∧
      ∀ i, (l1 (other access) s i).v = 1#1 →
        ((l1 (other access) r.tlbs i).v = 0#1 ↔
          r.hit_or_miss = false ∧
            translation s.l2_tlb (line _ (page vaddr)) = translation (l1 (other access) s) i) := by
  have move := tlb_search_move searched
  exact ⟨move_framed move,fun i valid => move_dropped (reachable_invariant ran) move valid⟩

/-- Memory for the walks of pages 0 and 64, which share their lines in every table. -/
def conflict_mem : mem_space := zeros 260
def page_64 : virt_addr_t := ⟨0,0,0,0,64,0⟩
/-- The instructions of page 0. -/
def instruction_call : List call := [⟨zero_vaddr,.INSTRUCTION,zero_paddr⟩]

/-- Behind the instructions of page 0, data of page 64 misses, takes the line in L2 and
    has the entry of page 0 dropped. -/
theorem conflict_searched : ∃ results s r, run (search conflict_mem) flushed instruction_call = some (results,s) ∧
    tlb_search conflict_mem page_64 zero_paddr .DATA s = some r ∧ r.hit_or_miss = false ∧
      (l1 .INSTRUCTION s 0).v = 1#1 ∧ (l1 .INSTRUCTION r.tlbs 0).v = 0#1 := by
  have inside : Inside conflict_mem instruction_call := by
    unfold Inside
    decide
  obtain ⟨results,s,ran,_⟩ := run_translates inside
  obtain ⟨r,searched⟩ := tlb_search_total (show (frame conflict_mem page_64).isSome by decide) zero_paddr .DATA s
  have computed : (run (search conflict_mem) flushed instruction_call).bind (fun after =>
      (tlb_search conflict_mem page_64 zero_paddr .DATA after.2).map (fun r =>
        (r.hit_or_miss,(l1 .INSTRUCTION after.2 0).v,(l1 .INSTRUCTION r.tlbs 0).v))) = some (false,1#1,0#1) := by decide
  rw [ran,Option.bind_some,searched,Option.map_some] at computed
  obtain ⟨missed,dropping⟩ := Prod.mk.inj (Option.some.inj computed)
  obtain ⟨valid,dropped⟩ := Prod.mk.inj dropping
  exact ⟨results,s,r,ran,searched,missed,valid,dropped⟩

theorem search_exact_conflict : ∃ results s r, run (search conflict_mem) flushed instruction_call = some (results,s) ∧
    tlb_search conflict_mem page_64 zero_paddr .DATA s = some r ∧ r.hit_or_miss = false ∧
    (l1 .INSTRUCTION s 0).v = 1#1 ∧ (l1 .INSTRUCTION r.tlbs 0).v = 0#1 ∧
    Framed .DATA (page page_64) (r.hit_or_miss = false) s r.tlbs ∧
      ∀ i, (l1 (other .DATA) s i).v = 1#1 →
        ((l1 (other .DATA) r.tlbs i).v = 0#1 ↔
          r.hit_or_miss = false ∧
            translation s.l2_tlb (line _ (page page_64)) = translation (l1 (other .DATA) s) i) := by
  obtain ⟨results,s,r,ran,searched,missed,valid,dropped⟩ := conflict_searched
  exact ⟨results,s,r,ran,searched,missed,valid,dropped,search_exact ran page_64 zero_paddr .DATA searched⟩

/-! ### Searching again -/

/-- Whichever way a search went, its page is then in the L1 it used. -/
theorem move_held {mem : mem_space} {vaddr : virt_addr_t} {access : mem_access_t} {s : tlbs} {r : search_t}
    (move : Move mem vaddr access s r) :
    lookup (view (l1 access r.tlbs)) (page vaddr) = some r.paddr.phy_page_num := by
  cases move with
  | stay held => exact held
  | copy _ _ => rw [l1_set_same,view_fill _ (page_lt vaddr),DirectMapped.lookup_insert_same]
  | walk _ _ _ => rw [view_refill_l1,DirectMapped.lookup_insert_same]

/-- A page that L2 holds is a hit for every access; only the L1 of the access may change. -/
theorem search_held {mem : mem_space} {s : tlbs} (inv : Invariant mem s) {vaddr : virt_addr_t} {f : BitVec 20}
    (held : lookup (view s.l2_tlb) (page vaddr) = some f) (paddr : phy_addr_t) (access : mem_access_t) :
    ∃ after, tlb_search mem vaddr paddr access s = some ⟨.ERR_NONE,⟨f,vaddr.page_offset⟩,true,after⟩ ∧
      after.l2_tlb = s.l2_tlb ∧ (lookup (view (l1 access s)) (page vaddr) = some f → after = s) := by
  rw [tlb_search_correct]
  cases inL1 : lookup (view (l1 access s)) (page vaddr) with
  | some g =>
    have same : some g = some f := (inv.backed access _ _ inL1).symm.trans held
    cases same
    exact ⟨s,rfl,rfl,fun _ => rfl⟩
  | none =>
    simp only [held]
    exact ⟨_,rfl,l2_set_l1 access _ s,by simp⟩

/-- A translation just looked up is retained: the next search for its page hits,
    for either access, with the same frame and the same L2, and for the same
    access it changes nothing. -/
theorem search_retained {mem : mem_space} {calls : List call} {results : List search_t} {s : tlbs}
    (ran : run (search mem) flushed calls = some (results,s)) (vaddr : virt_addr_t) (paddr : phy_addr_t)
    (access : mem_access_t) {r : search_t} (searched : tlb_search mem vaddr paddr access s = some r)
    (again : virt_addr_t) (same : page again = page vaddr) (paddr' : phy_addr_t) (access' : mem_access_t) :
    ∃ r', tlb_search mem again paddr' access' r.tlbs = some r' ∧ r'.code = .ERR_NONE ∧ r'.hit_or_miss = true ∧
      r'.paddr = ⟨r.paddr.phy_page_num,again.page_offset⟩ ∧ r'.tlbs.l2_tlb = r.tlbs.l2_tlb ∧
      (access' = access → r'.tlbs = r.tlbs) := by
  have move := tlb_search_move searched
  have inv := move_invariant (reachable_invariant ran) move
  have inL1 := move_held move
  rw [← same] at inL1
  have inL2 := inv.backed access _ _ inL1
  obtain ⟨after,executed,second,unchanged⟩ := search_held inv inL2 paddr' access'
  refine ⟨_,executed,rfl,rfl,rfl,second,?_⟩
  rintro rfl
  exact unchanged inL1

/-- Another address of page 64. -/
def page_64_again : virt_addr_t := ⟨0,0,0,0,64,5⟩

theorem search_retained_conflict : ∃ results s r, run (search conflict_mem) flushed instruction_call = some (results,s) ∧
    tlb_search conflict_mem page_64 zero_paddr .DATA s = some r ∧ r.hit_or_miss = false ∧
    ∃ r', tlb_search conflict_mem page_64_again zero_paddr .INSTRUCTION r.tlbs = some r' ∧ r'.code = .ERR_NONE ∧
      r'.hit_or_miss = true ∧ r'.paddr = ⟨r.paddr.phy_page_num,page_64_again.page_offset⟩ ∧
      r'.tlbs.l2_tlb = r.tlbs.l2_tlb ∧ (.INSTRUCTION = mem_access_t.DATA → r'.tlbs = r.tlbs) := by
  obtain ⟨results,s,r,ran,searched,missed,_⟩ := conflict_searched
  exact ⟨results,s,r,ran,searched,missed,
    search_retained ran page_64 zero_paddr .DATA searched page_64_again rfl zero_paddr .INSTRUCTION⟩

end CacheEmulator.TlbHrchyEffects
