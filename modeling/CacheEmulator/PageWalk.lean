import CacheEmulator.Addr
import CacheEmulator.Memory

/-!
The four-level page walk of `page_walk.c`. A walk has no result when one of its
entries lies outside the memory.
-/
namespace CacheEmulator.PageWalk
open CacheEmulator.Error CacheEmulator.Memory CacheEmulator.Addr

def read_page_entry (start : mem_space) (page_start : pte_t) (index : BitVec 16) : Option pte_t :=
  load start (page_start.toNat / 4 + index.toNat)

def page_walk (mem : mem_space) (vaddr : virt_addr_t) (paddr : phy_addr_t) : Option (error_code × phy_addr_t) := do
  let pgd_content ← read_page_entry mem 0 (vaddr.pgd_entry.setWidth 16)
  let pud_content ← read_page_entry mem pgd_content (vaddr.pud_entry.setWidth 16)
  let pmd_content ← read_page_entry mem pud_content (vaddr.pmd_entry.setWidth 16)
  let pte_content ← read_page_entry mem pmd_content (vaddr.pte_entry.setWidth 16)
  let initialised := init_phy_addr paddr pte_content (vaddr.page_offset.setWidth 32)
  some (.ERR_NONE,initialised.2)

/-! ### What a walk finds -/

/-- The table entry that the last level of the walk reads. -/
def entry (mem : mem_space) (vaddr : virt_addr_t) : Option pte_t := do
  let pgd_content ← read_page_entry mem 0 (vaddr.pgd_entry.setWidth 16)
  let pud_content ← read_page_entry mem pgd_content (vaddr.pud_entry.setWidth 16)
  let pmd_content ← read_page_entry mem pud_content (vaddr.pmd_entry.setWidth 16)
  read_page_entry mem pmd_content (vaddr.pte_entry.setWidth 16)

/-- The physical page a virtual page is mapped to. -/
def frame (mem : mem_space) (vaddr : virt_addr_t) : Option (BitVec 20) :=
  (entry mem vaddr).map (fun pte : pte_t => (pte >>> PAGE_OFFSET).setWidth 20)

theorem init_phy_addr_correct (paddr : phy_addr_t) (pte : pte_t) (offset : BitVec 12) :
    init_phy_addr paddr pte (offset.setWidth 32) = (.ERR_NONE,⟨(pte >>> PAGE_OFFSET).setWidth 20,offset⟩) := by
  have small := offset.isLt
  have bound : (offset.setWidth 32).toNat ≤ MAX_VALUE_12 := by
    rw [CacheEmulator.Bits.toNat_widen _ (by decide)]
    simp only [MAX_VALUE_12]; omega
  rw [init_phy_addr,require_holds bound]
  have sameOffset : (offset.setWidth 32).setWidth 12 = offset := by simp
  have masked : (pte >>> PAGE_OFFSET &&& BitVec.ofNat 32 (2 ^ (PHY_PAGE_NUM + 1) - 1)).setWidth 20 =
      (pte >>> PAGE_OFFSET).setWidth 20 := by
    apply BitVec.eq_of_toNat_eq
    rw [BitVec.toNat_setWidth,CacheEmulator.Bits.toNat_and_mask _ (by decide),BitVec.toNat_setWidth]
    exact Nat.mod_mod_of_dvd _ (Nat.pow_dvd_pow 2 (by decide))
  rw [sameOffset,masked]

/-- A walk never fails on its own: where its entries are in memory it delivers
    the frame and the offset of the virtual address. -/
theorem page_walk_correct (mem : mem_space) (vaddr : virt_addr_t) (paddr : phy_addr_t) :
    page_walk mem vaddr paddr = (frame mem vaddr).map (fun f => (.ERR_NONE,⟨f,vaddr.page_offset⟩)) := by
  simp only [page_walk,frame,entry,init_phy_addr_correct,Option.bind_eq_bind]
  cases read_page_entry mem 0 (vaddr.pgd_entry.setWidth 16) with
  | none => rfl
  | some pgd =>
    cases pudRead : read_page_entry mem pgd (vaddr.pud_entry.setWidth 16) with
    | none => simp [pudRead]
    | some pud =>
      cases pmdRead : read_page_entry mem pud (vaddr.pmd_entry.setWidth 16) with
      | none => simp [pudRead,pmdRead]
      | some pmd =>
        cases pteRead : read_page_entry mem pmd (vaddr.pte_entry.setWidth 16) <;> simp [pudRead,pmdRead,pteRead]

theorem page_walk_isSome (mem : mem_space) (vaddr : virt_addr_t) (paddr : phy_addr_t) :
    (page_walk mem vaddr paddr).isSome = (frame mem vaddr).isSome := by
  simp [page_walk_correct]

/-- The frame depends on the page number alone. -/
theorem frame_of_page (mem : mem_space) {left right : virt_addr_t} (same : page left = page right) :
    frame mem left = frame mem right := by
  obtain ⟨pgd,pud,pmd,pte⟩ := indices_of_page same
  simp only [frame,entry,pgd,pud,pmd,pte]

end CacheEmulator.PageWalk
