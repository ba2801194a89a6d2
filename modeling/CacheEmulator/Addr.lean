import CacheEmulator.Bits
import CacheEmulator.Error

/-!
Virtual and physical addresses of `addr.h`, the kinds of access of
`mem_access.h`, and the part of `addr_mng.c` that takes addresses apart.
-/
namespace CacheEmulator.Addr
open CacheEmulator.Error CacheEmulator.Bits

def PAGE_OFFSET : Nat := 12
def PTE_ENTRY : Nat := 9
def PMD_ENTRY : Nat := 9
def PUD_ENTRY : Nat := 9
def VIRT_PAGE_NUM : Nat := 36
def PHY_PAGE_NUM : Nat := 20
def MAX_VALUE_9 : Nat := 511
def MAX_VALUE_12 : Nat := 4095

inductive mem_access_t
  | INSTRUCTION
  | DATA
  deriving DecidableEq, Repr

structure virt_addr_t where
  reserved : BitVec 16
  pgd_entry : BitVec 9
  pud_entry : BitVec 9
  pmd_entry : BitVec 9
  pte_entry : BitVec 9
  page_offset : BitVec 12
  deriving DecidableEq, Repr

structure phy_addr_t where
  phy_page_num : BitVec 20
  page_offset : BitVec 12
  deriving DecidableEq, Repr

def control_virt_addr_param (pgd_entry pud_entry pmd_entry pte_entry page_offset : BitVec 16) : error_code :=
  M_REQUIRE (pgd_entry.toNat ≤ MAX_VALUE_9) .ERR_BAD_PARAMETER <|
  M_REQUIRE (pud_entry.toNat ≤ MAX_VALUE_9) .ERR_BAD_PARAMETER <|
  M_REQUIRE (pmd_entry.toNat ≤ MAX_VALUE_9) .ERR_BAD_PARAMETER <|
  M_REQUIRE (pte_entry.toNat ≤ MAX_VALUE_9) .ERR_BAD_PARAMETER <|
  M_REQUIRE (page_offset.toNat ≤ MAX_VALUE_12) .ERR_BAD_PARAMETER .ERR_NONE

def control_virt_addr (vaddr : virt_addr_t) : error_code :=
  control_virt_addr_param (vaddr.pgd_entry.setWidth 16) (vaddr.pud_entry.setWidth 16)
    (vaddr.pmd_entry.setWidth 16) (vaddr.pte_entry.setWidth 16) (vaddr.page_offset.setWidth 16)

def init_virt_addr (vaddr : virt_addr_t) (pgd_entry pud_entry pmd_entry pte_entry page_offset : BitVec 16) :
    error_code × virt_addr_t :=
  let c := control_virt_addr_param pgd_entry pud_entry pmd_entry pte_entry page_offset
  if c = .ERR_NONE then
    (c,
      { reserved := 0
        pgd_entry := pgd_entry.setWidth 9
        pud_entry := pud_entry.setWidth 9
        pmd_entry := pmd_entry.setWidth 9
        pte_entry := pte_entry.setWidth 9
        page_offset := page_offset.setWidth 12 })
  else (c,vaddr)

def init_virt_addr64 (vaddr : virt_addr_t) (vaddr64 : BitVec 64) : error_code × virt_addr_t :=
  let pgd := (vaddr64 >>> (PAGE_OFFSET + PTE_ENTRY + PMD_ENTRY + PUD_ENTRY) &&& BitVec.ofNat 64 MAX_VALUE_9).setWidth 16
  let pud := (vaddr64 >>> (PAGE_OFFSET + PTE_ENTRY + PMD_ENTRY) &&& BitVec.ofNat 64 MAX_VALUE_9).setWidth 16
  let pmd := (vaddr64 >>> (PAGE_OFFSET + PTE_ENTRY) &&& BitVec.ofNat 64 MAX_VALUE_9).setWidth 16
  let pte := (vaddr64 >>> PAGE_OFFSET &&& BitVec.ofNat 64 MAX_VALUE_9).setWidth 16
  let offset := (vaddr64 &&& BitVec.ofNat 64 MAX_VALUE_12).setWidth 16
  init_virt_addr vaddr pgd pud pmd pte offset

def virt_addr_t_to_virtual_page_number (vaddr : virt_addr_t) : BitVec 64 :=
  if control_virt_addr vaddr = .ERR_NONE then
    (vaddr.pgd_entry.setWidth 64 <<< (PTE_ENTRY + PMD_ENTRY + PUD_ENTRY)) |||
    (vaddr.pud_entry.setWidth 64 <<< (PTE_ENTRY + PMD_ENTRY)) |||
    (vaddr.pmd_entry.setWidth 64 <<< PTE_ENTRY) |||
    vaddr.pte_entry.setWidth 64
  else 0

def virt_addr_t_to_uint64_t (vaddr : virt_addr_t) : BitVec 64 :=
  if control_virt_addr vaddr = .ERR_NONE then
    virt_addr_t_to_virtual_page_number vaddr <<< PAGE_OFFSET ||| vaddr.page_offset.setWidth 64
  else 0

/-- Leaves the address as it was when the offset is refused. -/
def init_phy_addr (paddr : phy_addr_t) (page_begin page_offset : BitVec 32) : error_code × phy_addr_t :=
  M_REQUIRE (page_offset.toNat ≤ MAX_VALUE_12) (.ERR_BAD_PARAMETER,paddr) <|
    (.ERR_NONE,
      { page_offset := page_offset.setWidth 12
        phy_page_num :=
          (page_begin >>> PAGE_OFFSET &&& BitVec.ofNat 32 (2 ^ (PHY_PAGE_NUM + 1) - 1)).setWidth 20 })

/-! ### The page number of a virtual address -/

/-- The four table indices as one number. -/
def page (vaddr : virt_addr_t) : Nat :=
  ((vaddr.pgd_entry.toNat * 2 ^ 9 + vaddr.pud_entry.toNat) * 2 ^ 9 + vaddr.pmd_entry.toNat) * 2 ^ 9 +
    vaddr.pte_entry.toNat

theorem page_lt (vaddr : virt_addr_t) : page vaddr < 2 ^ VIRT_PAGE_NUM := by
  have g := vaddr.pgd_entry.isLt
  have u := vaddr.pud_entry.isLt
  have m := vaddr.pmd_entry.isLt
  have t := vaddr.pte_entry.isLt
  simp only [page,VIRT_PAGE_NUM]
  omega

/-- Two addresses on one page have the same table indices. -/
theorem indices_of_page {left right : virt_addr_t} (same : page left = page right) :
    left.pgd_entry = right.pgd_entry ∧ left.pud_entry = right.pud_entry ∧
      left.pmd_entry = right.pmd_entry ∧ left.pte_entry = right.pte_entry := by
  have lu := left.pud_entry.isLt
  have lm := left.pmd_entry.isLt
  have lt := left.pte_entry.isLt
  have ru := right.pud_entry.isLt
  have rm := right.pmd_entry.isLt
  have rt := right.pte_entry.isLt
  simp only [page] at same
  refine ⟨?_,?_,?_,?_⟩ <;> apply BitVec.eq_of_toNat_eq <;> omega

theorem control_virt_addr_param_none {pgd_entry pud_entry pmd_entry pte_entry page_offset : BitVec 16}
    (g : pgd_entry.toNat < 2 ^ 9) (u : pud_entry.toNat < 2 ^ 9) (m : pmd_entry.toNat < 2 ^ 9)
    (t : pte_entry.toNat < 2 ^ 9) (o : page_offset.toNat < 2 ^ 12) :
    control_virt_addr_param pgd_entry pud_entry pmd_entry pte_entry page_offset = .ERR_NONE := by
  unfold control_virt_addr_param
  rw [require_holds,require_holds,require_holds,require_holds,require_holds]
  all_goals simp only [MAX_VALUE_9,MAX_VALUE_12]; omega

/-- The bit fields of an address always pass the bound checks. -/
theorem control_virt_addr_none (vaddr : virt_addr_t) : control_virt_addr vaddr = .ERR_NONE := by
  have g := vaddr.pgd_entry.isLt
  have u := vaddr.pud_entry.isLt
  have m := vaddr.pmd_entry.isLt
  have t := vaddr.pte_entry.isLt
  have o := vaddr.page_offset.isLt
  apply control_virt_addr_param_none
  all_goals rw [toNat_widen _ (by decide)]; assumption

theorem virtual_page_number_correct (vaddr : virt_addr_t) :
    (virt_addr_t_to_virtual_page_number vaddr).toNat = page vaddr := by
  have g := vaddr.pgd_entry.isLt
  have u := vaddr.pud_entry.isLt
  have m := vaddr.pmd_entry.isLt
  have t := vaddr.pte_entry.isLt
  rw [virt_addr_t_to_virtual_page_number,if_pos (control_virt_addr_none vaddr)]
  simp only [BitVec.toNat_or,BitVec.toNat_shiftLeft,toNat_widen _ (show 9 ≤ 64 by decide),PTE_ENTRY,PMD_ENTRY,
    PUD_ENTRY,Nat.reduceAdd,Nat.shiftLeft_eq,page]
  rw [Nat.mod_eq_of_lt (by omega),Nat.mod_eq_of_lt (by omega),Nat.mod_eq_of_lt (by omega)]
  -- The fields are joined from the lowest upwards.
  have third : vaddr.pmd_entry.toNat * 2 ^ 9 ||| vaddr.pte_entry.toNat =
      vaddr.pmd_entry.toNat * 2 ^ 9 + vaddr.pte_entry.toNat := mul_or_add _ t
  have second : vaddr.pud_entry.toNat * 2 ^ 18 ||| (vaddr.pmd_entry.toNat * 2 ^ 9 + vaddr.pte_entry.toNat) =
      vaddr.pud_entry.toNat * 2 ^ 18 + (vaddr.pmd_entry.toNat * 2 ^ 9 + vaddr.pte_entry.toNat) :=
    mul_or_add _ (by omega)
  rw [Nat.lor_assoc,Nat.lor_assoc,third,second,mul_or_add _ (by omega)]
  omega

/-! ### The number of a virtual address -/

/-- The 48 bits of an address as one number. -/
def number (vaddr : virt_addr_t) : Nat := page vaddr * 2 ^ PAGE_OFFSET + vaddr.page_offset.toNat

theorem number_lt (vaddr : virt_addr_t) : number vaddr < 2 ^ 48 := by
  have p := page_lt vaddr
  have o := vaddr.page_offset.isLt
  simp only [number,PAGE_OFFSET,VIRT_PAGE_NUM] at *
  omega

/-- An address is its reserved bits and its number. -/
theorem eq_of_number {left right : virt_addr_t} (reserved : left.reserved = right.reserved)
    (same : number left = number right) : left = right := by
  have lo := left.page_offset.isLt
  have ro := right.page_offset.isLt
  simp only [number,PAGE_OFFSET] at same
  have samePage : page left = page right := by omega
  have sameOffset : left.page_offset = right.page_offset := BitVec.eq_of_toNat_eq (by omega)
  obtain ⟨pgd,pud,pmd,pte⟩ := indices_of_page samePage
  cases left; cases right
  simp_all

theorem virt_addr_t_to_uint64_t_correct (vaddr : virt_addr_t) : (virt_addr_t_to_uint64_t vaddr).toNat = number vaddr := by
  have p := page_lt vaddr
  have o := vaddr.page_offset.isLt
  have offset : (vaddr.page_offset.setWidth 64).toNat = vaddr.page_offset.toNat := toNat_widen _ (by decide)
  rw [virt_addr_t_to_uint64_t,if_pos (control_virt_addr_none vaddr)]
  rw [toNat_shift_or _ _ (by rw [offset]; exact o),virtual_page_number_correct,offset,number]
  simp only [virtual_page_number_correct,PAGE_OFFSET,VIRT_PAGE_NUM] at *
  omega

/-- A field cut out of an address is a digit of its number. -/
theorem field (vaddr64 : BitVec 64) (shift : Nat) {width : Nat} (narrow : width ≤ 16) :
    ((vaddr64 >>> shift &&& BitVec.ofNat 64 (2 ^ width - 1)).setWidth 16).toNat =
      vaddr64.toNat / 2 ^ shift % 2 ^ width := by
  have small : vaddr64.toNat / 2 ^ shift % 2 ^ width < 2 ^ 16 :=
    Nat.lt_of_lt_of_le (Nat.mod_lt _ (Nat.two_pow_pos width)) (Nat.pow_le_pow_right (by decide) narrow)
  rw [BitVec.toNat_setWidth,toNat_and_mask _ (by omega),BitVec.toNat_ushiftRight,Nat.shiftRight_eq_div_pow]
  exact Nat.mod_eq_of_lt small

/-- Indices inside their tables are taken over as they are. -/
theorem init_virt_addr_correct (vaddr : virt_addr_t) {pgd_entry pud_entry pmd_entry pte_entry page_offset : BitVec 16}
    (g : pgd_entry.toNat < 2 ^ 9) (u : pud_entry.toNat < 2 ^ 9) (m : pmd_entry.toNat < 2 ^ 9)
    (t : pte_entry.toNat < 2 ^ 9) (o : page_offset.toNat < 2 ^ 12) :
    ∃ after, init_virt_addr vaddr pgd_entry pud_entry pmd_entry pte_entry page_offset = (.ERR_NONE,after) ∧
      after.reserved = 0 ∧
      number after = (((pgd_entry.toNat * 2 ^ 9 + pud_entry.toNat) * 2 ^ 9 + pmd_entry.toNat) * 2 ^ 9 +
        pte_entry.toNat) * 2 ^ PAGE_OFFSET + page_offset.toNat := by
  have accepted := control_virt_addr_param_none g u m t o
  refine ⟨_,by rw [init_virt_addr,if_pos accepted,accepted],rfl,?_⟩
  simp only [number,page,BitVec.toNat_setWidth]
  rw [Nat.mod_eq_of_lt g,Nat.mod_eq_of_lt u,Nat.mod_eq_of_lt m,Nat.mod_eq_of_lt t,Nat.mod_eq_of_lt o]

/-- Every number is accepted; the reserved bits are cleared and the rest is the number modulo 2^48. -/
theorem init_virt_addr64_correct (vaddr : virt_addr_t) (vaddr64 : BitVec 64) :
    ∃ after, init_virt_addr64 vaddr vaddr64 = (.ERR_NONE,after) ∧ after.reserved = 0 ∧
      number after = vaddr64.toNat % 2 ^ 48 := by
  have pgd := field vaddr64 39 (show 9 ≤ 16 by decide)
  have pud := field vaddr64 30 (show 9 ≤ 16 by decide)
  have pmd := field vaddr64 21 (show 9 ≤ 16 by decide)
  have pte := field vaddr64 12 (show 9 ≤ 16 by decide)
  have offset := field vaddr64 0 (show 12 ≤ 16 by decide)
  rw [BitVec.ushiftRight_zero] at offset
  obtain ⟨after,executed,reserved,joined⟩ := init_virt_addr_correct vaddr (pgd.trans_lt (Nat.mod_lt _ (by decide)))
    (pud.trans_lt (Nat.mod_lt _ (by decide))) (pmd.trans_lt (Nat.mod_lt _ (by decide)))
    (pte.trans_lt (Nat.mod_lt _ (by decide))) (offset.trans_lt (Nat.mod_lt _ (by decide)))
  refine ⟨after,executed,reserved,?_⟩
  rw [joined,pgd,pud,pmd,pte,offset,PAGE_OFFSET]
  omega

/-! ### The codec -/

/-- An address without reserved bits is rebuilt from its number. -/
theorem init_of_uint64 {vaddr : virt_addr_t} (clear : vaddr.reserved = 0) (old : virt_addr_t) :
    init_virt_addr64 old (virt_addr_t_to_uint64_t vaddr) = (.ERR_NONE,vaddr) := by
  obtain ⟨after,executed,reserved,numbered⟩ := init_virt_addr64_correct old (virt_addr_t_to_uint64_t vaddr)
  have small := number_lt vaddr
  have same : number after = number vaddr := by
    rw [numbered,virt_addr_t_to_uint64_t_correct]
    exact Nat.mod_eq_of_lt small
  rw [executed,eq_of_number (reserved.trans clear.symm) same]

/-- The page number is the number of the address without its offset. -/
theorem page_of_number (vaddr : virt_addr_t) : page vaddr = number vaddr / 4096 := by
  have small := vaddr.page_offset.isLt
  simp only [number,PAGE_OFFSET]
  omega

theorem same_page_iff (left right : virt_addr_t) :
    virt_addr_t_to_virtual_page_number left = virt_addr_t_to_virtual_page_number right ↔
      left.pgd_entry = right.pgd_entry ∧ left.pud_entry = right.pud_entry ∧
        left.pmd_entry = right.pmd_entry ∧ left.pte_entry = right.pte_entry := by
  rw [← BitVec.toNat_inj,virtual_page_number_correct,virtual_page_number_correct]
  constructor
  · exact indices_of_page
  · rintro ⟨pgd,pud,pmd,pte⟩
    rw [page,page,pgd,pud,pmd,pte]

/-- Packing and unpacking an address are inverse to each other up to the bits
    that an address does not have, and the page number is what is above the offset. -/
theorem address_codec :
    (∀ vaddr old : virt_addr_t, vaddr.reserved = 0 →
      init_virt_addr64 old (virt_addr_t_to_uint64_t vaddr) = (.ERR_NONE,vaddr)) ∧
    (∀ (old : virt_addr_t) (vaddr64 : BitVec 64), ∃ vaddr, init_virt_addr64 old vaddr64 = (.ERR_NONE,vaddr) ∧
      (virt_addr_t_to_uint64_t vaddr).toNat = vaddr64.toNat % 2 ^ 48 ∧
      (virt_addr_t_to_virtual_page_number vaddr).toNat = vaddr64.toNat % 2 ^ 48 / 4096) ∧
    ∀ left right : virt_addr_t,
      virt_addr_t_to_virtual_page_number left = virt_addr_t_to_virtual_page_number right ↔
        left.pgd_entry = right.pgd_entry ∧ left.pud_entry = right.pud_entry ∧
          left.pmd_entry = right.pmd_entry ∧ left.pte_entry = right.pte_entry := by
  refine ⟨fun vaddr old clear => init_of_uint64 clear old,?_,same_page_iff⟩
  intro old vaddr64
  obtain ⟨vaddr,executed,_,numbered⟩ := init_virt_addr64_correct old vaddr64
  refine ⟨vaddr,executed,?_,?_⟩
  · rw [virt_addr_t_to_uint64_t_correct,numbered]
  · rw [virtual_page_number_correct,page_of_number,numbered]

end CacheEmulator.Addr
