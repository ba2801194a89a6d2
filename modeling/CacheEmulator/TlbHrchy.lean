import CacheEmulator.DirectMapped
import CacheEmulator.PageWalk

/-!
The two-level hierarchy of TLBs: `tlb_hrchy.h` and `tlb_hrchy_mng.c`. The
pointer arguments of the program are objects here, so its tests for NULL hold.
-/
namespace CacheEmulator.TlbHrchy
open CacheEmulator.Error CacheEmulator.Memory CacheEmulator.Addr CacheEmulator.PageWalk
open CacheEmulator.DirectMapped (Table)

inductive tlb_t
  | L1_ITLB
  | L1_DTLB
  | L2_TLB
  deriving DecidableEq, Repr

def L1_ITLB_LINES : Nat := 16
def L1_ITLB_LINES_BITS : Nat := 4
def L1_DTLB_LINES : Nat := L1_ITLB_LINES
def L1_DTLB_LINES_BITS : Nat := L1_ITLB_LINES_BITS
def L2_TLB_LINES : Nat := 64
def L2_TLB_LINES_BITS : Nat := 6
def TAG_1_SIZE : Nat := 32
def TAG_2_SIZE : Nat := 30

def lines : tlb_t → Nat
  | .L1_ITLB => L1_ITLB_LINES
  | .L1_DTLB => L1_DTLB_LINES
  | .L2_TLB => L2_TLB_LINES
def lines_bits : tlb_t → Nat
  | .L1_ITLB => L1_ITLB_LINES_BITS
  | .L1_DTLB => L1_DTLB_LINES_BITS
  | .L2_TLB => L2_TLB_LINES_BITS
def tag_size : tlb_t → Nat
  | .L1_ITLB => TAG_1_SIZE
  | .L1_DTLB => TAG_1_SIZE
  | .L2_TLB => TAG_2_SIZE

instance (type : tlb_t) : NeZero (lines type) := ⟨by cases type <;> decide⟩

/-- `l1_itlb_entry_t`, `l1_dtlb_entry_t` and `l2_tlb_entry_t` differ in the width of the tag. -/
structure tlb_entry_t (type : tlb_t) where
  tag : BitVec (tag_size type)
  phy_page_num : BitVec 20
  v : BitVec 1

abbrev tlb (type : tlb_t) := Fin (lines type) → tlb_entry_t type

/-- The three tables of a hierarchy. -/
structure tlbs where
  l1_itlb : tlb .L1_ITLB
  l1_dtlb : tlb .L1_DTLB
  l2_tlb : tlb .L2_TLB

def tlb_entry_init (vaddr : virt_addr_t) (paddr : phy_addr_t) (type : tlb_t) : error_code × tlb_entry_t type :=
  (.ERR_NONE,
    { tag := (virt_addr_t_to_virtual_page_number vaddr >>> lines_bits type).setWidth (tag_size type)
      phy_page_num := paddr.phy_page_num
      v := 1#1 })

def tlb_flush (type : tlb_t) : error_code × tlb type :=
  (.ERR_NONE,fun _ => { tag := 0, phy_page_num := 0, v := 0#1 })

def tlb_insert {type : tlb_t} (line_index : BitVec 32) (tlb_entry : tlb_entry_t type) (table : tlb type) :
    error_code × tlb type :=
  if inside : line_index.toNat < lines type then
    (.ERR_NONE,Function.update table ⟨line_index.toNat,inside⟩ tlb_entry)
  else (.ERR_BAD_PARAMETER,table)

/-- The hit flag and the physical address, which only a hit writes. -/
def tlb_hit {type : tlb_t} (vaddr : virt_addr_t) (paddr : phy_addr_t) (table : tlb type) : Bool × phy_addr_t :=
  let virtual_page_number := virt_addr_t_to_virtual_page_number vaddr
  let line_index := DirectMapped.line (lines type) virtual_page_number.toNat
  let tag : BitVec 32 := (virtual_page_number >>> lines_bits type).setWidth 32
  if (table line_index).v = 1#1 ∧ (table line_index).tag.setWidth 32 = tag then
    (true,{ phy_page_num := (table line_index).phy_page_num, page_offset := vaddr.page_offset })
  else (false,paddr)

/-- The lookup in the L1 that `pointer_and_type` selects. -/
def first_level (vaddr : virt_addr_t) (paddr : phy_addr_t) (access : mem_access_t) (s : tlbs) : Bool × phy_addr_t :=
  match access with
  | .INSTRUCTION => tlb_hit vaddr paddr s.l1_itlb
  | .DATA => tlb_hit vaddr paddr s.l1_dtlb

def index_and_tag (access : mem_access_t) (virtual_page_number : BitVec 64) : BitVec 32 × BitVec 32 :=
  match access with
  | .INSTRUCTION => ((virtual_page_number % BitVec.ofNat 64 L1_ITLB_LINES).setWidth 32,
      (virtual_page_number >>> L1_ITLB_LINES_BITS).setWidth 32)
  | .DATA => ((virtual_page_number % BitVec.ofNat 64 L1_DTLB_LINES).setWidth 32,
      (virtual_page_number >>> L1_DTLB_LINES_BITS).setWidth 32)

/-- The entry `insert_in_tlb` builds; the bit field keeps the low bits of the tag. -/
def casted {type : tlb_t} (tag : BitVec 32) (paddr : phy_addr_t) : tlb_entry_t type :=
  { tag := tag.setWidth (tag_size type), phy_page_num := paddr.phy_page_num, v := 1#1 }

/-- `insert_in_tlb` into the L1 that `tlb_pointer` and `tlb_type` name. -/
def insert_in_l1 (access : mem_access_t) (tag_tlb1 index_tlb1 : BitVec 32) (paddr : phy_addr_t) (s : tlbs) :
    error_code × tlbs :=
  match access with
  | .INSTRUCTION =>
    let inserted := tlb_insert index_tlb1 (casted tag_tlb1 paddr) s.l1_itlb
    (inserted.1,{ s with l1_itlb := inserted.2 })
  | .DATA =>
    let inserted := tlb_insert index_tlb1 (casted tag_tlb1 paddr) s.l1_dtlb
    (inserted.1,{ s with l1_dtlb := inserted.2 })

/-- Clears the valid bit of a line whose two low tag bits are those given. -/
def check_invalidate {type : tlb_t} (index_tlb1 : Fin (lines type)) (msb_index_tlb2 : BitVec 32) (table : tlb type) :
    tlb type :=
  if (table index_tlb1).tag.setWidth 32 &&& 3 = msb_index_tlb2 then
    Function.update table index_tlb1 { table index_tlb1 with v := 0#1 }
  else table

/-- The check of the L1 that the access does not use. -/
def invalidate_other (access : mem_access_t) (index_tlb1 msb_index_tlb2 : BitVec 32) (s : tlbs) : tlbs :=
  match access with
  | .INSTRUCTION =>
    let index := DirectMapped.line (lines .L1_DTLB) index_tlb1.toNat
    { s with l1_dtlb := check_invalidate index msb_index_tlb2 s.l1_dtlb }
  | .DATA =>
    let index := DirectMapped.line (lines .L1_ITLB) index_tlb1.toNat
    { s with l1_itlb := check_invalidate index msb_index_tlb2 s.l1_itlb }

/-- What a search leaves behind. -/
structure search_t where
  code : error_code
  paddr : phy_addr_t
  hit_or_miss : Bool
  tlbs : tlbs

def tlb_search (mem : mem_space) (vaddr : virt_addr_t) (paddr : phy_addr_t) (access : mem_access_t) (s : tlbs) :
    Option search_t :=
  let hit := first_level vaddr paddr access s
  if hit.1 then some { code := .ERR_NONE, paddr := hit.2, hit_or_miss := true, tlbs := s } else
  let virtual_page_number := virt_addr_t_to_virtual_page_number vaddr
  let index_tlb1 := (index_and_tag access virtual_page_number).1
  let tag_tlb1 := (index_and_tag access virtual_page_number).2
  let hit := tlb_hit vaddr hit.2 s.l2_tlb
  if hit.1 then
    let inserted := insert_in_l1 access tag_tlb1 index_tlb1 hit.2 s
    some { code := inserted.1, paddr := hit.2, hit_or_miss := true, tlbs := inserted.2 }
  else
  match page_walk mem vaddr hit.2 with
  | none => none
  | some (error_code,paddr) =>
  if error_code ≠ .ERR_NONE then some { code := error_code, paddr, hit_or_miss := false, tlbs := s } else
  let tag_tlb2 : BitVec 32 := (virtual_page_number >>> L2_TLB_LINES_BITS).setWidth 32
  let index_tlb2 : BitVec 32 := (virtual_page_number % BitVec.ofNat 64 L2_TLB_LINES).setWidth 32
  let inserted := tlb_insert index_tlb2 (casted tag_tlb2 paddr) s.l2_tlb
  let s := { s with l2_tlb := inserted.2 }
  if inserted.1 ≠ .ERR_NONE then some { code := inserted.1, paddr, hit_or_miss := false, tlbs := s } else
  -- The two high bits of the L2 index are the two low bits of the L1 tag.
  let msb_index_tlb2 := index_tlb2 >>> (L2_TLB_LINES_BITS - 2)
  let inserted := insert_in_l1 access tag_tlb1 index_tlb1 paddr s
  let s := inserted.2
  some { code := inserted.1, paddr, hit_or_miss := false, tlbs := invalidate_other access index_tlb1 msb_index_tlb2 s }

/-! ### What the functions do to the pages a table holds -/

/-- The pages a table translates: its valid lines, tag and frame. -/
def view {type : tlb_t} (table : tlb type) : Table (lines type) (BitVec 20) := fun i =>
  if (table i).v = 1#1 then some ((table i).tag.toNat,(table i).phy_page_num) else none

/-- The table after the line of a page was overwritten by its translation. -/
def fill {type : tlb_t} (page_number : Nat) (phy_page_num : BitVec 20) (table : tlb type) : tlb type :=
  Function.update table (DirectMapped.line (lines type) page_number)
    { tag := BitVec.ofNat (tag_size type) (page_number / lines type), phy_page_num, v := 1#1 }

theorem lines_pow (type : tlb_t) : lines type = 2 ^ lines_bits type := by cases type <;> rfl
theorem tag_fits (type : tlb_t) {page_number : Nat} (bound : page_number < 2 ^ VIRT_PAGE_NUM) :
    page_number / lines type < 2 ^ tag_size type := by
  have exponents : 2 ^ VIRT_PAGE_NUM = lines type * 2 ^ tag_size type := by cases type <;> rfl
  exact Nat.div_lt_of_lt_mul (exponents ▸ bound)
theorem tag_narrow (type : tlb_t) : tag_size type ≤ 32 := by cases type <;> decide

/-- The tag computed in 32 bits is the whole quotient of the page number. -/
theorem tag_correct (vaddr : virt_addr_t) (type : tlb_t) :
    ((virt_addr_t_to_virtual_page_number vaddr >>> lines_bits type).setWidth 32).toNat = page vaddr / lines type := by
  have small := tag_fits type (page_lt vaddr)
  have narrow : 2 ^ tag_size type ≤ 2 ^ 32 := Nat.pow_le_pow_right (by omega) (tag_narrow type)
  rw [BitVec.toNat_setWidth,BitVec.toNat_ushiftRight,virtual_page_number_correct,Nat.shiftRight_eq_div_pow,
    ← lines_pow]
  exact Nat.mod_eq_of_lt (by omega)

theorem index_correct (vaddr : virt_addr_t) (type : tlb_t) :
    ((virt_addr_t_to_virtual_page_number vaddr % BitVec.ofNat 64 (lines type)).setWidth 32).toNat =
      page vaddr % lines type := by
  have pos := Nat.pos_of_neZero (lines type)
  have few : lines type ≤ 64 := by cases type <;> decide
  have small := Nat.mod_lt (page vaddr) pos
  rw [BitVec.toNat_setWidth,BitVec.toNat_umod,virtual_page_number_correct,BitVec.toNat_ofNat,
    Nat.mod_eq_of_lt (show lines type < 2 ^ 64 by omega)]
  exact Nat.mod_eq_of_lt (by omega)

theorem view_fill {type : tlb_t} (table : tlb type) {page_number : Nat} (bound : page_number < 2 ^ VIRT_PAGE_NUM)
    (phy_page_num : BitVec 20) :
    view (fill page_number phy_page_num table) = DirectMapped.insert (view table) page_number phy_page_num := by
  funext i
  by_cases same : i = DirectMapped.line (lines type) page_number
  · subst same
    simp [view,fill,DirectMapped.insert,Nat.mod_eq_of_lt (tag_fits type bound)]
  · simp [view,fill,DirectMapped.insert,Function.update_of_ne same]

/-- A table hits exactly the pages it holds. -/
theorem tlb_hit_correct {type : tlb_t} (vaddr : virt_addr_t) (paddr : phy_addr_t) (table : tlb type) :
    tlb_hit vaddr paddr table =
      match DirectMapped.lookup (view table) (page vaddr) with
      | some f => (true,⟨f,vaddr.page_offset⟩)
      | none => (false,paddr) := by
  unfold tlb_hit DirectMapped.lookup view
  dsimp only
  rw [virtual_page_number_correct]
  set entry := table (DirectMapped.line (lines type) (page vaddr)) with entryIs
  have sameTag : entry.tag.setWidth 32 =
      (virt_addr_t_to_virtual_page_number vaddr >>> lines_bits type).setWidth 32 ↔
        entry.tag.toNat = page vaddr / lines type := by
    rw [← BitVec.toNat_inj,tag_correct,Bits.toNat_widen _ (tag_narrow type)]
  by_cases valid : entry.v = 1#1
  · by_cases matching : entry.tag.toNat = page vaddr / lines type
    · simp [valid,sameTag,matching]
    · simp [valid,sameTag,matching]
  · simp [valid]

theorem tlb_insert_correct (vaddr : virt_addr_t) (paddr : phy_addr_t) {type : tlb_t} (table : tlb type)
    {index tag : BitVec 32} (indexIs : index.toNat = page vaddr % lines type)
    (tagIs : tag.toNat = page vaddr / lines type) :
    tlb_insert index (casted tag paddr) table = (.ERR_NONE,fill (page vaddr) paddr.phy_page_num table) := by
  have inside : index.toNat < lines type := indexIs ▸ Nat.mod_lt _ (Nat.pos_of_neZero _)
  have sameTag : tag.setWidth (tag_size type) = BitVec.ofNat (tag_size type) (page vaddr / lines type) := by
    rw [← tagIs]; simp
  rw [tlb_insert,dif_pos inside]
  simp only [casted,fill,DirectMapped.line,indexIs,sameTag]

/-- The check on two tag bits drops exactly the page that shares the L2 line. -/
theorem view_check_invalidate {type : tlb_t} (sixteen : lines type = 16) (table : tlb type) (page_number : Nat)
    {msb : BitVec 32} (msbIs : msb.toNat = page_number % 64 / 16) :
    view (check_invalidate (DirectMapped.line (lines type) page_number) msb table) =
      DirectMapped.invalidate (view table) (fun other => other % 64 = page_number % 64) := by
  funext i
  have inside := i.isLt
  by_cases sameLine : i = DirectMapped.line (lines type) page_number
  · have key : ∀ tag, DirectMapped.keyOf i tag % 64 = page_number % 64 ↔ tag % 4 = page_number % 64 / 16 := by
      intro tag
      simp only [DirectMapped.keyOf,sameLine,DirectMapped.line,sixteen]
      omega
    have bits : (table i).tag.setWidth 32 &&& 3 = msb ↔ (table i).tag.toNat % 4 = page_number % 64 / 16 := by
      have masked := Bits.toNat_and_mask ((table i).tag.setWidth 32) (show 2 ≤ 32 by decide)
      rw [Bits.toNat_widen _ (tag_narrow type)] at masked
      rw [← msbIs,← BitVec.toNat_inj]
      exact masked ▸ Iff.rfl
    rw [← sameLine]
    by_cases lost : (table i).tag.toNat % 4 = page_number % 64 / 16
    · have cleared : check_invalidate i msb table = Function.update table i { table i with v := 0#1 } :=
        if_pos (bits.mpr lost)
      by_cases valid : (table i).v = 1#1 <;> simp [view,DirectMapped.invalidate,cleared,valid,key,lost]
    · have kept : check_invalidate i msb table = table := if_neg (fun same => lost (bits.mp same))
      by_cases valid : (table i).v = 1#1 <;> simp [view,DirectMapped.invalidate,kept,valid,key,lost]
  · have apart : ∀ tag, ¬ DirectMapped.keyOf i tag % 64 = page_number % 64 := by
      intro tag together
      apply sameLine
      apply Fin.ext
      simp only [DirectMapped.keyOf,DirectMapped.line,sixteen] at together ⊢
      omega
    have untouched : check_invalidate (DirectMapped.line (lines type) page_number) msb table i = table i := by
      unfold check_invalidate
      split
      · exact Function.update_of_ne sameLine _ _
      · rfl
    by_cases valid : (table i).v = 1#1 <;> simp [view,DirectMapped.invalidate,untouched,valid,apart]

end CacheEmulator.TlbHrchy
