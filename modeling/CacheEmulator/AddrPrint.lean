import CacheEmulator.Addr
import CacheEmulator.Numeral

/-!
Printing addresses: the functions of `addr_mng.c` that write to a stream. The
conversions for integers of 16 bits print the promoted value whole; the reserved
bits are not printed.
-/
namespace CacheEmulator.AddrPrint
open CacheEmulator.Addr CacheEmulator.Stdio CacheEmulator.Numeral
open CacheEmulator.Printing (Tells tells_text)

/-- What `fprintf` returns, the number of characters, and the characters. -/
def fprintf (output : List byte) : Nat × List byte := (output.length,output)

def print_virtual_address (vaddr : virt_addr_t) : Nat × List byte :=
  fprintf (text "PGD=0x" ++ print_hex 1 vaddr.pgd_entry.toNat ++ text "; PUD=0x" ++ print_hex 1 vaddr.pud_entry.toNat ++
    text "; PMD=0x" ++ print_hex 1 vaddr.pmd_entry.toNat ++ text "; PTE=0x" ++ print_hex 1 vaddr.pte_entry.toNat ++
    text "; offset=0x" ++ print_hex 1 vaddr.page_offset.toNat)

def print_physical_address (paddr : phy_addr_t) : Nat × List byte :=
  fprintf (text "page num=0x" ++ print_hex 1 paddr.phy_page_num.toNat ++ text "; offset=0x" ++
    print_hex 1 paddr.page_offset.toNat)

/-! ### What a printed address tells -/

/-- The number of an address is its fields. -/
theorem number_eq_iff (left right : virt_addr_t) : number left = number right ↔
    left.pgd_entry = right.pgd_entry ∧ left.pud_entry = right.pud_entry ∧ left.pmd_entry = right.pmd_entry ∧
      left.pte_entry = right.pte_entry ∧ left.page_offset = right.page_offset := by
  constructor
  · intro same
    have equal : { left with reserved := 0 } = { right with reserved := 0 } := eq_of_number rfl same
    simpa using equal
  · rintro ⟨pgd,pud,pmd,pte,offset⟩
    rw [number,number,page,page,pgd,pud,pmd,pte,offset]

theorem same_iff (left right : phy_addr_t) :
    left = right ↔ left.phy_page_num = right.phy_page_num ∧ left.page_offset = right.page_offset := by
  cases left; cases right
  simp

section
variable {α : Type} {alike : α → α → Prop} {print : α → List byte} {stop : byte}

/-- A virtual address in front of a text that does not go on with a digit. -/
theorem virtual_after (noDigit : ∀ d < 16, hex_char d ≠ stop) (vaddr : α → virt_addr_t)
    (behind : Tells (fun _ _ => True) print alike) (starts : ∀ a, ∃ rest, print a = stop :: rest) :
    Tells (fun _ _ => True) (fun a => (print_virtual_address (vaddr a)).2 ++ print a)
      (fun a b => number (vaddr a) = number (vaddr b) ∧ alike a b) := by
  have semicolon : ∀ d < 16, hex_char d ≠ chr ';' := by decide
  have offset := hex_after noDigit (fun a => (vaddr a).page_offset) 1 behind starts
  have pte := hex_after semicolon (fun a => (vaddr a).pte_entry) 1 (offset.after_text (text "; offset=0x")) (fun _ => ⟨_,rfl⟩)
  have pmd := hex_after semicolon (fun a => (vaddr a).pmd_entry) 1 (pte.after_text (text "; PTE=0x")) (fun _ => ⟨_,rfl⟩)
  have pud := hex_after semicolon (fun a => (vaddr a).pud_entry) 1 (pmd.after_text (text "; PMD=0x")) (fun _ => ⟨_,rfl⟩)
  have pgd := hex_after semicolon (fun a => (vaddr a).pgd_entry) 1 (pud.after_text (text "; PUD=0x")) (fun _ => ⟨_,rfl⟩)
  simp only [print_virtual_address,fprintf,List.append_assoc,number_eq_iff,and_assoc]
  exact pgd.after_text (text "PGD=0x")

theorem physical_after (noDigit : ∀ d < 16, hex_char d ≠ stop) (paddr : α → phy_addr_t)
    (behind : Tells (fun _ _ => True) print alike) (starts : ∀ a, ∃ rest, print a = stop :: rest) :
    Tells (fun _ _ => True) (fun a => (print_physical_address (paddr a)).2 ++ print a)
      (fun a b => paddr a = paddr b ∧ alike a b) := by
  have semicolon : ∀ d < 16, hex_char d ≠ chr ';' := by decide
  have offset := hex_after noDigit (fun a => (paddr a).page_offset) 1 behind starts
  have frame := hex_after semicolon (fun a => (paddr a).phy_page_num) 1 (offset.after_text (text "; offset=0x"))
    (fun _ => ⟨_,rfl⟩)
  simp only [print_physical_address,fprintf,List.append_assoc,same_iff,and_assoc]
  exact frame.after_text (text "page num=0x")

end

/-- Printed addresses are the same just when the addresses are, the reserved bits aside. -/
theorem printed_addresses :
    (∀ left right : virt_addr_t, print_virtual_address left = print_virtual_address right ↔
      virt_addr_t_to_uint64_t left = virt_addr_t_to_uint64_t right) ∧
    ∀ left right : phy_addr_t, print_physical_address left = print_physical_address right ↔ left = right := by
  have fprintf_inj : ∀ left right : List byte, fprintf left = fprintf right ↔ left = right := by
    intro left right
    simp only [fprintf,Prod.mk.injEq,and_iff_right_iff_imp]
    exact congrArg List.length
  have newline : ∀ d < 16, hex_char d ≠ chr '\n' := by decide
  constructor
  · intro left right
    have told := (virtual_after newline id (tells_text (text "\n")) (fun _ => ⟨[],rfl⟩)).text_eq left right
    rw [List.append_cancel_right_eq,and_true] at told
    rw [← BitVec.toNat_inj,virt_addr_t_to_uint64_t_correct,virt_addr_t_to_uint64_t_correct,print_virtual_address,
      print_virtual_address,fprintf_inj]
    exact told
  · intro left right
    have told := (physical_after newline id (tells_text (text "\n")) (fun _ => ⟨[],rfl⟩)).text_eq left right
    rw [List.append_cancel_right_eq,and_true] at told
    rw [print_physical_address,print_physical_address,fprintf_inj]
    exact told

end CacheEmulator.AddrPrint
