import CacheEmulator.Machine
import CacheEmulator.TlbHrchy

/-!
Runs of `tlb_search` over the hierarchy. One search is one of three moves: it
stays in the L1 of its access, copies a page down from L2, or walks the tables
and fills both levels. From flushed tables L2 always backs both L1s, so the
hierarchy translates like the page walk and hits like L2 alone.
-/
namespace CacheEmulator.TlbHrchyRuns
open CacheEmulator.Error CacheEmulator.Memory CacheEmulator.Addr CacheEmulator.PageWalk CacheEmulator.TlbHrchy
open CacheEmulator.DirectMapped (Table lookup keyOf line Backed)
open CacheEmulator.Machine (run Answers Agree)

/-! ### One search -/

def l1_type : mem_access_t → tlb_t
  | .INSTRUCTION => .L1_ITLB
  | .DATA => .L1_DTLB
def other : mem_access_t → mem_access_t
  | .INSTRUCTION => .DATA
  | .DATA => .INSTRUCTION
/-- The L1 an access uses. -/
def l1 (access : mem_access_t) (s : tlbs) : tlb (l1_type access) :=
  match access with
  | .INSTRUCTION => s.l1_itlb
  | .DATA => s.l1_dtlb
def set_l1 (access : mem_access_t) (table : tlb (l1_type access)) (s : tlbs) : tlbs :=
  match access with
  | .INSTRUCTION => { s with l1_itlb := table }
  | .DATA => { s with l1_dtlb := table }

@[simp] theorem l1_set_same (access : mem_access_t) (table : tlb (l1_type access)) (s : tlbs) :
    l1 access (set_l1 access table s) = table := by cases access <;> rfl
@[simp] theorem l1_set_other (access : mem_access_t) (table : tlb (l1_type access)) (s : tlbs) :
    l1 (other access) (set_l1 access table s) = l1 (other access) s := by cases access <;> rfl
@[simp] theorem l1_set_this (access : mem_access_t) (table : tlb (l1_type (other access))) (s : tlbs) :
    l1 access (set_l1 (other access) table s) = l1 access s := by cases access <;> rfl
@[simp] theorem l2_set_l1 (access : mem_access_t) (table : tlb (l1_type access)) (s : tlbs) :
    (set_l1 access table s).l2_tlb = s.l2_tlb := by cases access <;> rfl
@[simp] theorem l1_with_l2 (access : mem_access_t) (table : tlb .L2_TLB) (s : tlbs) :
    l1 access { s with l2_tlb := table } = l1 access s := by cases access <;> rfl
theorem l1_lines (access : mem_access_t) : lines (l1_type access) = 16 := by cases access <;> rfl

/-- Both levels after a search that walked the page tables. -/
def refill (access : mem_access_t) (page_number : Nat) (phy_page_num : BitVec 20) (s : tlbs) : tlbs :=
  let filled := set_l1 access (fill page_number phy_page_num (l1 access s))
    { s with l2_tlb := fill page_number phy_page_num s.l2_tlb }
  set_l1 (other access)
    (check_invalidate (line _ page_number) (BitVec.ofNat 32 (page_number % 64 / 16)) (l1 (other access) s)) filled

theorem insert_in_l1_correct (access : mem_access_t) (vaddr : virt_addr_t) (paddr : phy_addr_t) (s : tlbs)
    {tag index : BitVec 32} (tagIs : tag.toNat = page vaddr / 16) (indexIs : index.toNat = page vaddr % 16) :
    insert_in_l1 access tag index paddr s =
      (.ERR_NONE,set_l1 access (fill (page vaddr) paddr.phy_page_num (l1 access s)) s) := by
  cases access with
  | INSTRUCTION =>
    have inserted := tlb_insert_correct vaddr paddr s.l1_itlb indexIs tagIs
    simp only [insert_in_l1,inserted]
    rfl
  | DATA =>
    have inserted := tlb_insert_correct vaddr paddr s.l1_dtlb indexIs tagIs
    simp only [insert_in_l1,inserted]
    rfl

theorem invalidate_other_correct (access : mem_access_t) (vaddr : virt_addr_t) (s : tlbs) {index msb : BitVec 32}
    (indexIs : index.toNat = page vaddr % 16) (msbIs : msb.toNat = page vaddr % 64 / 16) :
    invalidate_other access index msb s =
      set_l1 (other access)
        (check_invalidate (line _ (page vaddr)) (BitVec.ofNat 32 (page vaddr % 64 / 16)) (l1 (other access) s)) s := by
  have msbSame : msb = BitVec.ofNat 32 (page vaddr % 64 / 16) := by
    apply BitVec.eq_of_toNat_eq
    have small : page vaddr % 64 / 16 < 2 ^ 32 := by omega
    rw [msbIs,BitVec.toNat_ofNat,Nat.mod_eq_of_lt small]
  have lineSame : ∀ type, lines type = 16 → line (lines type) index.toNat = line (lines type) (page vaddr) := by
    intro type sixteen
    rw [DirectMapped.line_eq_iff,indexIs,sixteen,Nat.mod_mod]
  subst msbSame
  cases access with
  | INSTRUCTION =>
    simp only [invalidate_other,lineSame .L1_DTLB rfl]
    rfl
  | DATA =>
    simp only [invalidate_other,lineSame .L1_ITLB rfl]
    rfl

/-- The three ways a search can go. -/
theorem tlb_search_correct (mem : mem_space) (vaddr : virt_addr_t) (paddr : phy_addr_t) (access : mem_access_t)
    (s : tlbs) :
    tlb_search mem vaddr paddr access s =
      match lookup (view (l1 access s)) (page vaddr) with
      | some f => some ⟨.ERR_NONE,⟨f,vaddr.page_offset⟩,true,s⟩
      | none =>
        match lookup (view s.l2_tlb) (page vaddr) with
        | some f => some ⟨.ERR_NONE,⟨f,vaddr.page_offset⟩,true,
            set_l1 access (fill (page vaddr) f (l1 access s)) s⟩
        | none => (frame mem vaddr).map (fun f =>
            ⟨.ERR_NONE,⟨f,vaddr.page_offset⟩,false,refill access (page vaddr) f s⟩) := by
  have first : first_level vaddr paddr access s = tlb_hit vaddr paddr (l1 access s) := by cases access <;> rfl
  have indexIs : (index_and_tag access (virt_addr_t_to_virtual_page_number vaddr)).1.toNat = page vaddr % 16 := by
    cases access with
    | INSTRUCTION => exact index_correct vaddr .L1_ITLB
    | DATA => exact index_correct vaddr .L1_DTLB
  have tagIs : (index_and_tag access (virt_addr_t_to_virtual_page_number vaddr)).2.toNat = page vaddr / 16 := by
    cases access with
    | INSTRUCTION => exact tag_correct vaddr .L1_ITLB
    | DATA => exact tag_correct vaddr .L1_DTLB
  have indexIs2 := index_correct vaddr .L2_TLB
  have tagIs2 := tag_correct vaddr .L2_TLB
  have msbIs : ((virt_addr_t_to_virtual_page_number vaddr % BitVec.ofNat 64 L2_TLB_LINES).setWidth 32 >>>
      (L2_TLB_LINES_BITS - 2) : BitVec 32).toNat = page vaddr % 64 / 16 := by
    rw [BitVec.toNat_ushiftRight,Nat.shiftRight_eq_div_pow]
    exact congrArg (· / 16) indexIs2
  unfold tlb_search
  simp only [first,tlb_hit_correct]
  cases lookup (view (l1 access s)) (page vaddr) with
  | some f => rfl
  | none =>
    cases lookup (view s.l2_tlb) (page vaddr) with
    | some f => simp only [insert_in_l1_correct access vaddr _ s tagIs indexIs,Bool.false_eq_true,↓reduceIte]
    | none =>
      rw [page_walk_correct]
      cases frame mem vaddr with
      | none => rfl
      | some f =>
        have filled := tlb_insert_correct vaddr ⟨f,vaddr.page_offset⟩ s.l2_tlb indexIs2 tagIs2
        have filled2 : tlb_insert ((virt_addr_t_to_virtual_page_number vaddr % BitVec.ofNat 64 L2_TLB_LINES).setWidth 32)
            (casted ((virt_addr_t_to_virtual_page_number vaddr >>> L2_TLB_LINES_BITS).setWidth 32)
              ⟨f,vaddr.page_offset⟩) s.l2_tlb = (.ERR_NONE,fill (page vaddr) f s.l2_tlb) := filled
        simp [filled2,insert_in_l1_correct access vaddr _ _ tagIs indexIs,
          invalidate_other_correct access vaddr _ indexIs msbIs,refill]

/-- The moves of a search, each with the result it leaves. -/
inductive Move (mem : mem_space) (vaddr : virt_addr_t) (access : mem_access_t) (s : tlbs) : search_t → Prop
  | stay {f : BitVec 20} (held : lookup (view (l1 access s)) (page vaddr) = some f) :
      Move mem vaddr access s ⟨.ERR_NONE,⟨f,vaddr.page_offset⟩,true,s⟩
  | copy {f : BitVec 20} (absent : lookup (view (l1 access s)) (page vaddr) = none)
      (held : lookup (view s.l2_tlb) (page vaddr) = some f) :
      Move mem vaddr access s
        ⟨.ERR_NONE,⟨f,vaddr.page_offset⟩,true,set_l1 access (fill (page vaddr) f (l1 access s)) s⟩
  | walk {f : BitVec 20} (absent : lookup (view (l1 access s)) (page vaddr) = none)
      (missing : lookup (view s.l2_tlb) (page vaddr) = none) (walked : frame mem vaddr = some f) :
      Move mem vaddr access s ⟨.ERR_NONE,⟨f,vaddr.page_offset⟩,false,refill access (page vaddr) f s⟩

theorem tlb_search_move {mem : mem_space} {vaddr : virt_addr_t} {paddr : phy_addr_t} {access : mem_access_t}
    {s : tlbs} {r : search_t} (searched : tlb_search mem vaddr paddr access s = some r) :
    Move mem vaddr access s r := by
  rw [tlb_search_correct] at searched
  cases inL1 : lookup (view (l1 access s)) (page vaddr) with
  | some f =>
    simp only [inL1,Option.some.injEq] at searched
    exact searched ▸ .stay inL1
  | none =>
    cases inL2 : lookup (view s.l2_tlb) (page vaddr) with
    | some f =>
      simp only [inL1,inL2,Option.some.injEq] at searched
      exact searched ▸ .copy inL1 inL2
    | none =>
      simp only [inL1,inL2] at searched
      obtain ⟨f,walked,same⟩ := Option.map_eq_some_iff.mp searched
      exact same ▸ .walk inL1 inL2 walked

/-- A search is undefined only where the page walk leaves the memory. -/
theorem tlb_search_total {mem : mem_space} {vaddr : virt_addr_t} (inside : (frame mem vaddr).isSome)
    (paddr : phy_addr_t) (access : mem_access_t) (s : tlbs) : ∃ r, tlb_search mem vaddr paddr access s = some r := by
  obtain ⟨f,walked⟩ := Option.isSome_iff_exists.mp inside
  rw [tlb_search_correct]
  cases lookup (view (l1 access s)) (page vaddr) with
  | some f => exact ⟨_,rfl⟩
  | none =>
    cases lookup (view s.l2_tlb) (page vaddr) with
    | some f => exact ⟨_,rfl⟩
    | none => rw [walked]; exact ⟨_,rfl⟩

/-! ### The invariant of the hierarchy -/

/-- L2 backs both L1s, and what it holds is what the page walk finds. -/
structure Invariant (mem : mem_space) (s : tlbs) : Prop where
  backed : ∀ access, Backed (view (l1 access s)) (view s.l2_tlb)
  sound : ∀ vaddr f, lookup (view s.l2_tlb) (page vaddr) = some f → frame mem vaddr = some f

/-- The three tables after `tlb_flush`. -/
def flushed : tlbs := ⟨(tlb_flush .L1_ITLB).2,(tlb_flush .L1_DTLB).2,(tlb_flush .L2_TLB).2⟩

theorem view_flushed (type : tlb_t) : view (tlb_flush type).2 = fun _ => none := rfl
theorem flushed_invariant (mem : mem_space) : Invariant mem flushed := by
  refine ⟨?_,?_⟩
  · intro access
    have empty : view (l1 access flushed) = fun _ => none := by cases access <;> exact view_flushed _
    rw [empty]
    exact DirectMapped.backed_empty _
  · intro vaddr f found
    rw [flushed,view_flushed] at found
    simp at found

theorem view_refill_l1 (access : mem_access_t) (vaddr : virt_addr_t) (f : BitVec 20) (s : tlbs) :
    view (l1 access (refill access (page vaddr) f s)) =
      DirectMapped.insert (view (l1 access s)) (page vaddr) f := by
  simp only [refill,l1_set_this,l1_set_same,view_fill _ (page_lt vaddr)]
theorem view_refill_other (access : mem_access_t) (vaddr : virt_addr_t) (f : BitVec 20) (s : tlbs) :
    view (l1 (other access) (refill access (page vaddr) f s)) =
      DirectMapped.invalidate (view (l1 (other access) s)) (fun key => key % 64 = page vaddr % 64) := by
  have small : page vaddr % 64 / 16 < 2 ^ 32 := by omega
  have msbIs : (BitVec.ofNat 32 (page vaddr % 64 / 16)).toNat = page vaddr % 64 / 16 := by
    rw [BitVec.toNat_ofNat,Nat.mod_eq_of_lt small]
  simp only [refill,l1_set_same,view_check_invalidate (l1_lines (other access)) _ _ msbIs]
theorem view_refill_l2 (access : mem_access_t) (vaddr : virt_addr_t) (f : BitVec 20) (s : tlbs) :
    view (refill access (page vaddr) f s).l2_tlb = DirectMapped.insert (view s.l2_tlb) (page vaddr) f := by
  simp only [refill,l2_set_l1,view_fill _ (page_lt vaddr)]

theorem l1_divides (access : mem_access_t) : lines (l1_type access) ∣ lines .L2_TLB := by
  rw [l1_lines]; exact ⟨4,rfl⟩
theorem access_cases (access any : mem_access_t) : any = access ∨ any = other access := by
  cases access <;> cases any <;> simp [other]

/-- Every move restores the invariant. -/
theorem move_invariant {mem : mem_space} {vaddr : virt_addr_t} {access : mem_access_t} {s : tlbs} {r : search_t}
    (inv : Invariant mem s) (move : Move mem vaddr access s r) : Invariant mem r.tlbs := by
  cases move with
  | stay held => exact inv
  | @copy f absent held =>
    refine ⟨?_,by simpa using inv.sound⟩
    intro any
    rcases access_cases access any with rfl | rfl
    · rw [l1_set_same,l2_set_l1,view_fill _ (page_lt vaddr)]
      exact (inv.backed any).copy held
    · rw [l1_set_other,l2_set_l1]
      exact inv.backed (other access)
  | @walk f absent missing walked =>
    refine ⟨?_,?_⟩
    · intro any
      rcases access_cases access any with rfl | rfl
      · rw [view_refill_l1,view_refill_l2]
        exact (inv.backed any).fill (l1_divides any) (page vaddr) f
      · rw [view_refill_other,view_refill_l2]
        exact (inv.backed (other access)).drop (page vaddr) f
    · intro sought found held
      rw [view_refill_l2] at held
      by_cases same : page sought = page vaddr
      · rw [same,DirectMapped.lookup_insert_same] at held
        rw [frame_of_page mem same,walked]
        exact held
      · rw [DirectMapped.lookup_insert_other _ _ same] at held
        split at held
        · cases held
        · exact inv.sound sought found held

/-- Under the invariant every move delivers what the page walk delivers. -/
theorem move_translates {mem : mem_space} {vaddr : virt_addr_t} {access : mem_access_t} {s : tlbs} {r : search_t}
    (inv : Invariant mem s) (move : Move mem vaddr access s r) (paddr : phy_addr_t) :
    r.code = .ERR_NONE ∧ page_walk mem vaddr paddr = some (.ERR_NONE,r.paddr) := by
  rw [page_walk_correct]
  cases move with
  | stay held => exact ⟨rfl,by rw [inv.sound vaddr _ (inv.backed access _ _ held),Option.map_some]⟩
  | copy absent held => exact ⟨rfl,by rw [inv.sound vaddr _ held,Option.map_some]⟩
  | walk absent missing walked => exact ⟨rfl,by rw [walked,Option.map_some]⟩

/-! ### Runs -/

/-- One call of `tlb_search`; `paddr` is what the caller's object holds before it. -/
structure call where
  vaddr : virt_addr_t
  access : mem_access_t
  paddr : phy_addr_t

/-- A call as a step on the tables. -/
def search (mem : mem_space) (s : tlbs) (c : call) : Option (search_t × tlbs) :=
  (tlb_search mem c.vaddr c.paddr c.access s).map (fun r => (r,r.tlbs))

theorem search_some {mem : mem_space} {s next : tlbs} {c : call} {r : search_t}
    (searched : search mem s c = some (r,next)) : Move mem c.vaddr c.access s r ∧ next = r.tlbs := by
  obtain ⟨found,executed,same⟩ := Option.map_eq_some_iff.mp searched
  cases same
  exact ⟨tlb_search_move executed,rfl⟩

/-- The invariant holds in every state a run reaches. -/
theorem reachable_invariant {mem : mem_space} {calls : List call} {results : List search_t} {s : tlbs}
    (ran : run (search mem) flushed calls = some (results,s)) : Invariant mem s := by
  refine Machine.run_invariant ?_ calls flushed s results (flushed_invariant mem) ran
  intro s c r next inv searched
  obtain ⟨move,rfl⟩ := search_some searched
  exact move_invariant inv move

/-- Calls whose page walks stay inside the memory. -/
def Inside (mem : mem_space) (calls : List call) : Prop := ∀ c ∈ calls, (page_walk mem c.vaddr c.paddr).isSome

/-- What a call has to answer: no error, and the address of the page walk. -/
def Translates (mem : mem_space) (c : call) (r : search_t) : Prop :=
  r.code = .ERR_NONE ∧ page_walk mem c.vaddr c.paddr = some (.ERR_NONE,r.paddr)

theorem run_translates {mem : mem_space} {calls : List call} (inside : Inside mem calls) :
    ∃ results s, run (search mem) flushed calls = some (results,s) ∧
      Answers (fun _ => Translates mem) [] calls results := by
  have total : ∀ (before : List call) (s : tlbs) (c : call), Invariant mem s →
      (page_walk mem c.vaddr c.paddr).isSome →
      ∃ r next, search mem s c = some (r,next) ∧ Invariant mem next ∧ Translates mem c r := by
    intro before s c inv walks
    rw [page_walk_isSome] at walks
    obtain ⟨r,searched⟩ := tlb_search_total walks c.paddr c.access s
    have move := tlb_search_move searched
    exact ⟨r,r.tlbs,by rw [search,searched,Option.map_some],move_invariant inv move,move_translates inv move c.paddr⟩
  obtain ⟨results,s,ran,_,answers⟩ := Machine.run_answers total calls [] flushed (flushed_invariant mem) inside
  exact ⟨results,s,ran,answers⟩

/-- The hierarchy is transparent: each call of a run delivers the translation of the page walk. -/
theorem hierarchy_transparent (mem : mem_space) (calls : List call) (inside : Inside mem calls) :
    ∃ results s, run (search mem) flushed calls = some (results,s) ∧ results.length = calls.length ∧
      ∀ (k : Nat) (c : call) (r : search_t), calls[k]? = some c → results[k]? = some r →
        r.code = .ERR_NONE ∧ page_walk mem c.vaddr c.paddr = some (.ERR_NONE,r.paddr) := by
  obtain ⟨results,s,ran,answers⟩ := run_translates inside
  obtain ⟨lengths,positions⟩ := Machine.answers_get answers
  exact ⟨results,s,ran,lengths,positions⟩

def zero_vaddr : virt_addr_t := ⟨0,0,0,0,0,0⟩
def zero_paddr : phy_addr_t := ⟨0,0⟩
/-- A miss and a hit in the other L1 on page 0. -/
def zero_calls : List call := [⟨zero_vaddr,.INSTRUCTION,zero_paddr⟩,⟨zero_vaddr,.DATA,zero_paddr⟩]

theorem zero_page_walks : (frame zero_mem zero_vaddr).isSome := by decide

theorem zero_calls_inside : Inside zero_mem zero_calls := by
  unfold Inside
  decide

theorem hierarchy_transparent_zero :
    ∃ results s, run (search zero_mem) flushed zero_calls = some (results,s) ∧ results.length = zero_calls.length ∧
      ∀ (k : Nat) (c : call) (r : search_t), zero_calls[k]? = some c → results[k]? = some r →
        r.code = .ERR_NONE ∧ page_walk zero_mem c.vaddr c.paddr = some (.ERR_NONE,r.paddr) :=
  hierarchy_transparent zero_mem zero_calls zero_calls_inside

/-- The page an L1 entry denotes is held by L2 in its own line, with the same frame. -/
def HeldByL2 {type : tlb_t} (i : Fin (lines type)) (entry : tlb_entry_t type) (l2_tlb : tlb .L2_TLB) : Prop :=
  let page_number := keyOf i entry.tag.toNat
  let backing := l2_tlb (line (lines .L2_TLB) page_number)
  backing.v = 1#1 ∧ backing.tag.toNat = page_number / lines .L2_TLB ∧ backing.phy_page_num = entry.phy_page_num

theorem view_some {type : tlb_t} {table : tlb type} {i : Fin (lines type)} {tag : Nat} {f : BitVec 20} :
    view table i = some (tag,f) ↔ (table i).v = 1#1 ∧ (table i).tag.toNat = tag ∧ (table i).phy_page_num = f := by
  unfold view
  by_cases valid : (table i).v = 1#1
  · simp [valid]
  · simp [valid]

theorem held_of_backed {type : tlb_t} {table : tlb type} {l2_tlb : tlb .L2_TLB}
    (backed : Backed (view table) (view l2_tlb)) {i : Fin (lines type)} (valid : (table i).v = 1#1) :
    HeldByL2 i (table i) l2_tlb := by
  have inView : view table i = some ((table i).tag.toNat,(table i).phy_page_num) := view_some.mpr ⟨valid,rfl,rfl⟩
  have found := backed _ _ (DirectMapped.lookup_keyOf inView)
  rw [DirectMapped.lookup_some,view_some] at found
  exact found

/-- Inclusion: in every state a run reaches, L2 holds what the valid L1 entries translate. -/
theorem hierarchy_inclusive (mem : mem_space) (calls : List call) (results : List search_t) (s : tlbs)
    (ran : run (search mem) flushed calls = some (results,s)) :
    (∀ i, (s.l1_itlb i).v = 1#1 → HeldByL2 i (s.l1_itlb i) s.l2_tlb) ∧
      ∀ i, (s.l1_dtlb i).v = 1#1 → HeldByL2 i (s.l1_dtlb i) s.l2_tlb := by
  have inv := reachable_invariant ran
  exact ⟨fun _ valid => held_of_backed (inv.backed .INSTRUCTION) valid,
    fun _ valid => held_of_backed (inv.backed .DATA) valid⟩

/-- Both L1s hold page 0 after the two calls. -/
theorem hierarchy_inclusive_zero : ∃ results s, run (search zero_mem) flushed zero_calls = some (results,s) ∧
    (∀ i, (s.l1_itlb i).v = 1#1 → HeldByL2 i (s.l1_itlb i) s.l2_tlb) ∧
      ∀ i, (s.l1_dtlb i).v = 1#1 → HeldByL2 i (s.l1_dtlb i) s.l2_tlb := by
  obtain ⟨results,s,ran,_⟩ := run_translates zero_calls_inside
  exact ⟨results,s,ran,hierarchy_inclusive zero_mem zero_calls results s ran⟩

/-! ### The hierarchy and a lone L2 -/

/-- A standalone table of 64 lines: it hits when the line of the page holds that
    page, and otherwise refills that line. It answers with the hit flag and its contents. -/
def lone_search (mem : mem_space) (table : tlb .L2_TLB) (vaddr : virt_addr_t) :
    Option ((Bool × tlb .L2_TLB) × tlb .L2_TLB) :=
  let index : Fin (lines .L2_TLB) := line (lines .L2_TLB) (page vaddr)
  if (table index).v = 1#1 ∧ (table index).tag.toNat = page vaddr / lines .L2_TLB then some ((true,table),table)
  else (frame mem vaddr).map (fun f =>
    let refilled : tlb .L2_TLB := Function.update table index
      { tag := BitVec.ofNat (tag_size .L2_TLB) (page vaddr / lines .L2_TLB), phy_page_num := f, v := 1#1 }
    ((false,refilled),refilled))

/-- The hit flag and the L2 contents that a call shows. -/
def l2_trace (r : search_t) : Bool × tlb .L2_TLB := (r.hit_or_miss,r.tlbs.l2_tlb)

theorem lone_search_correct (mem : mem_space) (table : tlb .L2_TLB) (vaddr : virt_addr_t) :
    lone_search mem table vaddr =
      match lookup (view table) (page vaddr) with
      | some _ => some ((true,table),table)
      | none => (frame mem vaddr).map (fun f => ((false,fill (page vaddr) f table),fill (page vaddr) f table)) := by
  cases found : lookup (view table) (page vaddr) with
  | some f =>
    rw [DirectMapped.lookup_some,view_some] at found
    exact if_pos ⟨found.1,found.2.1⟩
  | none =>
    refine if_neg ?_
    rintro ⟨valid,sameTag⟩
    have held := (DirectMapped.lookup_some (view table) (page vaddr) _).mpr (view_some.mpr ⟨valid,sameTag,rfl⟩)
    rw [held] at found
    cases found

/-- The hierarchy and a lone table in step: the tables of L2 are the same. -/
def Lockstep (mem : mem_space) (s : tlbs) (table : tlb .L2_TLB) : Prop := Invariant mem s ∧ s.l2_tlb = table

/-- A call and a lone search move together while L2 backs both L1s. -/
theorem search_lone {mem : mem_space} {s : tlbs} {table : tlb .L2_TLB} {c : call} (related : Lockstep mem s table) :
    Agree (fun a b => l2_trace a.1 = b.1 ∧ Lockstep mem a.2 b.2) (search mem s c)
      (lone_search mem table c.vaddr) := by
  obtain ⟨inv,rfl⟩ := related
  rw [lone_search_correct]
  cases searched : tlb_search mem c.vaddr c.paddr c.access s with
  | none =>
    rw [tlb_search_correct] at searched
    cases inL1 : lookup (view (l1 c.access s)) (page c.vaddr) with
    | some f => simp [inL1] at searched
    | none =>
      cases inL2 : lookup (view s.l2_tlb) (page c.vaddr) with
      | some f => simp [inL1,inL2] at searched
      | none =>
        simp only [inL1,inL2,Option.map_eq_none_iff] at searched
        simp [search,tlb_search_correct,inL1,inL2,searched,Agree]
  | some r =>
    have move := tlb_search_move searched
    have restored := move_invariant inv move
    simp only [search,searched,Option.map_some]
    cases move with
    | stay held =>
      rw [inv.backed c.access _ _ held]
      exact ⟨rfl,restored,rfl⟩
    | copy absent held =>
      rw [held]
      exact ⟨by rw [l2_trace,l2_set_l1],restored,by rw [l2_set_l1]⟩
    | walk absent missing walked =>
      rw [missing,walked]
      exact ⟨by rw [l2_trace,refill,l2_set_l1,l2_set_l1],restored,by rw [refill,l2_set_l1,l2_set_l1]⟩

/-- The calls with other kinds of access, given by position. -/
def with_accesses (kinds : Nat → mem_access_t) (calls : List call) : List call :=
  calls.mapIdx (fun k c => { c with access := kinds k })

theorem vaddrs_with_accesses (kinds : Nat → mem_access_t) (calls : List call) :
    (with_accesses kinds calls).map call.vaddr = calls.map call.vaddr := by
  apply List.ext_getElem?
  intro k
  rw [with_accesses,List.getElem?_map,List.getElem?_mapIdx,List.getElem?_map,Option.map_map]
  rfl

/-- Hits, misses and L2 contents of every run are those of the lone table, and
    so do not depend on the kinds of access. -/
theorem hierarchy_as_lone_l2 (mem : mem_space) (calls : List call) :
    (run (search mem) flushed calls).map (fun after => after.1.map l2_trace) =
      (run (lone_search mem) (tlb_flush .L2_TLB).2 (calls.map call.vaddr)).map Prod.fst ∧
    ∀ kinds : Nat → mem_access_t,
      (run (search mem) flushed (with_accesses kinds calls)).map (fun after => after.1.map l2_trace) =
        (run (search mem) flushed calls).map (fun after => after.1.map l2_trace) := by
  have lone : ∀ cs : List call, (run (search mem) flushed cs).map (fun after => after.1.map l2_trace) =
      (run (lone_search mem) (tlb_flush .L2_TLB).2 (cs.map call.vaddr)).map Prod.fst := by
    intro cs
    have together := Machine.run_simulates call.vaddr l2_trace
      (fun s table c (related : Lockstep mem s table) => search_lone related) cs flushed
      (tlb_flush .L2_TLB).2 ⟨flushed_invariant mem,rfl⟩
    exact Machine.agree_map (fun a b related => related.1) together
  refine ⟨lone calls,?_⟩
  intro kinds
  rw [lone (with_accesses kinds calls),lone calls,vaddrs_with_accesses]

end CacheEmulator.TlbHrchyRuns
