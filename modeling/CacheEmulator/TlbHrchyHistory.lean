import CacheEmulator.History
import CacheEmulator.TlbHrchyEffects

/-!
The hierarchy of TLBs told by its history. Searches may find the memory changed
since the last one, and each table may be flushed on its own, so that L2 need no
longer back the L1s. What every table holds is still settled by the events so
far, and a hit repeats the latest answer for its page.
-/
namespace CacheEmulator.TlbHrchyHistory
open CacheEmulator.Error CacheEmulator.Memory CacheEmulator.Addr CacheEmulator.PageWalk CacheEmulator.TlbHrchy
open CacheEmulator.TlbHrchyRuns CacheEmulator.TlbHrchyEffects CacheEmulator.History
open CacheEmulator.DirectMapped (lookup)
open CacheEmulator.Machine (run)

/-! ### Events -/

/-- A search in the memory there is then, or the flush of one table. -/
inductive event
  | search (mem : mem_space) (call : call)
  | flush (type : tlb_t)

def flush (type : tlb_t) (s : tlbs) : tlbs :=
  match type with
  | .L1_ITLB => { s with l1_itlb := (tlb_flush .L1_ITLB).2 }
  | .L1_DTLB => { s with l1_dtlb := (tlb_flush .L1_DTLB).2 }
  | .L2_TLB => { s with l2_tlb := (tlb_flush .L2_TLB).2 }

/-- A search gives its result, a flush none. -/
def step (s : tlbs) : event → Option (Option search_t × tlbs)
  | .search mem call => (search mem s call).map (fun found => (some found.1,found.2))
  | .flush type => some (none,flush type s)

/-- An event and its result. -/
abbrev occurrence := event × Option search_t

/-- A search for the page, for the given access. -/
def Searched (access : mem_access_t) (page_number : Nat) : occurrence → Prop
  | (.search _ call,_) => call.access = access ∧ page call.vaddr = page_number
  | (.flush _,_) => False

/-- A search that missed, for a page with the property. -/
def Missed (pages : Nat → Prop) : occurrence → Prop
  | (.search _ call,some r) => r.hit_or_miss = false ∧ pages (page call.vaddr)
  | _ => False

def Flushed (type : tlb_t) : occurrence → Prop
  | (.search _ _,_) => False
  | (.flush flushed,_) => flushed = type

/-- What removes a page from L1: a miss in its L2 line, another page for its L1 line, or a flush. -/
def EvictedL1 (access : mem_access_t) (page_number : Nat) (o : occurrence) : Prop :=
  Missed (fun other => other % 64 = page_number % 64) o ∨
    (∃ other, other ≠ page_number ∧ other % 16 = page_number % 16 ∧ Searched access other o) ∨
    Flushed (l1_type access) o

/-- What removes a page from L2: a miss in its line, or a flush. -/
def EvictedL2 (page_number : Nat) (o : occurrence) : Prop :=
  Missed (fun other => other % 64 = page_number % 64) o ∨ Flushed .L2_TLB o

/-- The frame that a search answers for the page. -/
def answered (page_number : Nat) : occurrence → Option (BitVec 20)
  | (.search _ call,some r) => if page call.vaddr = page_number then some r.paddr.phy_page_num else none
  | _ => none

/-- Some table translates the page to the frame. -/
def Holds (s : tlbs) (page_number : Nat) (f : BitVec 20) : Prop :=
  (∃ access, lookup (view (l1 access s)) page_number = some f) ∨ lookup (view s.l2_tlb) page_number = some f

/-- The tables as the history has left them. -/
structure Recorded (history : List occurrence) (s : tlbs) : Prop where
  first_level : ∀ access page_number, (lookup (view (l1 access s)) page_number).isSome ↔
    Since (Searched access page_number) (EvictedL1 access page_number) history
  second_level : ∀ page_number, (lookup (view s.l2_tlb) page_number).isSome ↔
    Since (Missed (fun other => other = page_number)) (EvictedL2 page_number) history
  frames : ∀ page_number f, Holds s page_number f → latest (answered page_number) history = some f

theorem flushed_recorded : Recorded [] flushed := by
  have empty : ∀ access page_number, lookup (view (l1 access flushed)) page_number = none := by
    intro access page_number
    cases access <;> rfl
  refine ⟨?_,?_,?_⟩
  · intro access page_number
    simp [empty,not_since_nil]
  · intro page_number
    simp [flushed,view_flushed,not_since_nil]
  · rintro page_number f (⟨access,held⟩ | held)
    · simp [empty] at held
    · simp [flushed,view_flushed] at held

/-! ### What one search does to what the tables hold -/

section
variable {mem : mem_space} {vaddr : virt_addr_t} {access : mem_access_t} {s : tlbs} {r : search_t}

theorem l1_insert_isSome (any : mem_access_t) (s : tlbs) (key n : Nat) (f : BitVec 20) :
    (lookup (DirectMapped.insert (view (l1 any s)) key f) n).isSome ↔
      key = n ∨ (lookup (view (l1 any s)) n).isSome ∧ key % 16 ≠ n % 16 := by
  cases any with
  | INSTRUCTION => exact DirectMapped.lookup_insert_isSome (view s.l1_itlb) key f n
  | DATA => exact DirectMapped.lookup_insert_isSome (view s.l1_dtlb) key f n

theorem l1_unique (any : mem_access_t) (s : tlbs) {left right : Nat} (foundLeft : (lookup (view (l1 any s)) left).isSome)
    (foundRight : (lookup (view (l1 any s)) right).isSome) (sameLine : left % 16 = right % 16) : left = right := by
  cases any with
  | INSTRUCTION => exact DirectMapped.lookup_unique foundLeft foundRight sameLine
  | DATA => exact DirectMapped.lookup_unique foundLeft foundRight sameLine

theorem move_first_level (move : Move mem vaddr access s r) (any : mem_access_t) (n : Nat) :
    (lookup (view (l1 any r.tlbs)) n).isSome ↔ access = any ∧ page vaddr = n ∨
      (lookup (view (l1 any s)) n).isSome ∧ ¬ ((r.hit_or_miss = false ∧ page vaddr % 64 = n % 64) ∨
        (access = any ∧ page vaddr ≠ n ∧ page vaddr % 16 = n % 16)) := by
  rcases access_cases access any with rfl | rfl
  · cases move with
    | stay held =>
      have alone : (lookup (view (l1 any s)) n).isSome → page vaddr % 16 = n % 16 → page vaddr = n :=
        l1_unique any s (Option.isSome_of_eq_some held)
      by_cases here : page vaddr = n
      · simp [← here,held]
      · simp only [here,and_false,false_or,Bool.true_eq_false,false_and,ne_eq,not_false_eq_true,true_and]
        exact ⟨fun found => ⟨found,fun same => here (alone found same)⟩,And.left⟩
    | @copy f _ _ =>
      rw [l1_set_same,view_fill _ (page_lt vaddr),l1_insert_isSome]
      by_cases here : page vaddr = n
      · simp [here]
      · simp [here]
    | @walk f _ _ _ =>
      rw [view_refill_l1,l1_insert_isSome]
      by_cases here : page vaddr = n
      · simp [here]
      · simp only [here,false_or,and_false,true_and,ne_eq,not_false_eq_true]
        refine and_congr_right (fun _ => ?_)
        omega
  · have different : access ≠ other access := by cases access <;> decide
    cases move with
    | stay held => simp [different]
    | copy _ _ => simp [different]
    | walk _ _ _ =>
      rw [view_refill_other,DirectMapped.lookup_invalidate]
      by_cases same : page vaddr % 64 = n % 64
      · simp [same,different]
      · simp [same,Ne.symm same,different]

theorem move_second_level (move : Move mem vaddr access s r) (n : Nat) :
    (lookup (view r.tlbs.l2_tlb) n).isSome ↔ (r.hit_or_miss = false ∧ page vaddr = n) ∨
      (lookup (view s.l2_tlb) n).isSome ∧ ¬ (r.hit_or_miss = false ∧ page vaddr % 64 = n % 64) := by
  cases move with
  | stay held => simp
  | copy _ _ => simp
  | walk _ _ _ =>
    rw [view_refill_l2,DirectMapped.lookup_insert_isSome]
    simp [show lines .L2_TLB = 64 from rfl]

/-- Whatever a table holds after a search it held before, or it is the answer. -/
theorem move_holds (move : Move mem vaddr access s r) {n : Nat} {f : BitVec 20} (holds : Holds r.tlbs n f) :
    (page vaddr = n ∧ r.paddr.phy_page_num = f) ∨ Holds s n f ∧ (r.hit_or_miss = false → page vaddr ≠ n) := by
  cases move with
  | stay held => exact .inr ⟨holds,by simp⟩
  | @copy g absent held =>
    refine .inr ⟨?_,by simp⟩
    rcases holds with ⟨any,found⟩ | found
    · rcases access_cases access any with rfl | rfl
      · rw [l1_set_same,view_fill _ (page_lt vaddr)] at found
        by_cases here : n = page vaddr
        · subst here
          rw [DirectMapped.lookup_insert_same] at found
          cases found
          exact .inr held
        · rw [DirectMapped.lookup_insert_other _ _ here] at found
          split at found
          · cases found
          · exact .inl ⟨any,found⟩
      · rw [l1_set_other] at found
        exact .inl ⟨other access,found⟩
    · rw [l2_set_l1] at found
      exact .inr found
  | @walk g absent missing walked =>
    by_cases here : n = page vaddr
    · subst here
      left
      refine ⟨rfl,?_⟩
      rcases holds with ⟨any,found⟩ | found
      · rcases access_cases access any with rfl | rfl
        · rw [view_refill_l1,DirectMapped.lookup_insert_same] at found
          exact Option.some.inj found
        · rw [view_refill_other,DirectMapped.lookup_invalidate,if_pos rfl] at found
          cases found
      · rw [view_refill_l2,DirectMapped.lookup_insert_same] at found
        exact Option.some.inj found
    · refine .inr ⟨?_,fun _ same => here same.symm⟩
      rcases holds with ⟨any,found⟩ | found
      · rcases access_cases access any with rfl | rfl
        · rw [view_refill_l1,DirectMapped.lookup_insert_other _ _ here] at found
          split at found
          · cases found
          · exact .inl ⟨any,found⟩
        · rw [view_refill_other,DirectMapped.lookup_invalidate] at found
          split at found
          · cases found
          · exact .inl ⟨other access,found⟩
      · rw [view_refill_l2,DirectMapped.lookup_insert_other _ _ here] at found
        split at found
        · cases found
        · exact .inr found

/-- A hit answers with what some table held; a miss with the page walk. -/
theorem move_answer (move : Move mem vaddr access s r) :
    r.code = .ERR_NONE ∧ r.paddr.page_offset = vaddr.page_offset ∧
      if r.hit_or_miss then Holds s (page vaddr) r.paddr.phy_page_num
      else frame mem vaddr = some r.paddr.phy_page_num := by
  cases move with
  | stay held => exact ⟨rfl,rfl,.inl ⟨access,held⟩⟩
  | copy absent held => exact ⟨rfl,rfl,.inr held⟩
  | walk absent missing walked => exact ⟨rfl,rfl,walked⟩

end

/-! ### Runs of events -/

/-- What a search answers after a history. It hits when its L1 or L2 has kept the page,
    and then repeats the latest answer for it; otherwise it walks the memory there is now. -/
def Answered (history : List occurrence) : event → Option search_t → Prop
  | .search mem call, some r => r.code = .ERR_NONE ∧ r.paddr.page_offset = call.vaddr.page_offset ∧
      (r.hit_or_miss = true ↔
        Since (Searched call.access (page call.vaddr)) (EvictedL1 call.access (page call.vaddr)) history ∨
          Since (Missed (fun other => other = page call.vaddr)) (EvictedL2 (page call.vaddr)) history) ∧
      if r.hit_or_miss then latest (answered (page call.vaddr)) history = some r.paddr.phy_page_num
      else frame mem call.vaddr = some r.paddr.phy_page_num
  | .search _ _, none => False
  | .flush _, o => o = none

theorem move_hits {mem : mem_space} {vaddr : virt_addr_t} {access : mem_access_t} {s : tlbs} {r : search_t}
    (move : Move mem vaddr access s r) : r.hit_or_miss = true ↔
      (lookup (view (l1 access s)) (page vaddr)).isSome ∨ (lookup (view s.l2_tlb) (page vaddr)).isSome := by
  cases move with
  | stay held => simp [held]
  | copy absent held => simp [held]
  | walk absent missing _ => simp [absent,missing]

theorem search_recorded {history : List occurrence} {mem : mem_space} {call : call} {s : tlbs} {r : search_t}
    (recorded : Recorded history s) (move : Move mem call.vaddr call.access s r) :
    Recorded (history ++ [(.search mem call,some r)]) r.tlbs ∧ Answered history (.search mem call) (some r) := by
  refine ⟨⟨?_,?_,?_⟩,?_⟩
  · intro any n
    rw [since_concat,← recorded.first_level,move_first_level move]
    refine or_congr Iff.rfl (and_congr_right (fun _ => not_congr ?_))
    simp only [EvictedL1,Missed,Searched,Flushed,or_false]
    refine or_congr Iff.rfl ⟨?_,?_⟩
    · rintro ⟨same,different,together⟩
      exact ⟨page call.vaddr,different,together,same,rfl⟩
    · rintro ⟨other,different,together,same,rfl⟩
      exact ⟨same,different,together⟩
  · intro n
    rw [since_concat,← recorded.second_level,move_second_level move]
    simp only [EvictedL2,Missed,Flushed,or_false]
  · intro n f holds
    rw [latest_concat,answered]
    by_cases here : page call.vaddr = n
    · rw [if_pos here,Option.some_or]
      rcases move_holds move holds with ⟨_,same⟩ | ⟨before,missed⟩
      · rw [same]
      · -- The page was held before, so the search hit and repeated what was held.
        have hit : r.hit_or_miss = true := by
          cases flag : r.hit_or_miss with
          | true => rfl
          | false => exact absurd here (missed flag)
        obtain ⟨_,_,repeated⟩ := move_answer move
        rw [if_pos hit,here] at repeated
        exact (recorded.frames n _ repeated).symm.trans (recorded.frames n f before)
    · rw [if_neg here,Option.none_or]
      rcases move_holds move holds with ⟨same,_⟩ | ⟨before,_⟩
      · exact absurd same here
      · exact recorded.frames n f before
  · obtain ⟨code,offset,answer⟩ := move_answer move
    refine ⟨code,offset,?_,?_⟩
    · rw [← recorded.first_level,← recorded.second_level]
      exact move_hits move
    · by_cases hit : r.hit_or_miss = true
      · rw [if_pos hit] at answer ⊢
        exact recorded.frames _ _ answer
      · rw [if_neg hit] at answer ⊢
        exact answer

theorem flush_l1 (type : tlb_t) (s : tlbs) (access : mem_access_t) (n : Nat) :
    lookup (view (l1 access (flush type s))) n = if type = l1_type access then none else lookup (view (l1 access s)) n := by
  cases type <;> cases access <;> rfl
theorem flush_l2 (type : tlb_t) (s : tlbs) (n : Nat) :
    lookup (view (flush type s).l2_tlb) n = if type = .L2_TLB then none else lookup (view s.l2_tlb) n := by
  cases type <;> rfl

theorem flush_recorded {history : List occurrence} {s : tlbs} (recorded : Recorded history s) (type : tlb_t) :
    Recorded (history ++ [(.flush type,none)]) (flush type s) := by
  refine ⟨?_,?_,?_⟩
  · intro access n
    rw [since_concat,← recorded.first_level,flush_l1]
    by_cases here : type = l1_type access
    · simp [here,EvictedL1,Searched,Missed,Flushed]
    · simp [here,EvictedL1,Searched,Missed,Flushed]
  · intro n
    rw [since_concat,← recorded.second_level,flush_l2]
    by_cases here : type = .L2_TLB
    · simp [here,EvictedL2,Missed,Flushed]
    · simp [here,EvictedL2,Missed,Flushed]
  · intro n f holds
    have silent : answered n (.flush type,none) = none := rfl
    rw [latest_concat,silent,Option.none_or]
    refine recorded.frames n f ?_
    rcases holds with ⟨access,held⟩ | held
    · rw [flush_l1] at held
      split at held
      · cases held
      · exact .inl ⟨access,held⟩
    · rw [flush_l2] at held
      split at held
      · cases held
      · exact .inr held

theorem step_search {s next : tlbs} {mem : mem_space} {call : call} {o : Option search_t}
    (stepped : step s (.search mem call) = some (o,next)) :
    ∃ r, o = some r ∧ next = r.tlbs ∧ Move mem call.vaddr call.access s r := by
  obtain ⟨⟨r,after⟩,searched,same⟩ := Option.map_eq_some_iff.mp stepped
  cases same
  obtain ⟨move,rfl⟩ := search_some searched
  exact ⟨r,rfl,rfl,move⟩

theorem step_recorded {history : List occurrence} {s next : tlbs} {e : event} {o : Option search_t}
    (recorded : Recorded history s) (stepped : step s e = some (o,next)) :
    Recorded (history ++ [(e,o)]) next ∧ Answered history e o := by
  cases e with
  | search mem call =>
    obtain ⟨r,rfl,rfl,move⟩ := step_search stepped
    exact search_recorded recorded move
  | flush type =>
    cases stepped
    exact ⟨flush_recorded recorded type,rfl⟩

theorem run_recorded {events : List event} {results : List (Option search_t)} {s : tlbs}
    (ran : run step flushed events = some (results,s)) :
    Recorded (events.zip results) s ∧ results.length = events.length ∧
      ∀ (k : Nat) (e : event) (o : Option search_t), events[k]? = some e → results[k]? = some o →
        Answered ((events.zip results).take k) e o := by
  have kept : ∀ (before : List occurrence) (s : tlbs) (e : event) (o : Option search_t) (next : tlbs),
      Recorded before s → step s e = some (o,next) → Recorded (before ++ [(e,o)]) next ∧ Answered before e o :=
    fun _ _ _ _ _ recorded stepped => step_recorded recorded stepped
  simpa using Machine.run_records kept events [] flushed s results flushed_recorded ran

/-- Events whose searches find their page in the memory there is then. -/
def Walks : event → Prop
  | .search mem call => (frame mem call.vaddr).isSome
  | .flush _ => True

theorem run_total {events : List event} (walks : ∀ e ∈ events, Walks e) :
    ∃ results s, run step flushed events = some (results,s) := by
  have total : ∀ (_ : List event) (s : tlbs) (e : event), True → Walks e →
      ∃ o next, step s e = some (o,next) ∧ True ∧ True := by
    intro _ s e _ walk
    cases e with
    | search mem call =>
      obtain ⟨r,searched⟩ := tlb_search_total walk call.paddr call.access s
      exact ⟨some r,r.tlbs,by simp only [step,search,searched,Option.map_some],trivial,trivial⟩
    | flush type => exact ⟨none,flush type s,rfl,trivial,trivial⟩
  obtain ⟨results,s,ran,_⟩ := @Machine.run_answers _ _ _ step Walks (fun _ _ => True) (fun _ _ _ => True) total events []
    flushed trivial walks
  exact ⟨results,s,ran⟩

/-- Exact contents: after any searches and flushes of single tables, whatever the memory
    did meanwhile, a table holds just the pages that came in and were not removed since. -/
theorem contents_by_history {events : List event} {results : List (Option search_t)} {s : tlbs}
    (ran : run step flushed events = some (results,s)) :
    (∀ access page_number, (lookup (view (l1 access s)) page_number).isSome ↔
      Since (Searched access page_number) (EvictedL1 access page_number) (events.zip results)) ∧
    ∀ page_number, (lookup (view s.l2_tlb) page_number).isSome ↔
      Since (Missed (fun other => other = page_number)) (EvictedL2 page_number) (events.zip results) :=
  ⟨(run_recorded ran).1.first_level,(run_recorded ran).1.second_level⟩

/-- A walk, the flush of L2 alone, and a search for the same page that walks again although the first L1 holds it. -/
def zero_events : List event :=
  [.search zero_mem ⟨zero_vaddr,.INSTRUCTION,zero_paddr⟩,.flush .L2_TLB,.search zero_mem ⟨zero_vaddr,.DATA,zero_paddr⟩]

theorem zero_events_walk : ∀ e ∈ zero_events, Walks e := by
  intro e member
  simp only [zero_events,List.mem_cons,List.not_mem_nil,or_false] at member
  rcases member with rfl | rfl | rfl
  · exact zero_page_walks
  · trivial
  · exact zero_page_walks

theorem contents_by_history_zero : ∃ results s, run step flushed zero_events = some (results,s) ∧
    (∀ access page_number, (lookup (view (l1 access s)) page_number).isSome ↔
      Since (Searched access page_number) (EvictedL1 access page_number) (zero_events.zip results)) ∧
    ∀ page_number, (lookup (view s.l2_tlb) page_number).isSome ↔
      Since (Missed (fun other => other = page_number)) (EvictedL2 page_number) (zero_events.zip results) := by
  obtain ⟨results,s,ran⟩ := run_total zero_events_walk
  exact ⟨results,s,ran,contents_by_history ran⟩

/-- Every answer is accounted for: a hit repeats the latest answer for its page, and a miss
    gives the translation of the memory at that time. -/
theorem answers_by_history {events : List event} {results : List (Option search_t)} {s : tlbs}
    (ran : run step flushed events = some (results,s)) : results.length = events.length ∧
      ∀ (k : Nat) (e : event) (o : Option search_t), events[k]? = some e → results[k]? = some o →
        Answered ((events.zip results).take k) e o :=
  (run_recorded ran).2

theorem answers_by_history_zero : ∃ results s, run step flushed zero_events = some (results,s) ∧
    results.length = zero_events.length ∧
      ∀ (k : Nat) (e : event) (o : Option search_t), zero_events[k]? = some e → results[k]? = some o →
        Answered ((zero_events.zip results).take k) e o := by
  obtain ⟨results,s,ran⟩ := run_total zero_events_walk
  exact ⟨results,s,ran,answers_by_history ran⟩

/-! ### Runs of searches alone -/

/-- A search, in the memory there is then. -/
def search_of (input : mem_space × call) : event := .search input.1 input.2

/-- Without flushes L2 holds the pages of both L1s, and of every line the page searched for last. -/
structure Kept (history : List (mem_space × call)) (s : tlbs) : Prop where
  inclusive : ∀ access n, (lookup (view (l1 access s)) n).isSome → (lookup (view s.l2_tlb) n).isSome
  last_of_line : ∀ n, (lookup (view s.l2_tlb) n).isSome ↔
    Since (fun i => page i.2.vaddr = n) (fun i => page i.2.vaddr ≠ n ∧ page i.2.vaddr % 64 = n % 64) history

theorem flushed_kept : Kept [] flushed := by
  refine ⟨?_,?_⟩
  · intro access n found
    cases access <;> cases found
  · intro n
    simp [flushed,view_flushed,not_since_nil]

theorem search_kept {history : List (mem_space × call)} {s : tlbs} {r : search_t} {i : mem_space × call}
    (kept : Kept history s) (move : Move i.1 i.2.vaddr i.2.access s r) :
    Kept (history ++ [i]) r.tlbs ∧ (r.hit_or_miss = true ↔ (lookup (view s.l2_tlb) (page i.2.vaddr)).isSome) := by
  have hits : r.hit_or_miss = true ↔ (lookup (view s.l2_tlb) (page i.2.vaddr)).isSome := by
    rw [move_hits move]
    exact ⟨fun found => found.elim (kept.inclusive _ _) id,Or.inr⟩
  have second := move_second_level move
  refine ⟨⟨?_,?_⟩,hits⟩
  · intro any n found
    rw [second]
    cases flag : r.hit_or_miss with
    | false =>
      rcases (move_first_level move any n).mp found with ⟨_,here⟩ | ⟨before,stayed⟩
      · exact .inl ⟨rfl,here⟩
      · exact .inr ⟨kept.inclusive any n before,fun lost => stayed (.inl ⟨flag,lost.2⟩)⟩
    | true =>
      refine .inr ⟨?_,by simp⟩
      rcases (move_first_level move any n).mp found with ⟨_,here⟩ | ⟨before,_⟩
      · exact here ▸ hits.mp flag
      · exact kept.inclusive any n before
  · intro n
    rw [since_concat,second,← kept.last_of_line]
    by_cases here : page i.2.vaddr = n
    · cases flag : r.hit_or_miss with
      | false => simp [here]
      | true =>
        have held : (lookup (view s.l2_tlb) n).isSome := here ▸ hits.mp flag
        simp [here,held]
    · cases flag : r.hit_or_miss with
      | false => simp [here]
      | true =>
        have alone : (lookup (view s.l2_tlb) n).isSome → page i.2.vaddr % 64 = n % 64 → page i.2.vaddr = n :=
          DirectMapped.lookup_unique (hits.mp flag)
        simp only [here,and_false,false_or,Bool.true_eq_false,false_and,not_false_eq_true,and_true,ne_eq,true_and]
        exact ⟨fun found => ⟨found,fun same => here (alone found same)⟩,And.left⟩

/-- A search hits just when the last search in the L2 line of its page was for that page,
    whatever kinds of access the searches had and however the memory changed between them. -/
theorem hits_by_history {inputs : List (mem_space × call)} {results : List (Option search_t)} {s : tlbs}
    (ran : run step flushed (inputs.map search_of) = some (results,s)) :
    ∀ (k : Nat) (i : mem_space × call) (r : search_t), inputs[k]? = some i → results[k]? = some (some r) →
      (r.hit_or_miss = true ↔ Since (fun j => page j.2.vaddr = page i.2.vaddr)
        (fun j => page j.2.vaddr ≠ page i.2.vaddr ∧ page j.2.vaddr % 64 = page i.2.vaddr % 64) (inputs.take k)) := by
  have kept : ∀ (before : List (mem_space × call)) (s : tlbs) (i : mem_space × call) (o : Option search_t) (next : tlbs),
      Kept before s → step s (search_of i) = some (o,next) → Kept (before ++ [i]) next ∧ ∀ r, o = some r →
        (r.hit_or_miss = true ↔ Since (fun j => page j.2.vaddr = page i.2.vaddr)
          (fun j => page j.2.vaddr ≠ page i.2.vaddr ∧ page j.2.vaddr % 64 = page i.2.vaddr % 64) before) := by
    intro before s i o next kept stepped
    obtain ⟨r,rfl,rfl,move⟩ := step_search stepped
    obtain ⟨restored,hits⟩ := search_kept kept move
    refine ⟨restored,?_⟩
    intro found same
    cases same
    rw [hits,kept.last_of_line]
  rw [Machine.run_map] at ran
  obtain ⟨_,positions⟩ := Machine.answers_get (Machine.run_keeps kept inputs [] flushed s results flushed_kept ran).2
  intro k i r input result
  exact positions k i (some r) input result r rfl

/-- The two searches of page 0, in a memory that is the same and with either access. -/
theorem hits_by_history_zero : ∃ results s,
    run step flushed ((zero_calls.map (fun c => (zero_mem,c))).map search_of) = some (results,s) ∧
    ∀ (k : Nat) (i : mem_space × call) (r : search_t), (zero_calls.map (fun c => (zero_mem,c)))[k]? = some i →
      results[k]? = some (some r) →
      (r.hit_or_miss = true ↔ Since (fun j => page j.2.vaddr = page i.2.vaddr)
        (fun j => page j.2.vaddr ≠ page i.2.vaddr ∧ page j.2.vaddr % 64 = page i.2.vaddr % 64)
        ((zero_calls.map (fun c => (zero_mem,c))).take k)) := by
  have walks : ∀ e ∈ (zero_calls.map (fun c => (zero_mem,c))).map search_of, Walks e := by
    intro e member
    simp only [zero_calls,List.map_cons,List.map_nil,List.mem_cons,List.not_mem_nil,or_false] at member
    rcases member with rfl | rfl
    · exact zero_page_walks
    · exact zero_page_walks
  obtain ⟨results,s,ran⟩ := run_total walks
  exact ⟨results,s,ran,hits_by_history ran⟩

end CacheEmulator.TlbHrchyHistory
