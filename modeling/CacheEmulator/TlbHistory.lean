import CacheEmulator.History
import CacheEmulator.TlbPlain

/-!
The fully associative TLB told by its history. A search may find the memory
changed since the last one, and the table may be flushed at any time, which
leaves the order of replacement as it was. The table holds the pages of the most
recent answers since the last flush, and a hit repeats the latest of them.
-/
namespace CacheEmulator.TlbHistory
open CacheEmulator.Error CacheEmulator.Memory CacheEmulator.Addr CacheEmulator.PageWalk CacheEmulator.LinkedList
open CacheEmulator.Tlb CacheEmulator.Recency CacheEmulator.TlbRuns CacheEmulator.TlbPlain CacheEmulator.History
open CacheEmulator.Machine (run Agree)

/-! ### Events -/

/-- A search in the memory there is then, or a flush of the table. -/
inductive event
  | search (mem : mem_space) (call : call)
  | flush

/-- A search gives its result, a flush none. -/
def step (c : state) : event → Option (Option search_t × state)
  | .search mem call => (search mem c call).map (fun found => (some found.1,found.2))
  | .flush => some (none,{ c with tlb := tlb_flush.2 })

/-- An event and its result. -/
abbrev occurrence := event × Option search_t

/-- A page and the frame that was answered for it. -/
abbrev answer := Nat × BitVec 20

def note (answers : List answer) : occurrence → List answer
  | (.search _ call,some r) => answers ++ [(page call.vaddr,r.paddr.phy_page_num)]
  | (.search _ _,none) => answers
  | (.flush,_) => []

/-- The answers since the last flush. -/
def answers (history : List occurrence) : List answer := history.foldl note []

/-- The frame of an answer for the page. -/
def frame_for (page_number : Nat) (a : answer) : Option (BitVec 20) := if a.1 = page_number then some a.2 else none

/-! ### What the plain TLB holds -/

/-- The lines not in use, and behind them those of the most recent answers, the oldest first. -/
structure Recorded (log : List answer) (s : plain) (free used : List (Fin TLB_LINES)) : Prop where
  order : s.order.lines = free ++ used
  unused : ∀ i ∈ free, (s.tlb i).v = 0#1
  valid : ∀ i ∈ used, (s.tlb i).v = 1#1
  recent : used.map (fun i => (s.tlb i).tag.toNat) = mostRecent TLB_LINES (log.map Prod.fst)
  frames : ∀ i ∈ used, latest (frame_for (s.tlb i).tag.toNat) log = some (s.tlb i).phy_page_num

section
variable {log : List answer} {s : plain} {free used : List (Fin TLB_LINES)}

/-- A flushed table holds nothing, in whatever order its lines are. -/
theorem flush_recorded (order : order_t) : Recorded [] ⟨tlb_flush.2,order⟩ order.lines [] where
  order := (List.append_nil _).symm
  unused := fun _ _ => rfl
  valid := fun _ none_left => by cases none_left
  recent := (mostRecent_nil _).symm
  frames := fun _ none_left => by cases none_left

theorem translates_used (recorded : Recorded log s free used) {i : Fin TLB_LINES} {page_number : Nat}
    (translates : Translates (s.tlb i) page_number) : i ∈ used := by
  have member := s.order.mem i
  rw [recorded.order] at member
  rcases List.mem_append.mp member with inFree | inUsed
  · have contradiction := (recorded.unused i inFree).symm.trans translates.1
    exact absurd contradiction (by decide)
  · exact inUsed

/-- A page is translated just when it is among the most recent ones. -/
theorem translates_iff (recorded : Recorded log s free used) (page_number : Nat) :
    (∃ i, Translates (s.tlb i) page_number) ↔ page_number ∈ mostRecent TLB_LINES (log.map Prod.fst) := by
  rw [← recorded.recent,List.mem_map]
  constructor
  · rintro ⟨i,translates⟩
    exact ⟨i,translates_used recorded translates,translates.2⟩
  · rintro ⟨i,inUsed,tagged⟩
    exact ⟨i,recorded.valid i inUsed,tagged⟩

/-- No two lines in use have one tag. -/
theorem tag_unique (recorded : Recorded log s free used) {i j : Fin TLB_LINES} (first : i ∈ used) (second : j ∈ used)
    (same : (s.tlb i).tag.toNat = (s.tlb j).tag.toNat) : i = j := by
  have distinct : (used.map (fun i => (s.tlb i).tag.toNat)).Nodup := by
    rw [recorded.recent]
    exact mostRecent_nodup _ _
  exact List.inj_on_of_nodup_map distinct first second same

/-- A line that translates the page is used again. -/
theorem hit_recorded (recorded : Recorded log s free used) {i : Fin TLB_LINES} {page_number : Nat}
    (translates : Translates (s.tlb i) page_number) :
    ∃ used', Recorded (log ++ [(page_number,(s.tlb i).phy_page_num)]) { s with order := s.order.use i } free used' := by
  obtain ⟨before,behind,split⟩ := List.append_of_mem (translates_used recorded translates)
  have perm : (before ++ behind ++ [i]).Perm used :=
    split ▸ (List.perm_append_singleton i (before ++ behind)).trans List.perm_middle.symm
  refine ⟨before ++ behind ++ [i],?_,recorded.unused,?_,?_,?_⟩
  · have lines : s.order.lines = (free ++ before) ++ i :: behind := by rw [recorded.order,split,List.append_assoc]
    rw [order_t.use_of_split _ lines]
    simp
  · intro j member
    exact recorded.valid j (perm.mem_iff.mp member)
  · have recent := recorded.recent
    rw [split,List.map_append,List.map_cons,translates.2] at recent
    have again := mostRecent_again recent.symm (by decide)
    simp only [List.map_append,List.map_singleton,again,translates.2]
  · intro j member
    have inUsed := perm.mem_iff.mp member
    rw [latest_concat,frame_for]
    by_cases here : (s.tlb j).tag.toNat = page_number
    · have same : j = i := tag_unique recorded inUsed (translates_used recorded translates) (here.trans translates.2.symm)
      simp [same,translates.2]
    · rw [if_neg (Ne.symm here),Option.none_or]
      exact recorded.frames j inUsed

/-- The oldest line, and what stays in use when it is filled. -/
theorem oldest_first (recorded : Recorded log s free used) {page_number : Nat}
    (missing : page_number ∉ mostRecent TLB_LINES (log.map Prod.fst)) :
    ∃ free' used', s.order.lines = s.order.oldest :: (free' ++ used') ∧ (∀ i ∈ free', i ∈ free) ∧ (∀ i ∈ used', i ∈ used) ∧
      used'.map (fun i => (s.tlb i).tag.toNat) ++ [page_number] = mostRecent TLB_LINES (log.map Prod.fst ++ [page_number]) := by
  have total : (free ++ used).length = TLB_LINES := by
    rw [← recorded.order,s.order.all.length_eq,List.length_finRange]
  rw [List.length_append] at total
  have oldest : ∀ p rest, s.order.lines = p :: rest → s.order.oldest = p := by
    intro p rest lines
    simp only [order_t.oldest,lines,List.head_cons]
  rw [mostRecent_new missing (by decide),← recorded.recent,List.length_map]
  cases free with
  | cons p free' =>
    have lines := recorded.order
    have room : used.length < TLB_LINES := by
      rw [List.length_cons] at total
      omega
    refine ⟨free',used,?_,fun i member => List.mem_cons_of_mem p member,fun i member => member,?_⟩
    · rw [oldest p _ lines,lines,List.cons_append]
    · rw [if_pos room]
  | nil =>
    cases used with
    | nil => exact absurd total (by decide)
    | cons p used' =>
      have lines := recorded.order
      have full : ¬ (p :: used').length < TLB_LINES := by
        rw [List.length_nil] at total
        omega
      refine ⟨[],used',?_,fun i member => member,fun i member => List.mem_cons_of_mem p member,?_⟩
      · rw [oldest p _ lines,lines,List.nil_append,List.nil_append]
      · rw [if_neg full,List.map_cons,List.tail_cons]

/-- The line of a page. -/
def filled (page_number : Nat) (f : BitVec 20) : tlb_entry_t :=
  { tag := BitVec.ofNat 36 page_number, phy_page_num := f, v := 1#1 }

/-- The oldest line is filled when the page is not among the most recent ones. -/
theorem miss_recorded (recorded : Recorded log s free used) {page_number : Nat} (small : page_number < 2 ^ 36)
    (missing : page_number ∉ mostRecent TLB_LINES (log.map Prod.fst)) (f : BitVec 20) :
    ∃ free' used', Recorded (log ++ [(page_number,f)])
      { tlb := Function.update s.tlb s.order.oldest (filled page_number f), order := s.order.use s.order.oldest } free' used' := by
  obtain ⟨free',used',lines,stillFree,stillUsed,recent⟩ := oldest_first recorded missing
  have tag : (BitVec.ofNat 36 page_number).toNat = page_number := by
    rw [BitVec.toNat_ofNat,Nat.mod_eq_of_lt small]
  have fresh : s.order.oldest ∉ free' ++ used' := by
    have distinct := s.order.nodup
    rw [lines] at distinct
    exact (List.nodup_cons.mp distinct).1
  have other : ∀ i ∈ free' ++ used', Function.update s.tlb s.order.oldest (filled page_number f) i = s.tlb i := by
    intro i member
    have different : i ≠ s.order.oldest := by
      rintro rfl
      exact fresh member
    exact Function.update_of_ne different _ _
  have newest : Function.update s.tlb s.order.oldest (filled page_number f) s.order.oldest = filled page_number f :=
    Function.update_self _ _ _
  have notRecent : ∀ i ∈ used', (s.tlb i).tag.toNat ≠ page_number := by
    intro i member same
    exact missing ((translates_iff recorded page_number).mp ⟨i,recorded.valid i (stillUsed i member),same⟩)
  refine ⟨free',used' ++ [s.order.oldest],?_,?_,?_,?_,?_⟩
  · have split : s.order.lines = [] ++ s.order.oldest :: (free' ++ used') := lines
    rw [order_t.use_of_split _ split]
    simp
  · intro i member
    dsimp only
    rw [other i (List.mem_append_left _ member)]
    exact recorded.unused i (stillFree i member)
  · intro i member
    dsimp only
    rcases List.mem_append.mp member with old | new
    · rw [other i (List.mem_append_right _ old)]
      exact recorded.valid i (stillUsed i old)
    · rw [List.mem_singleton.mp new,newest]
      rfl
  · dsimp only
    rw [List.map_append,List.map_append,List.map_singleton,List.map_singleton,← recent,newest]
    refine congrArg₂ (· ++ ·) (List.map_congr_left ?_) (by rw [filled,tag])
    intro i member
    rw [other i (List.mem_append_right _ member)]
  · intro i member
    dsimp only
    rw [latest_concat,frame_for]
    rcases List.mem_append.mp member with old | new
    · rw [other i (List.mem_append_right _ old),if_neg (Ne.symm (notRecent i old)),Option.none_or]
      exact recorded.frames i (stillUsed i old)
    · rw [List.mem_singleton.mp new,newest]
      simp [filled,tag]

/-- What a search answers after the answers so far. -/
def Answered (log : List answer) (mem : mem_space) (vaddr : virt_addr_t) (f : found) : Prop :=
  f.paddr.page_offset = vaddr.page_offset ∧ (f.hit = true ↔ page vaddr ∈ mostRecent TLB_LINES (log.map Prod.fst)) ∧
    if f.hit then latest (frame_for (page vaddr)) log = some f.paddr.phy_page_num
    else frame mem vaddr = some f.paddr.phy_page_num

theorem plain_search_recorded (recorded : Recorded log s free used) {mem : mem_space} {vaddr : virt_addr_t} {f : found}
    {next : plain} (searched : plain_search mem s vaddr = some (f,next)) :
    (∃ free' used', Recorded (log ++ [(page vaddr,f.paddr.phy_page_num)]) next free' used') ∧ Answered log mem vaddr f := by
  have held := translates_iff recorded (page vaddr)
  unfold plain_search at searched
  cases looked : s.order.lines.reverse.find? (fun i => Translates (s.tlb i) (page vaddr)) with
  | some i =>
    rw [looked] at searched
    cases searched
    have translates := List.find?_some looked
    rw [decide_eq_true_eq] at translates
    have latestIs := recorded.frames i (translates_used recorded translates)
    rw [translates.2] at latestIs
    refine ⟨⟨free,hit_recorded recorded translates⟩,rfl,iff_of_true rfl (held.mp ⟨i,translates⟩),?_⟩
    exact latestIs
  | none =>
    rw [looked] at searched
    obtain ⟨g,walked,same⟩ := Option.map_eq_some_iff.mp searched
    cases same
    have missing : page vaddr ∉ mostRecent TLB_LINES (log.map Prod.fst) := by
      rw [← held]
      rintro ⟨i,translates⟩
      have nowhere := List.find?_eq_none.mp looked i (List.mem_reverse.mpr (s.order.mem i))
      exact nowhere (decide_eq_true translates)
    exact ⟨miss_recorded recorded (page_lt vaddr) missing g,rfl,iff_of_false Bool.false_ne_true missing,walked⟩

end

/-! ### Runs of events -/

/-- The TLB as the history has left it, and the plain TLB that it stands for. -/
def Kept (index : node_ptr → Fin TLB_LINES) (history : List occurrence) (c : state) : Prop :=
  ∃ ps s free used, Stands index ps c s ∧ Recorded (answers history) s free used

/-- What an event gives after the history. -/
def Good (history : List occurrence) : event → Option search_t → Prop
  | .search mem call, some r => r.code = .ERR_NONE ∧ Answered (answers history) mem call.vaddr (shown r)
  | .search _ _, none => False
  | .flush, o => o = none

theorem answers_concat (history : List occurrence) (o : occurrence) : answers (history ++ [o]) = note (answers history) o := by
  rw [answers,List.foldl_append,List.foldl_cons,List.foldl_nil,answers]

theorem step_kept {index : node_ptr → Fin TLB_LINES} {history : List occurrence} {c next : state} {e : event}
    {o : Option search_t} (kept : Kept index history c) (stepped : step c e = some (o,next)) :
    Kept index (history ++ [(e,o)]) next ∧ Good history e o := by
  obtain ⟨ps,s,free,used,stands,recorded⟩ := kept
  cases e with
  | search mem call =>
    obtain ⟨⟨r,after⟩,searched,same⟩ := Option.map_eq_some_iff.mp stepped
    cases same
    obtain ⟨_,found,same⟩ := Option.map_eq_some_iff.mp searched
    cases same
    have together := tlb_search_plain mem stands call.vaddr call.paddr
    rw [found] at together
    obtain ⟨answered,plainly,code,same,ps',after⟩ := Machine.agree_left together
    obtain ⟨⟨free',used',restored⟩,good⟩ := plain_search_recorded recorded plainly
    rw [same] at restored good
    refine ⟨⟨ps',answered.2,free',used',after,?_⟩,code,good⟩
    rw [answers_concat]
    exact restored
  | flush =>
    cases stepped
    refine ⟨⟨ps,⟨tlb_flush.2,s.order⟩,s.order.lines,[],⟨rfl,stands.list,stands.indices,stands.order⟩,?_⟩,rfl⟩
    rw [answers_concat]
    exact flush_recorded s.order

theorem initial_kept {initial : state} {ps : List node_ptr} (starts : Initial initial ps) :
    Kept (index_in initial.heap) [] initial :=
  ⟨ps,start,numbered.lines,[],initial_stands starts,flush_recorded numbered⟩

/-- In every run over a changing memory, with flushes at any time, a search hits just when its page is
    one of the 128 most recent distinct ones since the last flush, and then repeats
    the latest answer for it; otherwise it walks the memory there is then. -/
theorem tlb_answers_by_history {initial last : state} {ps : List node_ptr} (starts : Initial initial ps)
    {events : List event} {outcomes : List (Option search_t)} (ran : run step initial events = some (outcomes,last)) :
    outcomes.length = events.length ∧ ∀ (k : Nat) (e : event) (o : Option search_t), events[k]? = some e →
      outcomes[k]? = some o → Good ((events.zip outcomes).take k) e o := by
  have kept := Machine.run_records (fun _ _ _ _ _ inv stepped => step_kept inv stepped) events [] initial last outcomes
    (initial_kept starts) ran
  exact ⟨kept.2.1,fun k e o input output => kept.2.2 k e o input output⟩

/-- Where the walk stays in memory, a search is answered. -/
theorem search_answered {index : node_ptr → Fin TLB_LINES} {history : List occurrence} {c : state}
    (kept : Kept index history c) {mem : mem_space} {call : call} (inside : (frame mem call.vaddr).isSome) :
    ∃ r next, step c (.search mem call) = some (some r,next) ∧
      Kept index (history ++ [(.search mem call,some r)]) next ∧ Answered (answers history) mem call.vaddr (shown r) := by
  have parts := kept
  obtain ⟨ps,s,_,_,stands,_⟩ := parts
  obtain ⟨f,after,plainly⟩ := plain_search_total inside s
  have together := tlb_search_plain mem stands call.vaddr call.paddr
  rw [plainly] at together
  obtain ⟨r,searched,_⟩ := Machine.agree_right together
  have stepped : step c (.search mem call) = some (some r,r.state) := by
    simp only [step,search,searched,Option.map_some]
  obtain ⟨restored,_,good⟩ := step_kept kept stepped
  exact ⟨r,r.state,stepped,restored,good⟩

/-- A memory with page 0 in frame 1. -/
def frame_one_mem : mem_space := ⟨4100,fun a => if a.val % 4096 = 1 then 0x10 else 0⟩
def zero_call : call := ⟨⟨0,0,0,0,0,0⟩,⟨0,0⟩⟩
/-- Page 0 in one memory, and behind a flush in another one and then in the first again. -/
def four_events : List event :=
  [.search zero_mem zero_call,.flush,.search frame_one_mem zero_call,.search zero_mem zero_call]

/-- The last search hits, and repeats the frame of the memory before. -/
theorem four_events_run : ∃ heap ll ps, Initial ⟨tlb_flush.2,heap,ll⟩ ps ∧ ∃ first second third last,
    run step ⟨tlb_flush.2,heap,ll⟩ four_events = some ([some first,none,some second,some third],last) ∧
      second.hit_or_miss = false ∧ second.paddr.phy_page_num = 1 ∧
      third.hit_or_miss = true ∧ third.paddr.phy_page_num = 1 := by
  obtain ⟨heap,ll,_,starts⟩ := start_initial Function.injective_id
  have zero_walks : (frame zero_mem zero_call.vaddr).isSome := by decide
  have walked : frame frame_one_mem zero_call.vaddr = some 1 := by decide +kernel
  obtain ⟨first,c₁,stepped₁,kept₁,_⟩ := search_answered (initial_kept starts) zero_walks
  have stepped₂ : step c₁ .flush = some (none,{ c₁ with tlb := tlb_flush.2 }) := rfl
  obtain ⟨kept₂,_⟩ := step_kept kept₁ stepped₂
  obtain ⟨second,c₃,stepped₃,kept₃,_,miss,found⟩ := search_answered kept₂ (Option.isSome_of_eq_some walked)
  obtain ⟨third,c₄,stepped₄,_,_,hit,repeated⟩ := search_answered kept₃ zero_walks
  have missed : second.hit_or_miss = false := by
    rw [← Bool.not_eq_true]
    intro hits
    simpa [mostRecent,answers,note] using miss.mp hits
  have hits : third.hit_or_miss = true := by
    refine hit.mpr ?_
    simp [mostRecent,answers,note,List.rtake,TLB_LINES]
  simp only [shown,missed,Bool.false_eq_true,↓reduceIte,walked,Option.some.injEq] at found
  have same : second.paddr.phy_page_num = third.paddr.phy_page_num := by
    simpa [shown,hits,answers,note,latest,frame_for] using repeated
  refine ⟨heap,ll,_,starts,first,second,third,c₄,?_,missed,found.symm,hits,same.symm.trans found.symm⟩
  rw [four_events,Machine.run_cons_of stepped₁,Machine.run_cons_of stepped₂,Machine.run_cons_of stepped₃,
    Machine.run_cons_of stepped₄]
  rfl

theorem tlb_answers_by_history_four : ∃ heap ll outcomes last,
    run step ⟨tlb_flush.2,heap,ll⟩ four_events = some (outcomes,last) ∧
      (∃ r, outcomes[3]? = some (some r) ∧ r.hit_or_miss = true ∧ r.paddr.phy_page_num = 1) ∧
      outcomes.length = four_events.length ∧
      ∀ (k : Nat) (e : event) (o : Option search_t), four_events[k]? = some e → outcomes[k]? = some o →
        Good ((four_events.zip outcomes).take k) e o := by
  obtain ⟨heap,ll,ps,starts,first,second,third,last,ran,_,_,hit,found⟩ := four_events_run
  exact ⟨heap,ll,_,last,ran,⟨third,rfl,hit,found⟩,tlb_answers_by_history starts ran⟩

/-- After every such run the table translates just the most recent pages since the last
    flush, each to the frame of its latest answer. -/
theorem tlb_contents_by_history {initial last : state} {ps : List node_ptr} (starts : Initial initial ps)
    {events : List event} {outcomes : List (Option search_t)} (ran : run step initial events = some (outcomes,last))
    (page_number : Nat) (f : BitVec 20) :
    (∃ i, Translates (last.tlb i) page_number ∧ (last.tlb i).phy_page_num = f) ↔
      page_number ∈ mostRecent TLB_LINES ((answers (events.zip outcomes)).map Prod.fst) ∧
        latest (frame_for page_number) (answers (events.zip outcomes)) = some f := by
  have kept := Machine.run_records (fun _ _ _ _ _ inv stepped => step_kept inv stepped) events [] initial last outcomes
    (initial_kept starts) ran
  obtain ⟨ps',s,free,used,stands,recorded⟩ := kept.1
  rw [List.nil_append] at recorded
  rw [← translates_iff recorded,stands.tlb]
  constructor
  · rintro ⟨i,translates,rfl⟩
    have latestIs := recorded.frames i (translates_used recorded translates)
    rw [translates.2] at latestIs
    exact ⟨⟨i,translates⟩,latestIs⟩
  · rintro ⟨⟨i,translates⟩,latestIs⟩
    have same := recorded.frames i (translates_used recorded translates)
    rw [translates.2,latestIs] at same
    exact ⟨i,translates,(Option.some.inj same).symm⟩

theorem tlb_contents_by_history_four : ∃ heap ll outcomes last,
    run step ⟨tlb_flush.2,heap,ll⟩ four_events = some (outcomes,last) ∧
      (∃ i, Translates (last.tlb i) 0 ∧ (last.tlb i).phy_page_num = 1) ∧
      ¬ ∃ i, Translates (last.tlb i) 0 ∧ (last.tlb i).phy_page_num = 0 := by
  obtain ⟨heap,ll,ps,starts,first,second,third,last,ran,_,walked,_,repeated⟩ := four_events_run
  have zero : page zero_call.vaddr = 0 := by decide
  have log : answers (four_events.zip [some first,none,some second,some third]) = [(0,1),(0,1)] := by
    simp [four_events,answers,note,walked,repeated,zero]
  refine ⟨heap,ll,_,last,ran,?_,?_⟩
  · rw [tlb_contents_by_history starts ran,log]
    decide
  · rw [tlb_contents_by_history starts ran,log]
    decide

end CacheEmulator.TlbHistory
