import CacheEmulator.Coherence
import CacheEmulator.Machine

/-!
Runs of reads and writes from flushed caches against a plain memory of words.
No call inserts a line, so every set stays cold; a read that is not refused
delivers what its locals happened to hold.
-/
namespace CacheEmulator.CacheRuns
open CacheEmulator.Error CacheEmulator.Memory CacheEmulator.Addr CacheEmulator.Cache CacheEmulator.CacheMng
open CacheEmulator.CacheCalls CacheEmulator.Coherence
open CacheEmulator.Machine (run Answers)

inductive request
  | read (paddr : phy_addr_t)
  | write (paddr : phy_addr_t) (word : word_t)

/-- A call, and the `errno` it finds. -/
structure call where
  request : request
  errno : Int

/-- What the variables that a call does not initialise hold: those on the stack
    and the caller's word. -/
structure locals where
  stack : stack_t
  word : word_t

/-- The memory and the two data caches. -/
structure machine where
  mem : mem_space
  caches : caches

/-- The code that a call returns, and the word after it. -/
structure answer where
  code : error_code
  word : word_t

def step (s : machine) (input : call × locals) : Option (answer × machine) :=
  match input.1.request with
  | .read paddr =>
    (cache_read input.1.errno s.mem paddr .DATA s.caches input.2.word .LRU input.2.stack).map (fun r =>
      (⟨r.code,r.word⟩,⟨s.mem,r.caches⟩))
  | .write paddr word =>
    (cache_write input.1.errno s.mem paddr s.caches word .LRU input.2.stack).map (fun r =>
      (⟨r.code,word⟩,⟨r.mem,r.caches⟩))

/-- The words of a plain memory after the calls answered so far: those of the
    latest writes that succeeded, and the first ones elsewhere. -/
def plain (mem : mem_space) (history : List (call × answer)) : Nat → Option word_t :=
  history.foldl (fun words done =>
    match done.1.request with
    | .read _ => words
    | .write paddr word =>
      if done.2.code = .ERR_NONE then Function.update words (address paddr / 4) (some word) else words) (load mem)

/-- Every read that succeeds, after whatever calls and whatever the locals hold,
    delivers the word of the plain memory. -/
def Transparent (mem : mem_space) (calls : List call) : Prop :=
  ∀ (before : List (call × locals)) (paddr : phy_addr_t) (errno : Int) (garbage : locals) (answers : List answer)
    (a : answer) (last : machine), before.map Prod.fst ++ [⟨.read paddr,errno⟩] <+: calls →
      run step ⟨mem,flushed⟩ (before ++ [(⟨.read paddr,errno⟩,garbage)]) = some (answers ++ [a],last) →
        a.code = .ERR_NONE → some a.word = plain mem ((before.map Prod.fst).zip answers) (address paddr / 4)

/-- A write that is carried out, which a clear `errno` decides, needs its line inside the memory. -/
def Returns (mem : mem_space) (c : call) : Prop :=
  match c.request with
  | .read _ => True
  | .write paddr _ => c.errno = 0 → LineInside mem (address paddr)

/-- L1 holds no line, and the memory has the size it started with. -/
structure Empty (mem : mem_space) (s : machine) : Prop where
  invalid : ∀ set w, (s.caches.l1_cache set w).v = 0#1
  capacity : s.mem.capacity = mem.capacity

theorem flushed_empty (mem : mem_space) : Empty mem ⟨mem,flushed⟩ := ⟨fun _ _ => rfl,rfl⟩

/-- A read that is not aligned is refused; any other one delivers what the locals hold. -/
def ReadAnswer (paddr : phy_addr_t) (errno : Int) (garbage : locals) (a : answer) : Prop :=
  if address paddr % 16 = 0 then
    a.code = .ERR_NONE ∧ a.word = if errno = 0 then word_of garbage.stack.the_new_cache_entry 0 else garbage.word
  else a.code = .ERR_BAD_PARAMETER

def Answered (input : call × locals) (a : answer) : Prop :=
  match input.1.request with
  | .read paddr => ReadAnswer paddr input.1.errno input.2 a
  | .write _ _ => a.code = .ERR_NONE

variable {mem : mem_space} {s next : machine} {a : answer}

theorem empty_cold (empty : Empty mem s) (p : Nat) : Cold s.caches p := ⟨⟨0,by decide⟩,empty.invalid _ _⟩

theorem empty_same (empty : Empty mem s) {after : mem_space} {cs : caches}
    (same : SameLines s.caches.l1_cache cs.l1_cache) (sameSize : after.capacity = s.mem.capacity) :
    Empty mem ⟨after,cs⟩ :=
  ⟨fun set w => (same set w).1.trans (empty.invalid set w),sameSize.trans empty.capacity⟩

/-- Which calls return does not depend on what the run has done so far. -/
theorem step_isSome (empty : Empty mem s) (input : call × locals) : (step s input).isSome ↔ Returns mem input.1 := by
  obtain ⟨⟨request,errno⟩,garbage⟩ := input
  cases request with
  | read paddr =>
    rw [step,Option.isSome_map,Returns,iff_true]
    by_cases aligned : address paddr % 16 = 0
    · rw [cache_read_isSome _ _ _ _ _ _ aligned]
      exact Or.inr (empty_cold empty _)
    · rw [read_misaligned _ _ _ _ _ _ aligned,Option.isSome_some]
  | write paddr word =>
    have inside : LineInside s.mem (address paddr) ↔ LineInside mem (address paddr) := by
      rw [LineInside,LineInside,empty.capacity]
    rw [step,Option.isSome_map,cache_write_isSome,WriteReturns,inside,Returns]
    constructor
    · rintro (set | ⟨there,_⟩) clear
      · exact absurd clear set
      · exact there
    · intro returns
      by_cases clear : errno = 0
      · exact Or.inr ⟨returns clear,empty_cold empty _⟩
      · exact Or.inl clear

theorem read_correct (empty : Empty mem s) {paddr : phy_addr_t} {errno : Int} {garbage : locals}
    (stepped : step s (⟨.read paddr,errno⟩,garbage) = some (a,next)) :
    Empty mem next ∧ ReadAnswer paddr errno garbage a := by
  obtain ⟨r,ran,same⟩ := Option.map_eq_some_iff.mp stepped
  obtain ⟨rfl,rfl⟩ := Prod.mk.inj same
  by_cases aligned : address paddr % 16 = 0
  · obtain ⟨code,sameLines,_,word⟩ := cache_read_returns aligned ran
    refine ⟨empty_same empty sameLines rfl,?_⟩
    rw [ReadAnswer,if_pos aligned]
    exact ⟨code,word⟩
  · rw [read_misaligned _ _ _ _ _ _ aligned] at ran
    obtain rfl := Option.some.inj ran
    refine ⟨empty_same empty (sameLines_refl _) rfl,?_⟩
    rw [ReadAnswer,if_neg aligned]

theorem write_correct (empty : Empty mem s) {paddr : phy_addr_t} {word : word_t} {errno : Int} {garbage : locals}
    (stepped : step s (⟨.write paddr word,errno⟩,garbage) = some (a,next)) : Empty mem next ∧ a.code = .ERR_NONE := by
  obtain ⟨r,ran,same⟩ := Option.map_eq_some_iff.mp stepped
  obtain ⟨rfl,rfl⟩ := Prod.mk.inj same
  obtain ⟨code,ages,effect⟩ := cache_write_returns ran
  refine ⟨empty_same empty ages.1 ?_,code⟩
  rcases effect with ⟨_,unchanged⟩ | ⟨_,old,_,stored⟩
  · rw [unchanged]
  · exact (store_words_correct (fun _ _ => rfl) stored).1

theorem step_correct (empty : Empty mem s) {input : call × locals} (stepped : step s input = some (a,next)) :
    Empty mem next ∧ Answered input a := by
  obtain ⟨⟨request,errno⟩,garbage⟩ := input
  cases request with
  | read paddr => exact read_correct empty stepped
  | write paddr word => exact write_correct empty stepped

/-- The answers of a run that returns are those of the single calls. -/
theorem run_correct (empty : Empty mem s) {inputs : List (call × locals)} {answers : List answer} {last : machine}
    (ran : run step s inputs = some (answers,last)) :
    Empty mem last ∧ Answers (fun _ input a => Returns mem input.1 ∧ Answered input a) [] inputs answers := by
  have kept : ∀ (before : List (call × locals)) (s : machine) (input : call × locals) (a : answer) (next : machine),
      Empty mem s → step s input = some (a,next) → Empty mem next ∧ Returns mem input.1 ∧ Answered input a := by
    intro _ s input a next empty stepped
    obtain ⟨restored,answered⟩ := step_correct empty stepped
    have returns := step_isSome empty input
    rw [stepped,Option.isSome_some] at returns
    exact ⟨restored,returns.mp rfl,answered⟩
  exact Machine.run_keeps kept inputs [] s last answers empty ran

theorem run_total (empty : Empty mem s) (inputs : List (call × locals)) (returns : ∀ i ∈ inputs, Returns mem i.1) :
    ∃ answers last, run step s inputs = some (answers,last) ∧ Empty mem last := by
  have total : ∀ (_ : List (call × locals)) (s : machine) (input : call × locals), Empty mem s → Returns mem input.1 →
      ∃ a next, step s input = some (a,next) ∧ Empty mem next ∧ Answered input a := by
    intro _ s input empty returns
    obtain ⟨⟨a,next⟩,stepped⟩ := Option.isSome_iff_exists.mp ((step_isSome empty input).mpr returns)
    exact ⟨a,next,stepped,step_correct empty stepped⟩
  obtain ⟨answers,last,ran,restored,_⟩ := Machine.run_answers total inputs [] s empty returns
  exact ⟨answers,last,ran,restored⟩

theorem run_isSome (empty : Empty mem s) (inputs : List (call × locals)) :
    (run step s inputs).isSome ↔ ∀ i ∈ inputs, Returns mem i.1 := by
  constructor
  · intro defined input member
    obtain ⟨⟨answers,last⟩,ran⟩ := Option.isSome_iff_exists.mp defined
    obtain ⟨lengths,positions⟩ := Machine.answers_get (run_correct empty ran).2
    obtain ⟨k,inside,rfl⟩ := List.getElem_of_mem member
    exact (positions k _ _ (List.getElem?_eq_getElem inside) (List.getElem?_eq_getElem (lengths ▸ inside))).1
  · intro returns
    obtain ⟨answers,last,ran,_⟩ := run_total empty inputs returns
    rw [ran,Option.isSome_some]

/-- The last answer of a run that ends with a read. -/
theorem last_read {before : List (call × locals)} {paddr : phy_addr_t} {errno : Int} {garbage : locals}
    {answers : List answer} {last : machine} (empty : Empty mem s)
    (ran : run step s (before ++ [(⟨.read paddr,errno⟩,garbage)]) = some (answers ++ [a],last)) :
    (∀ i ∈ before, Returns mem i.1) ∧ ReadAnswer paddr errno garbage a := by
  have returns := (run_isSome empty _).mp (by rw [ran]; rfl)
  refine ⟨fun i member => returns i (List.mem_append_left _ member),?_⟩
  obtain ⟨lengths,positions⟩ := Machine.answers_get (run_correct empty ran).2
  have sameLength : answers.length = before.length := by simpa using lengths
  exact (positions before.length _ a List.getElem?_concat_length (by rw [← sameLength]; exact List.getElem?_concat_length)).2

/-- Locals that hold one word everywhere. -/
def all_words (word : word_t) : locals := ⟨⟨fun _ => word,fun _ => word⟩,word⟩

/-- An aligned read at the end of a run delivers any word that the locals hold. -/
theorem delivers_locals {before : List (call × locals)} {answers : List answer} {between : machine}
    (ran : run step s before = some (answers,between)) (empty : Empty mem between) {paddr : phy_addr_t} (errno : Int)
    (aligned : address paddr % 16 = 0) (word : word_t) :
    ∃ a last, run step s (before ++ [(⟨.read paddr,errno⟩,all_words word)]) = some (answers ++ [a],last) ∧
      a.code = .ERR_NONE ∧ a.word = word := by
  obtain ⟨⟨a,last⟩,stepped⟩ := Option.isSome_iff_exists.mp
    ((step_isSome empty (⟨.read paddr,errno⟩,all_words word)).mpr trivial)
  have answered := (read_correct empty stepped).2
  rw [ReadAnswer,if_pos aligned] at answered
  refine ⟨a,last,Machine.run_append before _ ran ?_,answered.1,answered.2.trans (ite_self _)⟩
  rw [Machine.run_cons_of stepped]
  rfl

theorem other_word (expected : Option word_t) : ∃ word : word_t, some word ≠ expected := by
  by_cases zero : expected = some 0
  · exact ⟨1,by rw [zero]; decide⟩
  · exact ⟨0,Ne.symm zero⟩

/-- A run from flushed caches returns when the lines of its writes lie inside the
    memory. The caches are transparent exactly when no read of an aligned address,
    the only ones that are not refused, is reached. -/
theorem reads_transparent_iff (mem : mem_space) (calls : List call) :
    (∀ inputs : List (call × locals), inputs.map Prod.fst = calls →
      ((run step ⟨mem,flushed⟩ inputs).isSome ↔ ∀ c ∈ calls, Returns mem c)) ∧
    (Transparent mem calls ↔ ∀ before paddr errno, before ++ [⟨.read paddr,errno⟩] <+: calls →
      (∀ c ∈ before, Returns mem c) → address paddr % 16 ≠ 0) := by
  constructor
  · rintro inputs rfl
    rw [run_isSome (flushed_empty mem),List.forall_mem_map]
  constructor
  · intro transparent before paddr errno reached returns aligned
    obtain ⟨inputs,rfl⟩ : ∃ inputs : List (call × locals), inputs.map Prod.fst = before :=
      ⟨before.map (fun c => (c,all_words 0)),by rw [List.map_map]; exact List.map_id before⟩
    obtain ⟨answers,between,ran,empty⟩ := run_total (flushed_empty mem) inputs (List.forall_mem_map.mp returns)
    obtain ⟨word,other⟩ := other_word (plain mem ((inputs.map Prod.fst).zip answers) (address paddr / 4))
    obtain ⟨a,last,later,code,delivered⟩ := delivers_locals ran empty errno aligned word
    have expected := transparent inputs paddr errno _ answers a last reached later code
    rw [delivered] at expected
    exact other expected
  · intro refused before paddr errno garbage answers a last reached ran code
    obtain ⟨returns,answered⟩ := last_read (flushed_empty mem) ran
    have misaligned := refused _ paddr errno reached (List.forall_mem_map.mpr returns)
    rw [ReadAnswer,if_neg misaligned,code] at answered
    exact absurd answered (by decide)

/-- The first read of address 0 in a memory of zeros delivers the 7 on the stack. -/
theorem first_read_not_transparent : LineInside zero_block (address ⟨0,0⟩) ∧
    ¬ Transparent zero_block [⟨.read ⟨0,0⟩,0⟩] := by
  refine ⟨by decide,?_⟩
  intro transparent
  have started : run step ⟨zero_block,flushed⟩ [] = some ([],⟨zero_block,flushed⟩) := rfl
  obtain ⟨a,last,ran,code,delivered⟩ :=
    delivers_locals started (flushed_empty zero_block) 0 (show address ⟨0,0⟩ % 16 = 0 by decide) 7
  have expected := transparent [] ⟨0,0⟩ 0 _ [] a last (List.prefix_refl _) ran code
  have zero : load zero_block (address ⟨0,0⟩ / 4) = some 0 := load_zeros (by decide)
  rw [delivered] at expected
  exact absurd (expected.trans zero) (by decide)

end CacheEmulator.CacheRuns
