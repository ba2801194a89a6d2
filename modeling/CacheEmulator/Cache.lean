import CacheEmulator.Bits
import CacheEmulator.Memory
import Mathlib.Data.List.FinRange
import Mathlib.Logic.Function.Basic

/-!
Set-associative caches: the geometries and entries of `cache.h`, its accessors,
and the age macros of `lru.h`. The macros work for every geometry; an entry
that the pointer arithmetic places outside the array has no value.
-/
namespace CacheEmulator.Cache
open CacheEmulator.Memory

/-- The numbers that tell the caches apart. -/
structure geometry where
  LINES : Nat
  WAYS : Nat
  TAG_REMAINING_BITS : Nat
  TAG_BITS : Nat
  AGE_BITS : Nat

def L1_ICACHE_WORDS_PER_LINE : Nat := 4
def L1_ICACHE_LINE : Nat := 16
def L1_ICACHE_WAYS : Nat := 4
def L1_ICACHE_LINES : Nat := 64
def L1_ICACHE_TAG_REMAINING_BITS : Nat := 10
def L1_ICACHE_TAG_BITS : Nat := 22
def L2_CACHE_WAYS : Nat := 8
def L2_CACHE_LINES : Nat := 512
def L2_CACHE_TAG_REMAINING_BITS : Nat := 13
def L2_CACHE_TAG_BITS : Nat := 19

/-- The instruction and the data cache of the first level are alike; the macros
    of the data cache, and the words and bytes of a line of L2, are those of `L1_ICACHE`. -/
abbrev L1 : geometry :=
  ⟨L1_ICACHE_LINES,L1_ICACHE_WAYS,L1_ICACHE_TAG_REMAINING_BITS,L1_ICACHE_TAG_BITS,2⟩
abbrev L2 : geometry := ⟨L2_CACHE_LINES,L2_CACHE_WAYS,L2_CACHE_TAG_REMAINING_BITS,L2_CACHE_TAG_BITS,3⟩

instance : NeZero L1.LINES := ⟨by decide⟩
instance : NeZero L1.WAYS := ⟨by decide⟩

abbrev line_t := Fin L1_ICACHE_WORDS_PER_LINE → word_t

structure cache_entry_t (g : geometry) where
  v : BitVec 1
  age : BitVec g.AGE_BITS
  tag : BitVec g.TAG_BITS
  line : line_t

/-- The array of entries, the ways of a line index side by side. -/
abbrev cache (g : geometry) := Fin g.LINES → Fin g.WAYS → cache_entry_t g

variable {g : geometry}

/-- The line index and the way that the pointer arithmetic reaches. -/
def locate (g : geometry) (line_index way : Nat) : Option (Fin g.LINES × Fin g.WAYS) :=
  if inside : line_index * g.WAYS + way < g.LINES * g.WAYS then
    some (⟨(line_index * g.WAYS + way) / g.WAYS,Nat.div_lt_of_lt_mul (Nat.mul_comm g.LINES g.WAYS ▸ inside)⟩,
      ⟨(line_index * g.WAYS + way) % g.WAYS,Nat.mod_lt _ (Nat.pos_of_ne_zero (by
        intro none
        rw [none,Nat.mul_zero] at inside
        exact absurd inside (Nat.not_lt_zero _)))⟩)
  else none

def cache_entry (cache : cache g) (line_index way : Nat) : Option (cache_entry_t g) :=
  (locate g line_index way).map (fun place => cache place.1 place.2)

def put (cache : cache g) (s : Fin g.LINES) (w : Fin g.WAYS) (entry : cache_entry_t g) : Cache.cache g :=
  Function.update cache s (Function.update (cache s) w entry)

def write_entry (cache : cache g) (line_index way : Nat) (change : cache_entry_t g → cache_entry_t g) :
    Option (Cache.cache g) :=
  (locate g line_index way).map (fun place => put cache place.1 place.2 (change (cache place.1 place.2)))

def set_age (cache : cache g) (line_index way : Nat) (age : BitVec g.AGE_BITS) : Option (Cache.cache g) :=
  write_entry cache line_index way (fun entry => { entry with age := age })

def LRU_age_increase_turn (way_index line_index : Nat) (cache : cache g) (var : Fin g.WAYS) :
    Option (Cache.cache g) := do
  let cache ← if var.val = way_index then set_age cache line_index var.val 0 else some cache
  let entry ← cache_entry cache line_index var.val
  if entry.age.toNat < g.WAYS - 1 then set_age cache line_index var.val (entry.age + 1) else some cache

def LRU_age_increase (cache : cache g) (way_index line_index : Nat) : Option (Cache.cache g) :=
  (List.finRange g.WAYS).foldlM (LRU_age_increase_turn way_index line_index) cache

def LRU_age_update_turn (way_index line_index : Nat) (cache : cache g) (var : Fin g.WAYS) :
    Option (Cache.cache g) := do
  let entry ← cache_entry cache line_index var.val
  let touched ← cache_entry cache line_index way_index
  let cache ← if entry.age < touched.age then set_age cache line_index var.val (entry.age + 1) else some cache
  set_age cache line_index way_index 0

def LRU_age_update (cache : cache g) (way_index line_index : Nat) : Option (Cache.cache g) :=
  (List.finRange g.WAYS).foldlM (LRU_age_update_turn way_index line_index) cache

/-! ### Entries at their place -/

theorem locate_place (s : Fin g.LINES) (w : Fin g.WAYS) : locate g s.val w.val = some (s,w) := by
  have positive : 0 < g.WAYS := Nat.lt_of_le_of_lt (Nat.zero_le _) w.isLt
  have inside : s.val * g.WAYS + w.val < g.LINES * g.WAYS := by
    calc s.val * g.WAYS + w.val < s.val * g.WAYS + g.WAYS := Nat.add_lt_add_left w.isLt _
      _ = (s.val + 1) * g.WAYS := (Nat.succ_mul _ _).symm
      _ ≤ g.LINES * g.WAYS := Nat.mul_le_mul_right _ s.isLt
  have line : (s.val * g.WAYS + w.val) / g.WAYS = s.val := by
    rw [Nat.mul_comm,Nat.mul_add_div positive,Nat.div_eq_of_lt w.isLt,Nat.add_zero]
  have way : (s.val * g.WAYS + w.val) % g.WAYS = w.val := by
    rw [Nat.mul_comm,Nat.mul_add_mod,Nat.mod_eq_of_lt w.isLt]
  simp only [locate,inside,↓reduceDIte,line,way]

@[simp] theorem cache_entry_place (cache : cache g) (s : Fin g.LINES) (w : Fin g.WAYS) :
    cache_entry cache s.val w.val = some (cache s w) := by
  rw [cache_entry,locate_place,Option.map_some]

theorem write_entry_place (cache : cache g) (s : Fin g.LINES) (w : Fin g.WAYS)
    (change : cache_entry_t g → cache_entry_t g) :
    write_entry cache s.val w.val change = some (put cache s w (change (cache s w))) := by
  rw [write_entry,locate_place,Option.map_some]

theorem put_apply (cache : cache g) (s s' : Fin g.LINES) (w w' : Fin g.WAYS) (entry : cache_entry_t g) :
    put cache s w entry s' w' = if s' = s ∧ w' = w then entry else cache s' w' := by
  rw [put,Function.update_apply]
  by_cases sameLine : s' = s
  · subst sameLine
    rw [if_pos rfl,Function.update_apply]
    simp
  · rw [if_neg sameLine,if_neg (fun both => sameLine both.1)]

/-- A cache whose ages of one line index are changed, way by way. -/
def with_ages (cache : cache g) (s : Fin g.LINES) (ages : Fin g.WAYS → BitVec g.AGE_BITS) : Cache.cache g :=
  fun s' w => if s' = s then { cache s' w with age := ages w } else cache s' w

/-- The ages of a line index. -/
def ages (cache : cache g) (s : Fin g.LINES) (w : Fin g.WAYS) : BitVec g.AGE_BITS := (cache s w).age

@[simp] theorem with_ages_v (cache : cache g) (s s' : Fin g.LINES) (a : Fin g.WAYS → BitVec g.AGE_BITS)
    (w : Fin g.WAYS) : (with_ages cache s a s' w).v = (cache s' w).v := by
  unfold with_ages
  split <;> rfl
@[simp] theorem with_ages_tag (cache : cache g) (s s' : Fin g.LINES) (a : Fin g.WAYS → BitVec g.AGE_BITS)
    (w : Fin g.WAYS) : (with_ages cache s a s' w).tag = (cache s' w).tag := by
  unfold with_ages
  split <;> rfl
@[simp] theorem with_ages_line (cache : cache g) (s s' : Fin g.LINES) (a : Fin g.WAYS → BitVec g.AGE_BITS)
    (w : Fin g.WAYS) : (with_ages cache s a s' w).line = (cache s' w).line := by
  unfold with_ages
  split <;> rfl
theorem ages_with_ages (cache : cache g) (s : Fin g.LINES) (a : Fin g.WAYS → BitVec g.AGE_BITS) :
    ages (with_ages cache s a) s = a := by
  funext w
  simp [ages,with_ages]

theorem ages_with_ages_of_ne (cache : cache g) {s s' : Fin g.LINES} (a : Fin g.WAYS → BitVec g.AGE_BITS)
    (different : s' ≠ s) : ages (with_ages cache s a) s' = ages cache s' := by
  funext w
  simp [ages,with_ages,different]

theorem with_ages_self (cache : cache g) (s : Fin g.LINES) : with_ages cache s (ages cache s) = cache := by
  funext s' w
  unfold with_ages ages
  by_cases same : s' = s
  · subst same
    simp
  · simp [same]

/-- Changed ages leave the cache as it was only when they are the old ones. -/
theorem with_ages_eq_self (cache : cache g) (s : Fin g.LINES) (a : Fin g.WAYS → BitVec g.AGE_BITS) :
    with_ages cache s a = cache ↔ ∀ w, a w = (cache s w).age := by
  constructor
  · intro same w
    rw [← ages_with_ages cache s a,same]
    rfl
  · intro same
    have old : a = ages cache s := funext same
    rw [old,with_ages_self]

theorem set_age_place (cache : cache g) (s : Fin g.LINES) (a : Fin g.WAYS → BitVec g.AGE_BITS) (w : Fin g.WAYS)
    (age : BitVec g.AGE_BITS) :
    set_age (with_ages cache s a) s.val w.val age = some (with_ages cache s (Function.update a w age)) := by
  rw [set_age,write_entry_place]
  congr 1
  funext s' w'
  rw [put_apply]
  by_cases sameLine : s' = s
  · by_cases sameWay : w' = w
    · simp [with_ages,sameLine,sameWay]
    · simp [with_ages,sameLine,sameWay]
  · simp [with_ages,sameLine]

/-! ### What the age macros do -/

/-- One age after `LRU_age_increase`. -/
def increased (g : geometry) (filled : Prop) [Decidable filled] (age : BitVec g.AGE_BITS) : BitVec g.AGE_BITS :=
  let age := if filled then 0 else age
  if age.toNat < g.WAYS - 1 then age + 1 else age

theorem entry_with_ages (cache : cache g) (s : Fin g.LINES) (a : Fin g.WAYS → BitVec g.AGE_BITS) (w : Fin g.WAYS) :
    cache_entry (with_ages cache s a) s.val w.val = some { cache s w with age := a w } := by
  rw [cache_entry_place]
  simp [with_ages]

theorem increase_turn (cache : cache g) (way_index : Nat) (s : Fin g.LINES) (a : Fin g.WAYS → BitVec g.AGE_BITS)
    (var : Fin g.WAYS) :
    LRU_age_increase_turn way_index s.val (with_ages cache s a) var =
      some (with_ages cache s (Function.update a var (increased g (var.val = way_index) (a var)))) := by
  by_cases filled : var.val = way_index
  · simp only [LRU_age_increase_turn,filled,↓reduceIte,increased]
    rw [← filled,set_age_place,Option.bind_eq_bind,Option.bind_some,entry_with_ages,Option.bind_eq_bind,
      Option.bind_some]
    simp only [Function.update_self]
    split
    · rw [set_age_place,Function.update_idem]
    · rfl
  · simp only [LRU_age_increase_turn,filled,↓reduceIte,increased,Option.bind_eq_bind,Option.bind_some,entry_with_ages]
    split
    · rw [set_age_place]
    · rw [Function.update_eq_self]

theorem LRU_age_increase_correct (cache : cache g) (way_index : Nat) (s : Fin g.LINES) :
    LRU_age_increase cache way_index s.val =
      some (with_ages cache s (fun w => increased g (w.val = way_index) (cache s w).age)) := by
  -- The loop has treated the ways it has passed and none of the others.
  have loop : ∀ (ways : List (Fin g.WAYS)) (a : Fin g.WAYS → BitVec g.AGE_BITS), ways.Nodup →
      ways.foldlM (LRU_age_increase_turn way_index s.val) (with_ages cache s a) =
        some (with_ages cache s (fun w => if w ∈ ways then increased g (w.val = way_index) (a w) else a w)) := by
    intro ways
    induction ways with
    | nil => intro a _; simp
    | cons var ways ih =>
      intro a nodup
      obtain ⟨fresh,nodup⟩ := List.nodup_cons.mp nodup
      rw [List.foldlM_cons,increase_turn,Option.bind_eq_bind,Option.bind_some,ih _ nodup]
      congr 2
      funext w
      by_cases passed : w = var
      · subst passed
        simp [fresh]
      · simp [passed]
  have whole := loop (List.finRange g.WAYS) (ages cache s) (List.nodup_finRange _)
  rw [with_ages_self] at whole
  rw [LRU_age_increase,whole]
  simp [ages]

/-- One age after `LRU_age_update`: the loop clears the age of the way it is
    given in its first turn, so only the first way is compared with that age. -/
def updated (ages : Fin g.WAYS → BitVec g.AGE_BITS) (way : Fin g.WAYS) (w : Fin g.WAYS) : BitVec g.AGE_BITS :=
  if w = way then 0 else if w.val = 0 ∧ ages w < ages way then ages w + 1 else ages w

@[simp] theorem updated_self (ages : Fin g.WAYS → BitVec g.AGE_BITS) (way : Fin g.WAYS) : updated ages way way = 0 :=
  if_pos rfl

/-- Only the way that is touched gets younger. -/
theorem updated_le (ages : Fin g.WAYS → BitVec g.AGE_BITS) {way w : Fin g.WAYS} (other : w ≠ way) :
    (ages w).toNat ≤ (updated ages way w).toNat := by
  rw [updated,if_neg other]
  by_cases older : w.val = 0 ∧ ages w < ages way
  · rw [if_pos older,Bits.toNat_succ older.2]
    exact Nat.le_succ _
  · rw [if_neg older]

theorem update_turn (cache : cache g) (way : Fin g.WAYS) (s : Fin g.LINES) (a : Fin g.WAYS → BitVec g.AGE_BITS)
    (var : Fin g.WAYS) :
    LRU_age_update_turn way.val s.val (with_ages cache s a) var =
      some (with_ages cache s
        (Function.update (if a var < a way then Function.update a var (a var + 1) else a) way 0)) := by
  simp only [LRU_age_update_turn,entry_with_ages,Option.bind_eq_bind,Option.bind_some]
  split
  · rw [set_age_place,Option.bind_some,set_age_place]
  · rw [set_age_place]

/-- Once the age is clear, the turns of the loop change nothing. -/
theorem update_still (cache : cache g) (way : Fin g.WAYS) (s : Fin g.LINES) :
    ∀ (ways : List (Fin g.WAYS)) (a : Fin g.WAYS → BitVec g.AGE_BITS), a way = 0 →
      ways.foldlM (LRU_age_update_turn way.val s.val) (with_ages cache s a) = some (with_ages cache s a) := by
  intro ways
  induction ways with
  | nil => intro a _; rfl
  | cons var ways ih =>
    intro a clear
    have notOlder : ¬ a var < a way := by
      rw [clear]
      exact BitVec.not_lt_zero
    have unchanged : Function.update a way 0 = a := by rw [← clear,Function.update_eq_self]
    rw [List.foldlM_cons,update_turn,if_neg notOlder,unchanged,Option.bind_eq_bind,Option.bind_some]
    exact ih a clear

theorem first_way : ∀ {ways : Nat}, 0 < ways →
    ∃ (first : Fin ways) (rest : List (Fin ways)), first.val = 0 ∧ List.finRange ways = first :: rest := by
  intro ways positive
  cases ways with
  | zero => exact absurd positive (Nat.lt_irrefl 0)
  | succ n => exact ⟨0,_,rfl,List.finRange_succ⟩

theorem LRU_age_update_correct (cache : cache g) (way : Fin g.WAYS) (s : Fin g.LINES) :
    LRU_age_update cache way.val s.val = some (with_ages cache s (updated (ages cache s) way)) := by
  obtain ⟨first,rest,zero,order⟩ := first_way (Nat.lt_of_le_of_lt (Nat.zero_le _) way.isLt)
  have turn := update_turn cache way s (ages cache s) first
  rw [with_ages_self] at turn
  rw [LRU_age_update,order,List.foldlM_cons,turn,Option.bind_eq_bind,Option.bind_some,update_still _ _ _ _ _ (by simp)]
  congr 2
  funext w
  unfold updated
  by_cases same : w = way
  · simp [same]
  · rw [Function.update_of_ne same,if_neg same]
    by_cases isFirst : w = first
    · subst isFirst
      by_cases older : ages cache s w < ages cache s way
      · simp [older,zero]
      · simp [older]
    · have notZero : w.val ≠ 0 := fun also => isFirst (Fin.ext (also.trans zero.symm))
      by_cases older : ages cache s first < ages cache s way
      · simp [older,notZero,isFirst]
      · simp [older,notZero]

end CacheEmulator.Cache
