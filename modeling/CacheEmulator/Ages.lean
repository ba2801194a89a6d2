import CacheEmulator.CacheCalls
import CacheEmulator.Ranking

/-!
The ages of a set against a ranking by recency, and the choice of a victim by
age. The update compares ages with one that its first turn has cleared, so only
the first way can get older; the increase counts the way just filled as one
fill old; and the search starts from an age that no way can pass.
-/
namespace CacheEmulator.Ages
open CacheEmulator.Memory CacheEmulator.Cache CacheEmulator.CacheMng CacheEmulator.CacheCalls CacheEmulator.Ranking

variable {g : geometry} {cache : Cache.cache g} {s : Fin g.LINES} {way : Fin g.WAYS}

/-- The ages of a set as numbers. -/
def numbers (cache : Cache.cache g) (s : Fin g.LINES) (w : Fin g.WAYS) : Nat := (ages cache s w).toNat

theorem numbers_with_ages (cache : Cache.cache g) (s : Fin g.LINES) (a : Fin g.WAYS → BitVec g.AGE_BITS)
    (w : Fin g.WAYS) : numbers (with_ages cache s a) s w = (a w).toNat := by
  rw [numbers,ages_with_ages]

/-! ### The update -/

/-- The age macro of a fill, run for one way after another. -/
def fills (cache : Cache.cache g) (s : Fin g.LINES) (ways : List (Fin g.WAYS)) : Option (Cache.cache g) :=
  ways.foldlM (fun cache way => LRU_age_increase cache way.val s.val) cache

theorem increased_number (fits : g.WAYS ≤ 2 ^ g.AGE_BITS) (filled : Prop) [Decidable filled] (age : BitVec g.AGE_BITS) :
    (increased g filled age).toNat = if filled then min 1 (g.WAYS - 1)
      else if age.toNat < g.WAYS - 1 then age.toNat + 1 else age.toNat := by
  have next : ∀ age : BitVec g.AGE_BITS, age.toNat < g.WAYS - 1 → (age + 1).toNat = age.toNat + 1 :=
    fun age less => Bits.toNat_add_one (by omega)
  have zero : (0 : BitVec g.AGE_BITS).toNat = 0 := by simp
  by_cases isFilled : filled
  · simp only [increased,isFilled,↓reduceIte]
    by_cases less : (0 : BitVec g.AGE_BITS).toNat < g.WAYS - 1
    · rw [if_pos less,next 0 less]
      omega
    · rw [if_neg less]
      omega
  · simp only [increased,isFilled,↓reduceIte]
    by_cases less : age.toNat < g.WAYS - 1
    · rw [if_pos less,if_pos less,next age less]
    · rw [if_neg less,if_neg less]

/-- A way counts as one fill old as soon as it is filled: `k` fills later its age is `k + 1`, up to the greatest age. -/
theorem fills_correct (fits : g.WAYS ≤ 2 ^ g.AGE_BITS) (cache : Cache.cache g) (s : Fin g.LINES) :
    ∀ ways : List (Fin g.WAYS), ways.Nodup → ∃ after, fills cache s ways = some after ∧
      ∀ k w, ways.reverse[k]? = some w → numbers after s w = min (k + 1) (g.WAYS - 1) := by
  intro ways
  induction ways using List.reverseRecOn with
  | nil => exact fun _ => ⟨cache,rfl,by simp⟩
  | append_singleton earlier way ih =>
    intro distinct
    obtain ⟨distinct,_,apart⟩ := List.nodup_append.mp distinct
    obtain ⟨before,ran,law⟩ := ih distinct
    rw [fills] at ran
    refine ⟨with_ages before s (fun w => increased g (w.val = way.val) (before s w).age),?_,?_⟩
    · rw [fills,List.foldlM_append,ran]
      simp [LRU_age_increase_correct]
    · intro k w here
      rw [numbers_with_ages,increased_number fits]
      rw [List.reverse_append,List.reverse_singleton,List.singleton_append] at here
      cases k with
      | zero =>
        have same : way = w := by simpa using here
        rw [same,if_pos rfl]
      | succ k =>
        rw [List.getElem?_cons_succ] at here
        have member : w ∈ earlier := List.mem_reverse.mp (List.mem_of_getElem? here)
        have other : w.val ≠ way.val := fun same => apart w member way (by simp) (Fin.ext same)
        have age := law k w here
        rw [numbers,ages] at age
        rw [if_neg other,age]
        split <;> omega

/-- What the ages should be after each of the fills. -/
def ColdStart (cache : Cache.cache g) (s : Fin g.LINES) (ways : List (Fin g.WAYS)) : Prop :=
  ∀ filled, filled <+: ways → ∃ after, fills cache s filled = some after ∧ Ordered (numbers after s) filled ∧
    (filled.length = g.WAYS → Permuted (numbers after s))

/-- The first fill already gives the wrong age when there is a second way. -/
theorem fill_too_old (field : 0 < g.AGE_BITS) (two : 1 < g.WAYS) (cache : Cache.cache g) (s : Fin g.LINES)
    (way : Fin g.WAYS) (ways : List (Fin g.WAYS)) : ¬ ColdStart cache s (way :: ways) := by
  intro cold
  obtain ⟨after,ran,ordered,_⟩ := cold [way] ⟨ways,rfl⟩
  have increase : fills cache s [way] = LRU_age_increase cache way.val s.val := by simp [fills]
  rw [increase,LRU_age_increase_correct] at ran
  obtain rfl := Option.some.inj ran
  have zero : (0 : BitVec g.AGE_BITS).toNat = 0 := by simp
  have one : 1 < 2 ^ g.AGE_BITS := Nat.one_lt_two_pow (Nat.ne_of_gt field)
  have age := ordered 0 way rfl
  rw [numbers_with_ages] at age
  simp only [increased,↓reduceIte] at age
  rw [if_pos (by omega),Bits.toNat_add_one (by omega)] at age
  omega

/-- From whatever ages, fills of distinct ways leave them in the order of the
    fills just when there is one way at most, or no fill. -/
theorem cold_start_iff (cache : Cache.cache g) (s : Fin g.LINES) (ways : List (Fin g.WAYS))
    (field : 0 < g.AGE_BITS) (distinct : ways.Nodup) :
    ColdStart cache s ways ↔ g.WAYS ≤ 1 ∨ ways = [] := by
  constructor
  · intro cold
    by_cases one : g.WAYS ≤ 1
    · exact .inl one
    · cases ways with
      | nil => exact .inr rfl
      | cons way ways => exact absurd cold (fill_too_old field (by omega) cache s way ways)
  · intro few filled before
    have part := distinct.sublist before.sublist
    have kept : ∃ after, fills cache s filled = some after ∧ Ordered (numbers after s) filled := by
      rcases few with one | rfl
      · obtain ⟨after,ran,law⟩ := fills_correct (one.trans Nat.one_le_two_pow) cache s filled part
        refine ⟨after,ran,?_⟩
        intro k w here
        rw [law k w here]
        omega
      · rw [List.prefix_nil.mp before]
        exact ⟨cache,rfl,by simp [Ordered]⟩
    obtain ⟨after,ran,ordered⟩ := kept
    exact ⟨after,ran,ordered,ordered.permuted part⟩

theorem cold_start_iff_first_way : ColdStart (cache_flush_process L1) 0 [0] ↔ L1.WAYS ≤ 1 ∨ [(0 : Fin L1.WAYS)] = [] :=
  cold_start_iff (cache_flush_process L1) 0 [0] (by decide) (by simp)

/-- In a flushed data cache the way just filled has age 1. -/
theorem fill_of_flushed_set :
    (∀ w, numbers (cache_flush_process L1) 0 w = 0) ∧ ¬ ColdStart (cache_flush_process L1) 0 [0] :=
  ⟨fun _ => rfl,fill_too_old (by decide) (by decide) _ _ _ _⟩

/-! ### The choice of a victim -/

/-- What the search for a place should find: an invalid way, or else a way of
    greatest age with its line and the address of that line. -/
structure VictimChosen (cache : Cache.cache g) (s : Fin g.LINES) (found : place_t) : Prop where
  inside : found.way_to_insert.toNat < g.WAYS
  cold : (∃ w, (cache s w).v = 0#1) → found.cold_case = 1 ∧
    ∃ w, found.way_to_insert.toNat = w.val ∧ (cache s w).v = 0#1
  full : (∀ w, (cache s w).v = 1#1) → found.cold_case = 0 ∧
    ∃ w, found.way_to_insert.toNat = w.val ∧ (∀ v, (cache s v).age ≤ (cache s w).age) ∧
      found.line_to_eject = some (s.val,w.val) ∧
      found.paddr_evicted = ((cache s w).tag.setWidth 32 <<< g.TAG_REMAINING_BITS) |||
        (BitVec.ofNat 32 s.val <<< WORDS_AND_BYTE_BITS)

/-- In a full set the search finds no line to eject. -/
theorem full_set_unchosen (full : ∀ w, (cache s w).v = 1#1) :
    ¬ ∃ found, search_empty_space_or_old_entry cache s.val none = some found ∧ VictimChosen cache s found := by
  have none_invalid : last_invalid cache s = none := by
    rw [← Option.not_isSome_iff_eq_none,last_invalid_isSome]
    simp [full]
  rintro ⟨found,searched,chosen⟩
  rw [search_correct,none_invalid] at searched
  obtain rfl := Option.some.inj searched
  obtain ⟨_,_,_,_,ejected,_⟩ := chosen.full full
  cases ejected

/-- The search chooses a place as it should just when the set has an invalid way. -/
theorem victim_chosen_iff (cache : Cache.cache g) (s : Fin g.LINES) (few : g.WAYS ≤ 2 ^ 8) :
    (∃ found, search_empty_space_or_old_entry cache s.val none = some found ∧ VictimChosen cache s found) ↔
      ∃ w, (cache s w).v = 0#1 := by
  constructor
  · intro chosen
    by_contra valid
    refine full_set_unchosen (fun w => ?_) chosen
    rcases BitVec.eq_zero_or_eq_one (cache s w).v with zero | one
    · exact absurd ⟨w,zero⟩ valid
    · exact one
  · intro cold
    obtain ⟨w,last⟩ := Option.isSome_iff_exists.mp (last_invalid_isSome.mpr cold)
    have invalid : (cache s w).v = 0#1 := last_invalid_invalid last
    have number := way_number few w
    rw [search_correct,last]
    refine ⟨_,rfl,?_,fun _ => ⟨rfl,w,number,invalid⟩,?_⟩
    · exact lt_of_eq_of_lt number w.isLt
    · intro full
      rw [full w] at invalid
      cases invalid

theorem victim_chosen_iff_flushed :
    (∃ found, search_empty_space_or_old_entry (cache_flush_process L1) 0 none = some found ∧
        VictimChosen (cache_flush_process L1) 0 found) ↔
      ∃ w, (cache_flush_process L1 0 w).v = 0#1 :=
  victim_chosen_iff (cache_flush_process L1) 0 (by decide)

/-- A data cache with a line of zeros in every way. -/
def full_cache : Cache.cache L1 := fun _ _ => ⟨1#1,0,0,fun _ => 0⟩

theorem full_cache_unchosen : ¬ ∃ found, search_empty_space_or_old_entry full_cache 0 none = some found ∧
    VictimChosen full_cache 0 found :=
  full_set_unchosen (s := 0) (fun _ => rfl)

end CacheEmulator.Ages
