import CacheEmulator.History
import CacheEmulator.Lookup
import CacheEmulator.Machine

/-!
The caches told by their history. Flushes, fills from the memory there is then and
lookups come in any order. A slot holds the line it was last filled with since its
cache was flushed, with the words that the memory had when it was filled, and a
lookup answers by what the slots of one set were filled with, whatever was looked
up in the meantime and however the memory has changed.
-/
namespace CacheEmulator.CacheHistory
open CacheEmulator.Error CacheEmulator.Memory CacheEmulator.Addr CacheEmulator.Cache CacheEmulator.CacheMng
open CacheEmulator.CacheCalls CacheEmulator.Coherence CacheEmulator.Lookup CacheEmulator.History
open CacheEmulator.Machine (run)

/-! ### Events -/

/-- A flush, a fill of a way of the set of an address, or a lookup. -/
inductive event
  | flush (ptr : cache_ptr) (type : cache_t)
  | fill (mem : mem_space) (paddr : phy_addr_t) (way : BitVec 8) (ptr : cache_ptr) (type : cache_t)
      (old : cache_entry_t ptr.type)
  | lookup (paddr : phy_addr_t) (line : line_ptr) (ptr : cache_ptr) (type : cache_t)

/-- What a call returns; a lookup also writes through its pointers. -/
inductive outcome
  | returned (code : error_code)
  | found (hit : hit_t)

/-- An entry is initialised from the memory and inserted in the set of its address. -/
def fill (mem : mem_space) (paddr : phy_addr_t) (way : BitVec 8) (ptr : cache_ptr) (type : cache_t)
    (old : cache_entry_t ptr.type) (cs : caches) : Option (error_code × caches) := do
  let initialised ← cache_entry_init mem paddr old type
  if initialised.1 = .ERR_NONE then
    cache_insert (BitVec.ofNat 16 (set_of ptr (address paddr)).val) way initialised.2 cs ptr type
  else some (initialised.1,cs)

def step (cs : caches) : event → Option (outcome × caches)
  | .flush ptr type => (cache_flush cs ptr type).map (fun done => (.returned done.1,done.2))
  | .fill mem paddr way ptr type old => (fill mem paddr way ptr type old cs).map (fun done => (.returned done.1,done.2))
  | .lookup paddr line ptr type => (cache_hit cs ptr paddr line type).map (fun hit => (.found hit,hit.caches))

/-- An event and its outcome. -/
abbrev occurrence := event × outcome

/-- The memory a line was read from, and the address. -/
abbrev source := mem_space × phy_addr_t

/-- What an accepted flush or fill makes of a slot that it concerns. -/
def change (ptr : cache_ptr) (i : Fin ptr.type.LINES) (w : Fin ptr.type.WAYS) : occurrence → Option (Option source)
  | (.flush flushed _,.returned .ERR_NONE) => if flushed = ptr then some none else none
  | (.fill mem paddr way filled _ _,.returned .ERR_NONE) =>
    if filled = ptr ∧ (set_of filled (address paddr)).val = i.val ∧ way.toNat = w.val then some (some (mem,paddr)) else none
  | _ => none

/-- What the slot was last filled with, if it was not flushed after that. -/
def occupant (history : List occurrence) (ptr : cache_ptr) (i : Fin ptr.type.LINES) (w : Fin ptr.type.WAYS) :
    Option source :=
  (latest (change ptr i w) history).join

/-- A slot with the line of an address as a memory had it. -/
structure Keeps (ptr : cache_ptr) (i : Fin ptr.type.LINES) (entry : cache_entry_t ptr.type) (from_memory : source) : Prop where
  place : set_of ptr (address from_memory.2) = i
  aligned : address from_memory.2 % 16 = 0
  valid : entry.v = 1#1
  tag : entry.tag.toNat = address from_memory.2 / 2 ^ ptr.type.TAG_REMAINING_BITS
  words : load_line from_memory.1 (line_base (address from_memory.2)) = some entry.line

/-- A slot is as its occupant says; without one it is invalid. -/
def Told (ptr : cache_ptr) (i : Fin ptr.type.LINES) (entry : cache_entry_t ptr.type) : Option source → Prop
  | none => entry.v = 0#1
  | some from_memory => Keeps ptr i entry from_memory

/-- All slots are as the history has left them. -/
def Recorded (history : List occurrence) (cs : caches) : Prop :=
  ∀ (ptr : cache_ptr) (i : Fin ptr.type.LINES) (w : Fin ptr.type.WAYS),
    Told ptr i (cs.deref ptr i w) (occupant history ptr i w)

/-! ### Slots -/

section
variable {history : List occurrence} {cs : caches} {ptr : cache_ptr} {i : Fin ptr.type.LINES} {w : Fin ptr.type.WAYS}

theorem occupant_changed {o : occurrence} {now : Option source} (changed : change ptr i w o = some now) :
    occupant (history ++ [o]) ptr i w = now := by
  rw [occupant,latest_concat,changed,Option.some_or,Option.join_some]

theorem occupant_unchanged {o : occurrence} (unchanged : change ptr i w o = none) :
    occupant (history ++ [o]) ptr i w = occupant history ptr i w := by
  rw [occupant,latest_concat,unchanged,Option.none_or,occupant]

/-- An occurrence without a change for any slot, after which only ages differ. -/
theorem recorded_unchanged {after : caches} {o : occurrence} (recorded : Recorded history cs)
    (unchanged : ∀ (ptr : cache_ptr) (i : Fin ptr.type.LINES) (w : Fin ptr.type.WAYS), change ptr i w o = none)
    (same : ∀ ptr, SameLines (cs.deref ptr) (after.deref ptr)) : Recorded (history ++ [o]) after := by
  intro ptr i w
  rw [occupant_unchanged (unchanged ptr i w)]
  have before := recorded ptr i w
  obtain ⟨v,tag,line⟩ := same ptr i w
  cases here : occupant history ptr i w with
  | none =>
    rw [here] at before
    exact v.trans before
  | some from_memory =>
    rw [here] at before
    exact ⟨before.place,before.aligned,v.trans before.valid,by rw [tag,before.tag],by rw [line,before.words]⟩

/-- A slot has the line of an address when it was filled with it. -/
theorem held_iff (recorded : Recorded history cs) (p : Nat) (w : Fin ptr.type.WAYS) :
    Held ptr (cs.deref ptr) p w ↔
      ∃ from_memory, occupant history ptr (set_of ptr p) w = some from_memory ∧ address from_memory.2 / 16 = p / 16 := by
  have told := recorded ptr (set_of ptr p) w
  cases here : occupant history ptr (set_of ptr p) w with
  | none =>
    rw [here] at told
    constructor
    · intro held
      exact absurd (held.1.symm.trans told) (by decide)
    · rintro ⟨_,none,_⟩
      cases none
  | some from_memory =>
    rw [here] at told
    constructor
    · intro held
      refine ⟨from_memory,rfl,?_⟩
      -- Set and tag together give the line back, on either side.
      have line := line_address_correct ptr p held.2
      have line' := line_address_correct ptr (address from_memory.2) told.tag
      rw [told.place,line] at line'
      omega
    · rintro ⟨_,the_same,same⟩
      obtain rfl := Option.some.inj the_same
      refine ⟨told.valid,told.tag.trans ?_⟩
      cases ptr with
      | l1_cache =>
        simp only [L1_ICACHE_TAG_REMAINING_BITS]
        omega
      | l2_cache =>
        simp only [L2_CACHE_TAG_REMAINING_BITS]
        omega

theorem valid_iff_occupied (recorded : Recorded history cs) (i : Fin ptr.type.LINES) (w : Fin ptr.type.WAYS) :
    (cs.deref ptr i w).v = 1#1 ↔ (occupant history ptr i w).isSome := by
  have told := recorded ptr i w
  cases here : occupant history ptr i w with
  | none =>
    rw [here] at told
    rw [show (cs.deref ptr i w).v = 0#1 from told]
    decide
  | some from_memory =>
    rw [here] at told
    simp [told.valid]

end

/-! ### What one call does -/

section
variable {history : List occurrence} {cs next : caches} {ptr : cache_ptr} {type : cache_t}

/-- A flush that is accepted, and one of no known type. -/
theorem flush_recorded (recorded : Recorded history cs) {o : outcome}
    (stepped : step cs (.flush ptr type) = some (o,next)) :
    Recorded (history ++ [(.flush ptr type,o)]) next ∧
      o = .returned (if type.cast.isSome then .ERR_NONE else .ERR_BAD_PARAMETER) := by
  simp only [step,cache_flush] at stepped
  cases known : type.cast with
  | none =>
    rw [known] at stepped
    cases stepped
    exact ⟨recorded_unchanged recorded (fun _ _ _ => rfl) (fun _ => sameLines_refl _),rfl⟩
  | some cast =>
    simp only [known] at stepped
    by_cases typed : cast = ptr
    · rw [if_pos typed] at stepped
      cases stepped
      refine ⟨?_,rfl⟩
      intro other i w
      by_cases here : ptr = other
      · subst here
        have cleared : change ptr i w (.flush ptr type,.returned .ERR_NONE) = some none := if_pos rfl
        rw [occupant_changed cleared,caches.deref_assign]
        rfl
      · have kept : change other i w (.flush ptr type,.returned .ERR_NONE) = none := if_neg here
        rw [occupant_unchanged kept,caches.deref_assign_of_ne cs (Ne.symm here)]
        exact recorded other i w
    · rw [if_neg typed] at stepped
      cases stepped

/-- An entry is only initialised from a line inside the memory. -/
theorem cache_entry_init_loaded {mem : mem_space} {paddr : phy_addr_t} {old : cache_entry_t ptr.type}
    {r : error_code × cache_entry_t ptr.type} (cast : type.cast = some ptr) (aligned : address paddr % 16 = 0)
    (initialised : cache_entry_init mem paddr old type = some r) :
    ∃ words, load_line mem (line_base (address paddr)) = some words := by
  have accepted : (paddr_to_uint32_t paddr).toNat % L1_ICACHE_LINE = 0 := aligned
  simp only [cache_entry_init,cast,require_holds accepted,↓reduceIte,entry_init,line_base_correct] at initialised
  obtain ⟨words,copied,_⟩ := Option.bind_eq_some_iff.mp initialised
  exact ⟨words,load_line_some.mpr (copy_words_line.mp copied)⟩

/-- The cases of a call that initialises and inserts: it is refused, or the slot becomes the line. -/
inductive Filled (cs : caches) (mem : mem_space) (paddr : phy_addr_t) (way : BitVec 8) (ptr : cache_ptr) (type : cache_t) :
    error_code → caches → Prop
  | refused (because : ¬ (type.cast.isSome ∧ address paddr % 16 = 0 ∧ way.toNat < ptr.type.WAYS)) :
    Filled cs mem paddr way ptr type .ERR_BAD_PARAMETER cs
  | inserted (w : Fin ptr.type.WAYS) (words : line_t) (typed : type.cast = some ptr) (aligned : address paddr % 16 = 0)
      (number : way.toNat = w.val) (loaded : load_line mem (line_base (address paddr)) = some words) :
    Filled cs mem paddr way ptr type .ERR_NONE
      (cs.assign ptr (put (cs.deref ptr) (set_of ptr (address paddr)) w (new_entry ptr (address paddr) words)))

theorem fill_cases {mem : mem_space} {paddr : phy_addr_t} {way : BitVec 8} {old : cache_entry_t ptr.type}
    {code : error_code} (filled : fill mem paddr way ptr type old cs = some (code,next)) :
    Filled cs mem paddr way ptr type code next := by
  obtain ⟨⟨status,entry⟩,initialised,rest⟩ := Option.bind_eq_some_iff.mp filled
  cases known : type.cast with
  | none =>
    simp only [cache_entry_init,known] at initialised
    cases initialised
    cases rest
    exact .refused (by simp [known])
  | some cast =>
    by_cases aligned : address paddr % 16 = 0
    · by_cases typed : cast = ptr
      · subst typed
        obtain ⟨words,loaded⟩ := cache_entry_init_loaded known aligned initialised
        rw [cache_entry_init_total known aligned loaded old] at initialised
        cases initialised
        simp only [↓reduceIte] at rest
        by_cases inside : way.toNat < cast.type.WAYS
        · have number : way = BitVec.ofNat 8 (⟨way.toNat,inside⟩ : Fin cast.type.WAYS).val := by simp
          rw [number,cache_insert_total cs known] at rest
          cases rest
          exact .inserted ⟨way.toNat,inside⟩ words known aligned rfl loaded
        · rw [cache_insert_refused cs known (.inr (Nat.le_of_not_lt inside))] at rest
          cases rest
          exact .refused (fun all => inside all.2.2)
      · have accepted : (paddr_to_uint32_t paddr).toNat % L1_ICACHE_LINE = 0 := aligned
        simp only [cache_entry_init,known,require_holds accepted,if_neg typed] at initialised
        cases initialised
    · have misaligned : ¬ (paddr_to_uint32_t paddr).toNat % L1_ICACHE_LINE = 0 := aligned
      simp only [cache_entry_init,known,require_fails misaligned] at initialised
      cases initialised
      cases rest
      exact .refused (fun all => aligned all.2.1)

theorem fill_recorded (recorded : Recorded history cs) {mem : mem_space} {paddr : phy_addr_t} {way : BitVec 8}
    {old : cache_entry_t ptr.type} {o : outcome} (stepped : step cs (.fill mem paddr way ptr type old) = some (o,next)) :
    Recorded (history ++ [(.fill mem paddr way ptr type old,o)]) next ∧
      o = .returned (if type.cast.isSome ∧ address paddr % 16 = 0 ∧ way.toNat < ptr.type.WAYS then .ERR_NONE
        else .ERR_BAD_PARAMETER) := by
  obtain ⟨⟨code,after⟩,filled,same⟩ := Option.map_eq_some_iff.mp stepped
  cases same
  cases fill_cases filled with
  | refused because =>
    rw [if_neg because]
    exact ⟨recorded_unchanged recorded (fun _ _ _ => rfl) (fun _ => sameLines_refl _),rfl⟩
  | inserted w words typed aligned number loaded =>
    have accepted : type.cast.isSome ∧ address paddr % 16 = 0 ∧ way.toNat < ptr.type.WAYS :=
      ⟨by rw [typed,Option.isSome_some],aligned,number ▸ w.isLt⟩
    rw [if_pos accepted]
    refine ⟨?_,rfl⟩
    have slot := only_slot ptr cs (set_of ptr (address paddr)) w (new_entry ptr (address paddr) words)
    intro other i v
    by_cases same : ptr = other
    · subst same
      by_cases here : i = set_of ptr (address paddr) ∧ v = w
      · obtain ⟨rfl,rfl⟩ := here
        have taken : change ptr (set_of ptr (address paddr)) v (.fill mem paddr way ptr type old,.returned .ERR_NONE) =
            some (some (mem,paddr)) := if_pos ⟨rfl,rfl,number⟩
        rw [occupant_changed taken,slot.slot]
        exact ⟨rfl,aligned,rfl,new_entry_tag ptr paddr words,loaded⟩
      · have kept : change ptr i v (.fill mem paddr way ptr type old,.returned .ERR_NONE) = none := by
          refine if_neg ?_
          rintro ⟨_,line,number'⟩
          exact here ⟨Fin.ext line.symm,Fin.ext (number'.symm.trans number)⟩
        rw [occupant_unchanged kept,slot.slots i v (by tauto)]
        exact recorded ptr i v
    · have kept : change other i v (.fill mem paddr way ptr type old,.returned .ERR_NONE) = none :=
        if_neg (fun all => same all.1)
      rw [occupant_unchanged kept,slot.other_cache other (Ne.symm same)]
      exact recorded other i v

end

/-! ### What a lookup answers -/

/-- The first way of the set that was filled with the line of an address, all ways
    before it being filled with other lines. -/
def Serves (history : List occurrence) (ptr : cache_ptr) (p : Nat) (w : Fin ptr.type.WAYS) : Prop :=
  (∃ from_memory, occupant history ptr (set_of ptr p) w = some from_memory ∧ address from_memory.2 / 16 = p / 16) ∧
    ∀ v < w, ∃ from_memory, occupant history ptr (set_of ptr p) v = some from_memory ∧
      address from_memory.2 / 16 ≠ p / 16

/-- A lookup reports the way that serves the address, with the words that were there when it was filled. -/
structure Looked (history : List occurrence) (ptr : cache_ptr) (p : Nat) (hit : hit_t) : Prop where
  code : hit.code = .ERR_NONE
  way : ∀ w : Fin ptr.type.WAYS, hit.hit_way.toNat = w.val ↔ Serves history ptr p w
  missed : hit.hit_way = HIT_WAY_MISS ↔ ∀ w : Fin ptr.type.WAYS, ¬ Serves history ptr p w
  index : hit.hit_index = if hit.hit_way = HIT_WAY_MISS then HIT_INDEX_MISS else BitVec.ofNat 16 (set_of ptr p).val
  words : ∀ (w : Fin ptr.type.WAYS) (from_memory : source), hit.hit_way.toNat = w.val →
    occupant history ptr (set_of ptr p) w = some from_memory → ∀ j : Fin L1_ICACHE_WORDS_PER_LINE,
      ∃ word, read_line hit.caches hit.line j.val = some word ∧ load from_memory.1 (line_base p + j.val) = some word

section
variable {history : List occurrence} {cs next : caches} {ptr : cache_ptr} {type : cache_t}

/-- A way serves an address when the lookup stops there. -/
theorem serves_iff (recorded : Recorded history cs) {p : Nat} (small : p < 2 ^ 32) (w : Fin ptr.type.WAYS) :
    hit_in ptr (cs.deref ptr) p = some w ↔ Serves history ptr p w := by
  rw [hit_in_iff small,Serves,held_iff recorded,Reached]
  refine and_congr_right (fun _ => ?_)
  constructor
  · rintro ⟨reached,others⟩ v earlier
    obtain ⟨from_memory,here⟩ := Option.isSome_iff_exists.mp ((valid_iff_occupied recorded _ v).mp (reached v earlier))
    exact ⟨from_memory,here,fun same => others v earlier ((held_iff recorded p v).mpr ⟨from_memory,here,same⟩)⟩
  · intro before
    refine ⟨?_,?_⟩
    · intro v earlier
      obtain ⟨from_memory,here,_⟩ := before v earlier
      exact (valid_iff_occupied recorded _ v).mpr (Option.isSome_of_eq_some here)
    · intro v earlier held
      obtain ⟨from_memory,here,other⟩ := before v earlier
      obtain ⟨also,there,same⟩ := (held_iff recorded p v).mp held
      obtain rfl := Option.some.inj (here.symm.trans there)
      exact other same

theorem looked_correct (recorded : Recorded history cs) {p : Nat} (small : p < 2 ^ 32) (line : line_ptr) :
    Looked history ptr p (hit_of cs ptr p line) := by
  cases found : hit_in ptr (cs.deref ptr) p with
  | none =>
    have no_way : ∀ w : Fin ptr.type.WAYS, ¬ Serves history ptr p w := by
      intro w serves
      rw [(serves_iff recorded small w).mpr serves] at found
      cases found
    rw [hit_of,found]
    refine ⟨rfl,?_,iff_of_true rfl no_way,(if_pos rfl).symm,?_⟩
    · intro w
      exact iff_of_false (fun same => way_ne_miss w same.symm) (no_way w)
    · intro w _ same
      exact absurd same.symm (way_ne_miss w)
  | some way =>
    have serves := (serves_iff recorded small way).mp found
    have only : ∀ w : Fin ptr.type.WAYS, Serves history ptr p w → w = way := by
      intro w also
      have twice := found.symm.trans ((serves_iff recorded small w).mpr also)
      exact (Option.some.inj twice).symm
    obtain ⟨code,number,_⟩ := hit_reports cs found line
    have words := hit_words cs found line
    have reported : (hit_of cs ptr p line).hit_way ≠ HIT_WAY_MISS := by
      intro missed
      rw [missed] at number
      exact way_ne_miss way number.symm
    refine ⟨code,?_,?_,?_,?_⟩
    · intro w
      rw [number]
      constructor
      · intro same
        rwa [← Fin.ext same]
      · intro also
        rw [only w also]
    · exact iff_of_false reported (fun no_way => no_way way serves)
    · rw [if_neg reported,hit_of,found]
    · intro w from_memory same here j
      obtain rfl : way = w := Fin.ext (number.symm.trans same)
      obtain ⟨also,there,line_of⟩ := serves.1
      obtain rfl := Option.some.inj (here.symm.trans there)
      have told := recorded ptr (set_of ptr p) way
      rw [here] at told
      have loaded := load_line_some.mp told.words j
      rw [line_base,line_of] at loaded
      exact ⟨_,words j,loaded⟩

theorem lookup_recorded (recorded : Recorded history cs) {paddr : phy_addr_t} {line : line_ptr} {o : outcome}
    (stepped : step cs (.lookup paddr line ptr type) = some (o,next)) :
    Recorded (history ++ [(.lookup paddr line ptr type,o)]) next ∧ ∃ hit, o = .found hit ∧
      if type.cast.isSome then Looked history ptr (address paddr) hit
      else hit.code = .ERR_BAD_PARAMETER ∧ hit.hit_way = HIT_WAY_MISS := by
  obtain ⟨hit,looked,same⟩ := Option.map_eq_some_iff.mp stepped
  cases same
  cases known : type.cast with
  | none =>
    simp only [cache_hit,known] at looked
    cases looked
    exact ⟨recorded_unchanged recorded (fun _ _ _ => rfl) (fun _ => sameLines_refl _),_,rfl,by simp⟩
  | some cast =>
    by_cases typed : cast = ptr
    · subst typed
      rw [cache_hit_total cs paddr line known] at looked
      cases looked
      refine ⟨?_,_,rfl,by simpa using looked_correct recorded (address_lt paddr) line⟩
      refine recorded_unchanged recorded (fun _ _ _ => rfl) ?_
      intro other
      obtain ⟨hit,again,_,after⟩ := cache_hit_correct cs paddr line known
      rw [cache_hit_total cs paddr line known] at again
      rw [Option.some.inj again,after]
      by_cases here : other = cast
      · subst here
        rw [caches.deref_assign]
        exact sameLines_looked_up _ _ _
      · rw [caches.deref_assign_of_ne cs here]
        exact sameLines_refl _
    · simp only [cache_hit,known,if_neg typed] at looked
      cases looked

end

/-! ### Runs of calls -/

/-- What a call returns after a history. -/
def Answered (history : List occurrence) : event → outcome → Prop
  | .flush _ type, o => o = .returned (if type.cast.isSome then .ERR_NONE else .ERR_BAD_PARAMETER)
  | .fill _ paddr way ptr type _, o =>
    o = .returned (if type.cast.isSome ∧ address paddr % 16 = 0 ∧ way.toNat < ptr.type.WAYS then .ERR_NONE
      else .ERR_BAD_PARAMETER)
  | .lookup paddr _ ptr type, o => ∃ hit, o = .found hit ∧
      if type.cast.isSome then Looked history ptr (address paddr) hit
      else hit.code = .ERR_BAD_PARAMETER ∧ hit.hit_way = HIT_WAY_MISS

theorem step_recorded {history : List occurrence} {cs next : caches} {e : event} {o : outcome}
    (recorded : Recorded history cs) (stepped : step cs e = some (o,next)) :
    Recorded (history ++ [(e,o)]) next ∧ Answered history e o := by
  cases e with
  | flush ptr type => exact flush_recorded recorded stepped
  | fill mem paddr way ptr type old => exact fill_recorded recorded stepped
  | lookup paddr line ptr type => exact lookup_recorded recorded stepped

theorem flushed_recorded : Recorded [] flushed := by
  intro ptr i w
  cases ptr <;> rfl

theorem run_recorded {events : List event} {outcomes : List outcome} {cs : caches}
    (ran : run step flushed events = some (outcomes,cs)) :
    Recorded (events.zip outcomes) cs ∧ outcomes.length = events.length ∧
      ∀ (k : Nat) (e : event) (o : outcome), events[k]? = some e → outcomes[k]? = some o →
        Answered ((events.zip outcomes).take k) e o := by
  have kept : ∀ (before : List occurrence) (cs : caches) (e : event) (o : outcome) (next : caches),
      Recorded before cs → step cs e = some (o,next) → Recorded (before ++ [(e,o)]) next ∧ Answered before e o :=
    fun _ _ _ _ _ recorded stepped => step_recorded recorded stepped
  simpa using Machine.run_records kept events [] flushed cs outcomes flushed_recorded ran

/-- The pointer goes with the type, if the type is known. -/
def Typed (ptr : cache_ptr) (type : cache_t) : Prop := ∀ cast, type.cast = some cast → cast = ptr

/-- Calls with pointers of their type, whose lines lie inside the memory there is then. -/
def Legal : event → Prop
  | .flush ptr type => Typed ptr type
  | .fill mem paddr _ ptr type _ => Typed ptr type ∧ LineInside mem (address paddr)
  | .lookup _ _ ptr type => Typed ptr type

theorem fill_total (cs : caches) {mem : mem_space} {paddr : phy_addr_t} (way : BitVec 8) {ptr : cache_ptr} {type : cache_t}
    (old : cache_entry_t ptr.type) (typed : Typed ptr type) (inside : LineInside mem (address paddr)) :
    (fill mem paddr way ptr type old cs).isSome := by
  cases known : type.cast with
  | none => simp [fill,cache_entry_init,known]
  | some cast =>
    obtain rfl := typed cast known
    by_cases aligned : address paddr % 16 = 0
    · obtain ⟨words,loaded⟩ := Option.isSome_iff_exists.mp ((load_line_isSome mem (address paddr)).mpr inside)
      simp only [fill,cache_entry_init_total known aligned loaded old,Option.bind_eq_bind,Option.bind_some,↓reduceIte]
      by_cases room : way.toNat < cast.type.WAYS
      · have number : way = BitVec.ofNat 8 (⟨way.toNat,room⟩ : Fin cast.type.WAYS).val := by simp
        rw [number,cache_insert_total cs known,Option.isSome_some]
      · rw [cache_insert_refused cs known (.inr (Nat.le_of_not_lt room)),Option.isSome_some]
    · have misaligned : ¬ (paddr_to_uint32_t paddr).toNat % L1_ICACHE_LINE = 0 := aligned
      simp [fill,cache_entry_init,known,require_fails misaligned]

theorem step_total (cs : caches) {e : event} (legal : Legal e) : (step cs e).isSome := by
  cases e with
  | flush ptr type =>
    rw [step,Option.isSome_map]
    cases known : type.cast with
    | none => simp [cache_flush,known]
    | some cast => simp [cache_flush,known,legal cast known]
  | fill mem paddr way ptr type old =>
    rw [step,Option.isSome_map]
    exact fill_total cs way old legal.1 legal.2
  | lookup paddr line ptr type =>
    rw [step,Option.isSome_map]
    cases known : type.cast with
    | none => simp [cache_hit,known]
    | some cast =>
      obtain rfl := legal cast known
      rw [cache_hit_total cs paddr line known,Option.isSome_some]

theorem run_total {events : List event} (legal : ∀ e ∈ events, Legal e) :
    ∃ outcomes cs, run step flushed events = some (outcomes,cs) := by
  have total : ∀ (_ : List event) (cs : caches) (e : event), True → Legal e →
      ∃ o next, step cs e = some (o,next) ∧ True ∧ True := by
    intro _ cs e _ accepted
    obtain ⟨⟨o,next⟩,stepped⟩ := Option.isSome_iff_exists.mp (step_total cs accepted)
    exact ⟨o,next,stepped,trivial,trivial⟩
  obtain ⟨outcomes,cs,ran,_⟩ := @Machine.run_answers _ _ _ step Legal (fun _ _ => True) (fun _ _ _ => True) total events []
    flushed trivial legal
  exact ⟨outcomes,cs,ran⟩

/-- Exact contents: after any flushes, fills and lookups from flushed caches, a slot is valid just
    when it was filled and its cache not flushed since, and has the line of the latest fill
    with the words that the memory had then. -/
theorem cache_contents_by_history {events : List event} (legal : ∀ e ∈ events, Legal e) :
    ∃ outcomes cs, run step flushed events = some (outcomes,cs) ∧
      ∀ (ptr : cache_ptr) (i : Fin ptr.type.LINES) (w : Fin ptr.type.WAYS),
        ((cs.deref ptr i w).v = 1#1 ↔ (occupant (events.zip outcomes) ptr i w).isSome) ∧
        ∀ from_memory, occupant (events.zip outcomes) ptr i w = some from_memory →
          Keeps ptr i (cs.deref ptr i w) from_memory := by
  obtain ⟨outcomes,cs,ran⟩ := run_total legal
  obtain ⟨recorded,_⟩ := run_recorded ran
  refine ⟨outcomes,cs,ran,?_⟩
  intro ptr i w
  refine ⟨valid_iff_occupied recorded i w,?_⟩
  intro from_memory here
  have told := recorded ptr i w
  rw [here] at told
  exact told

/-- The second line of a memory put into a way of L1 and looked up, with a flush of L2 between. -/
def zero_events : List event :=
  [.fill zero_block paddr_16 1 .l1_cache .L1_DCACHE ⟨0,0,0,fun _ => 0⟩,.flush .l2_cache .L2_CACHE,
    .lookup paddr_16 .NULL .l1_cache .L1_DCACHE]

theorem zero_events_legal : ∀ e ∈ zero_events, Legal e := by
  intro e member
  simp only [zero_events,List.mem_cons,List.not_mem_nil,or_false] at member
  rcases member with rfl | rfl | rfl
  · exact ⟨fun cast known => (Option.some.inj known).symm,by decide⟩
  · exact fun cast known => (Option.some.inj known).symm
  · exact fun cast known => (Option.some.inj known).symm

theorem cache_contents_by_history_zero : ∃ outcomes cs, run step flushed zero_events = some (outcomes,cs) ∧
    ∀ (ptr : cache_ptr) (i : Fin ptr.type.LINES) (w : Fin ptr.type.WAYS),
      ((cs.deref ptr i w).v = 1#1 ↔ (occupant (zero_events.zip outcomes) ptr i w).isSome) ∧
      ∀ from_memory, occupant (zero_events.zip outcomes) ptr i w = some from_memory →
        Keeps ptr i (cs.deref ptr i w) from_memory :=
  cache_contents_by_history zero_events_legal

/-- Every call is accounted for: a lookup reports the first way that was filled with the line, if all
    ways before it are filled, with the words of that fill, and a call is refused just when its
    type is unknown or its fill misaligned or outside the cache. -/
theorem cache_answers_by_history {events : List event} {outcomes : List outcome} {cs : caches}
    (ran : run step flushed events = some (outcomes,cs)) : outcomes.length = events.length ∧
      ∀ (k : Nat) (e : event) (o : outcome), events[k]? = some e → outcomes[k]? = some o →
        Answered ((events.zip outcomes).take k) e o :=
  (run_recorded ran).2

theorem cache_answers_by_history_zero : ∃ outcomes cs, run step flushed zero_events = some (outcomes,cs) ∧
    outcomes.length = zero_events.length ∧
      ∀ (k : Nat) (e : event) (o : outcome), zero_events[k]? = some e → outcomes[k]? = some o →
        Answered ((zero_events.zip outcomes).take k) e o := by
  obtain ⟨outcomes,cs,ran⟩ := run_total zero_events_legal
  exact ⟨outcomes,cs,ran,cache_answers_by_history ran⟩

end CacheEmulator.CacheHistory
