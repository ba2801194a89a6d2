import Mathlib.Algebra.GroupWithZero.Nat
import Mathlib.Logic.Function.Basic
import Mathlib.Tactic.Common

/-!
Direct-mapped tables over numeric keys. A key lives only in the line of its
remainder and is told apart from the other keys of that line by its quotient.
A table backs another one when it answers every key that the other answers, in
the same way; filling both tables and dropping what the larger one loses keeps
the smaller ones backed.
-/
namespace CacheEmulator.DirectMapped
universe u
variable {β : Type u} {n m : Nat}

/-- Every line holds at most one tagged value. -/
abbrev Table (n : Nat) (β : Type u) := Fin n → Option (Nat × β)

/-- The line a key is mapped to. -/
def line (n : Nat) [NeZero n] (key : Nat) : Fin n := ⟨key % n,Nat.mod_lt key (Nat.pos_of_neZero n)⟩

/-- The key that a tag stands for in a line. -/
def keyOf (i : Fin n) (tag : Nat) : Nat := tag * n + i.val

def lookup [NeZero n] (table : Table n β) (key : Nat) : Option β :=
  match table (line n key) with
  | none => none
  | some (tag,value) => if tag = key / n then some value else none

def insert [NeZero n] (table : Table n β) (key : Nat) (value : β) : Table n β :=
  Function.update table (line n key) (some (key / n,value))

/-- Empties the lines whose key satisfies the condition. -/
def invalidate (table : Table n β) (condition : Nat → Prop) [DecidablePred condition] : Table n β := fun i =>
  match table i with
  | none => none
  | some (tag,value) => if condition (keyOf i tag) then none else some (tag,value)

/-- The key and the value that a line holds. -/
def held (table : Table n β) (i : Fin n) : Option (Nat × β) := (table i).map (fun slot => (keyOf i slot.1,slot.2))

/-- Every key found in the small table is found in the large one, with the same value. -/
def Backed [NeZero n] [NeZero m] (small : Table m β) (large : Table n β) : Prop :=
  ∀ key value, lookup small key = some value → lookup large key = some value

section
variable [NeZero n] [NeZero m]

theorem keyOf_line (key : Nat) : keyOf (line n key) (key / n) = key := by
  rw [keyOf,line,Nat.mul_comm]
  exact Nat.div_add_mod key n

/-- A line's key is mapped back to that line, with that tag. -/
theorem line_keyOf (i : Fin n) (tag : Nat) : line n (keyOf i tag) = i ∧ keyOf i tag / n = tag := by
  have pos := Nat.pos_of_neZero n
  constructor
  · apply Fin.ext
    simp [line,keyOf,Nat.mod_eq_of_lt i.isLt]
  · rw [keyOf,Nat.add_comm,Nat.add_mul_div_right _ _ pos,Nat.div_eq_of_lt i.isLt,Nat.zero_add]

theorem line_eq_iff (left right : Nat) : line n left = line n right ↔ left % n = right % n := by
  simp [line]

theorem lookup_some (table : Table n β) (key : Nat) (value : β) :
    lookup table key = some value ↔ table (line n key) = some (key / n,value) := by
  unfold lookup
  cases table (line n key) with
  | none => simp
  | some slot =>
    obtain ⟨tag,held⟩ := slot
    by_cases same : tag = key / n
    · simp [same]
    · simp [same]

@[simp] theorem lookup_empty (key : Nat) : lookup (fun _ => none : Table n β) key = none := rfl

/-- What a line holds is found under its key. -/
theorem lookup_keyOf {table : Table n β} {i : Fin n} {tag : Nat} {value : β} (held : table i = some (tag,value)) :
    lookup table (keyOf i tag) = some value := by
  obtain ⟨sameLine,sameTag⟩ := line_keyOf i tag
  rw [lookup_some,sameLine,sameTag]
  exact held

theorem lookup_insert_same (table : Table n β) (key : Nat) (value : β) :
    lookup (insert table key value) key = some value := by
  simp [lookup,insert]

/-- An insertion shadows the other keys of its line and no others. -/
theorem lookup_insert_other (table : Table n β) {key other : Nat} (value : β) (different : other ≠ key) :
    lookup (insert table key value) other = if other % n = key % n then none else lookup table other := by
  by_cases sameLine : other % n = key % n
  · have lines : line n other = line n key := (line_eq_iff other key).mpr sameLine
    have tags : key / n ≠ other / n := by
      intro same
      apply different
      rw [← Nat.div_add_mod other n,← Nat.div_add_mod key n,same,sameLine]
    simp [lookup,insert,lines,tags,sameLine]
  · have lines : line n other ≠ line n key := fun same => sameLine ((line_eq_iff other key).mp same)
    simp [lookup,insert,Function.update_of_ne lines,sameLine]

theorem lookup_invalidate (table : Table n β) (condition : Nat → Prop) [DecidablePred condition] (key : Nat) :
    lookup (invalidate table condition) key = if condition key then none else lookup table key := by
  unfold lookup invalidate
  cases held : table (line n key) with
  | none => simp
  | some slot =>
    obtain ⟨tag,value⟩ := slot
    by_cases same : tag = key / n
    · subst same
      simp only [keyOf_line]
      by_cases dropped : condition key
      · simp [dropped]
      · simp [dropped]
    · by_cases dropped : condition (keyOf (line n key) tag)
      · simp [dropped,same]
      · simp [dropped,same]

/-- The keys found after an insertion: the new one, and those found before in the other lines. -/
theorem lookup_insert_isSome (table : Table n β) (key : Nat) (value : β) (sought : Nat) :
    (lookup (insert table key value) sought).isSome ↔
      key = sought ∨ (lookup table sought).isSome ∧ key % n ≠ sought % n := by
  by_cases same : sought = key
  · subst same
    simp [lookup_insert_same]
  · rw [lookup_insert_other table value same]
    by_cases sameLine : sought % n = key % n
    · simp [sameLine,Ne.symm same]
    · simp [sameLine,Ne.symm same,Ne.symm sameLine]

/-- A line is found under one key only. -/
theorem lookup_unique {table : Table n β} {left right : Nat} (foundLeft : (lookup table left).isSome)
    (foundRight : (lookup table right).isSome) (sameLine : left % n = right % n) : left = right := by
  obtain ⟨a,there⟩ := Option.isSome_iff_exists.mp foundLeft
  obtain ⟨b,here⟩ := Option.isSome_iff_exists.mp foundRight
  rw [lookup_some,(line_eq_iff left right).mpr sameLine] at there
  rw [lookup_some,there] at here
  rw [← Nat.div_add_mod left n,← Nat.div_add_mod right n,sameLine,(Prod.mk.inj (Option.some.inj here)).1]

/-- A line holds the key that is found there. -/
theorem held_some {table : Table n β} {i : Fin n} {key : Nat} {value : β} :
    held table i = some (key,value) ↔ line n key = i ∧ lookup table key = some value := by
  constructor
  · intro here
    obtain ⟨⟨tag,found⟩,slot,same⟩ := Option.map_eq_some_iff.mp here
    cases same
    exact ⟨(line_keyOf i tag).1,lookup_keyOf slot⟩
  · rintro ⟨rfl,found⟩
    rw [lookup_some] at found
    rw [held,found,Option.map_some,keyOf_line]

/-! ### Tables that back other tables -/

theorem backed_empty (large : Table n β) : Backed (fun _ => none : Table m β) large := by
  intro key value found
  simp at found

/-- A key that the large table answers may be copied down. -/
theorem Backed.copy {small : Table m β} {large : Table n β} (backed : Backed small large) {key : Nat} {value : β}
    (held : lookup large key = some value) : Backed (insert small key value) large := by
  intro other found lookedUp
  by_cases same : other = key
  · subst same
    rw [lookup_insert_same] at lookedUp
    cases lookedUp
    exact held
  · rw [lookup_insert_other small value same] at lookedUp
    split at lookedUp
    · cases lookedUp
    · exact backed other found lookedUp

/-- Filling both tables with one key: where the sizes divide, the line that
    loses a key in the large table loses it in the small one as well. -/
theorem Backed.fill {small : Table m β} {large : Table n β} (backed : Backed small large) (divides : m ∣ n)
    (key : Nat) (value : β) : Backed (insert small key value) (insert large key value) := by
  intro other found lookedUp
  by_cases same : other = key
  · subst same
    rw [lookup_insert_same] at lookedUp ⊢
    exact lookedUp
  · rw [lookup_insert_other small value same] at lookedUp
    split at lookedUp
    · cases lookedUp
    · rename_i apart
      rw [lookup_insert_other large value same]
      have apartLarge : other % n ≠ key % n := by
        intro together
        apply apart
        rw [← Nat.mod_mod_of_dvd other divides,together,Nat.mod_mod_of_dvd key divides]
      rw [if_neg apartLarge]
      exact backed other found lookedUp

/-- A table that was not filled stays backed once it drops the keys that the
    large table can have lost. -/
theorem Backed.drop {small : Table m β} {large : Table n β} (backed : Backed small large) (key : Nat) (value : β) :
    Backed (invalidate small (fun other => other % n = key % n)) (insert large key value) := by
  intro other found lookedUp
  rw [lookup_invalidate] at lookedUp
  split at lookedUp
  · cases lookedUp
  · rename_i apart
    have different : other ≠ key := fun same => apart (by rw [same])
    rw [lookup_insert_other large value different,if_neg apart]
    exact backed other found lookedUp

/-- The key dropped from a backed table is the one that the insertion shadows in
    the large table, and no other. -/
theorem Backed.dropped {small : Table m β} {large : Table n β} (backed : Backed small large) (key : Nat) {i : Fin m}
    (occupied : (small i).isSome) :
    invalidate small (fun other => other % n = key % n) i = none ↔ held large (line n key) = held small i := by
  obtain ⟨⟨tag,value⟩,slot⟩ := Option.isSome_iff_exists.mp occupied
  have here : held small i = some (keyOf i tag,value) := by rw [held,slot,Option.map_some]
  have found := backed _ _ (held_some.mp here).2
  rw [here,held_some,line_eq_iff]
  simp [invalidate,slot,found]

end

end CacheEmulator.DirectMapped
