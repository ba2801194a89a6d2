import Mathlib.Data.List.Induction
import Mathlib.Tactic.Common

/-!
What a list of past events says about the present: that something has happened
and has not been undone (`Since`), and the last value that the events gave
(`latest`). Both are settled event by event, at the end of the list.
-/
namespace CacheEmulator.History
universe u v
variable {ι : Type u} {κ : Type u} {β : Type v} {P Q : ι → Prop} {history : List ι} {i : ι}

/-- An event with `P` has happened, and none with `Q` after it. -/
def Since (P Q : ι → Prop) (history : List ι) : Prop :=
  ∃ before i after, history = before ++ i :: after ∧ P i ∧ ∀ j ∈ after, ¬ Q j

theorem not_since_nil : ¬ Since P Q [] := by
  rintro ⟨before,i,after,empty,_⟩
  simp at empty

/-- The last event brings it about, or does not undo it. -/
theorem since_concat : Since P Q (history ++ [i]) ↔ P i ∨ Since P Q history ∧ ¬ Q i := by
  constructor
  · rintro ⟨before,j,after,same,happened,kept⟩
    rcases List.eq_nil_or_concat after with rfl | ⟨earlier,last,rfl⟩
    · obtain ⟨rfl,one⟩ := List.append_inj' same rfl
      obtain rfl : i = j := by simpa using one
      exact .inl happened
    · rw [List.concat_eq_append,← List.cons_append,← List.append_assoc] at same
      obtain ⟨rfl,one⟩ := List.append_inj' same rfl
      obtain rfl : i = last := by simpa using one
      exact .inr ⟨⟨before,j,earlier,rfl,happened,fun k member => kept k (by simp [member])⟩,kept i (by simp)⟩
  · rintro (happened | ⟨⟨before,j,after,rfl,happened,kept⟩,last⟩)
    · exact ⟨history,i,[],rfl,happened,by simp⟩
    · refine ⟨before,j,after ++ [i],by simp,happened,?_⟩
      intro k member
      rcases List.mem_append.mp member with earlier | atEnd
      · exact kept k earlier
      · rw [List.mem_singleton.mp atEnd]
        exact last

/-- What holds since an event is the same for what is kept of the events. -/
theorem since_map {f : κ → ι} {events : List κ} :
    Since P Q (events.map f) ↔ Since (fun k => P (f k)) (fun k => Q (f k)) events := by
  induction events using List.reverseRecOn with
  | nil => exact iff_of_false not_since_nil not_since_nil
  | append_singleton events k ih => rw [List.map_append,List.map_singleton,since_concat,since_concat,ih]

/-- The value of the last event that has one. -/
def latest (value : ι → Option β) (history : List ι) : Option β := history.reverse.findSome? value

theorem latest_concat (value : ι → Option β) (history : List ι) (i : ι) :
    latest value (history ++ [i]) = (value i).or (latest value history) := by
  rw [latest,List.reverse_concat,List.findSome?_cons]
  cases value i with
  | none => rfl
  | some b => rfl

end CacheEmulator.History
