import Mathlib.Data.List.Dedup
import Mathlib.Data.List.DropRight
import Mathlib.Tactic.Common

/-!
Least recently used replacement. The most recent distinct keys of a history are
kept by one touch for each key: a key that is held moves to the end, and a new
one displaces the oldest when the table is full.
-/
namespace CacheEmulator.Recency
variable {κ : Type} [DecidableEq κ] {n : Nat} {k : κ} {keys history : List κ}

/-- The `n` most recent distinct keys, the oldest first. -/
def mostRecent (n : Nat) (history : List κ) : List κ := history.dedup.rtake n

/-- One use of a key in a table of `n` keys. -/
def touch (n : Nat) (keys : List κ) (k : κ) : List κ :=
  if k ∈ keys then keys.erase k ++ [k]
  else if keys.length < n then keys ++ [k]
  else keys.tail ++ [k]

@[simp] theorem mostRecent_nil (n : Nat) : mostRecent n ([] : List κ) = [] := by
  simp [mostRecent,List.rtake]

/-- The last key of a history is its most recent one. -/
theorem dedup_concat (history : List κ) (k : κ) : (history ++ [k]).dedup = history.dedup.erase k ++ [k] := by
  induction history with
  | nil => simp
  | cons a history ih =>
    rw [List.cons_append]
    by_cases later : a ∈ history
    · rw [List.dedup_cons_of_mem (List.mem_append_left _ later),List.dedup_cons_of_mem later,ih]
    · rw [List.dedup_cons_of_notMem later]
      by_cases same : a = k
      · subst same
        have absent : a ∉ history.dedup := by rwa [List.mem_dedup]
        rw [List.dedup_cons_of_mem (by simp),ih,List.erase_of_not_mem absent,List.erase_cons_head]
      · have absent : a ∉ history ++ [k] := by simp [later,same]
        rw [List.dedup_cons_of_notMem absent,ih,List.erase_cons_tail (by simpa using same),List.cons_append]

theorem mostRecent_nodup (n : Nat) (history : List κ) : (mostRecent n history).Nodup :=
  (List.nodup_dedup history).sublist (List.drop_sublist _ _)

/-- The last `n` of a list from which a key is gone, in terms of the last `n + 1`. -/
theorem rtake_erase (distinct : keys.Nodup) (k : κ) (n : Nat) :
    (keys.erase k).rtake n ++ [k] = touch (n + 1) (keys.rtake (n + 1)) k := by
  have split := List.take_append_drop (keys.length - (n + 1)) keys
  have total : keys.rtake (n + 1) = keys.drop (keys.length - (n + 1)) := rfl
  rw [total]
  generalize before : keys.take (keys.length - (n + 1)) = old at split
  generalize keys.drop (keys.length - (n + 1)) = kept at split
  have oldLength : old.length = keys.length - (n + 1) := by
    rw [← before,List.length_take]
    omega
  have lengths : keys.length = old.length + kept.length := by rw [← split,List.length_append]
  subst split
  have apart := List.nodup_append.mp distinct
  rw [touch,List.rtake]
  by_cases held : k ∈ kept
  · have notOld : k ∉ old := fun member => apart.2.2 k member k held rfl
    have shorter := List.length_erase_of_mem held
    have positive := List.length_pos_of_mem held
    rw [if_pos held,List.erase_append_right _ notOld,List.length_append,List.drop_append_of_le_length (by omega)]
    have whole : List.drop (old.length + (kept.erase k).length - n) old = [] := List.drop_eq_nil_of_le (by omega)
    rw [whole,List.nil_append]
  · rw [if_neg held]
    by_cases room : kept.length < n + 1
    · -- Nothing was cut off, so the key is nowhere.
      have noOld : old = [] := List.eq_nil_of_length_eq_zero (by omega)
      rw [if_pos room,noOld,List.nil_append,List.erase_of_not_mem held]
      have none : kept.length - n = 0 := by omega
      rw [none,List.drop_zero]
    · rw [if_neg room]
      have full : kept.length = n + 1 := by omega
      have oldest : List.drop 1 kept = kept.tail := List.drop_one
      by_cases inOld : k ∈ old
      · have shorter := List.length_erase_of_mem inOld
        have positive := List.length_pos_of_mem inOld
        rw [List.erase_append_left _ inOld,List.length_append]
        have cutoff : (old.erase k).length + kept.length - n = (old.erase k).length + 1 := by omega
        rw [cutoff,List.drop_length_add_append,oldest]
      · rw [List.erase_append_right _ inOld,List.erase_of_not_mem held,List.length_append]
        have cutoff : old.length + kept.length - n = old.length + 1 := by omega
        rw [cutoff,List.drop_length_add_append,oldest]

/-- A further key touches the most recent ones. -/
theorem mostRecent_concat (history : List κ) (k : κ) (room : 0 < n) :
    mostRecent n (history ++ [k]) = touch n (mostRecent n history) k := by
  obtain ⟨m,rfl⟩ := Nat.exists_eq_succ_of_ne_zero (Nat.pos_iff_ne_zero.mp room)
  rw [mostRecent,dedup_concat,Nat.succ_eq_add_one,List.rtake_concat_succ]
  exact rtake_erase (List.nodup_dedup history) k m

/-- A recent key that is used again becomes the most recent one. -/
theorem mostRecent_again {before behind : List κ} (recent : mostRecent n history = before ++ k :: behind) (room : 0 < n) :
    mostRecent n (history ++ [k]) = before ++ behind ++ [k] := by
  have distinct := mostRecent_nodup n history
  rw [recent] at distinct
  have once : k ∉ before := fun member => (List.nodup_append.mp distinct).2.2 k member k List.mem_cons_self rfl
  have held : k ∈ mostRecent n history := by rw [recent]; simp
  rw [mostRecent_concat history k room,touch,if_pos held,recent,List.erase_append_right _ once,List.erase_cons_head]

/-- A key that is not recent displaces the oldest one, if there is no room. -/
theorem mostRecent_new (missing : k ∉ mostRecent n history) (room : 0 < n) :
    mostRecent n (history ++ [k]) =
      (if (mostRecent n history).length < n then mostRecent n history else (mostRecent n history).tail) ++ [k] := by
  rw [mostRecent_concat history k room,touch,if_neg missing]
  split_ifs <;> rfl

end CacheEmulator.Recency
