import Mathlib.Data.Fintype.Card
import Mathlib.Tactic.Common

/-!
Ages that rank `n` places by how recently each was used: a permutation of the
numbers below `n`, zero for the place used last. A touch gives age zero to one
place and makes those that were younger one older.
-/
namespace CacheEmulator.Ranking
variable {n : Nat} {age after : Fin n → Nat} {place : Fin n}

/-- The ages are the numbers below `n`, each given once. -/
structure Permuted (age : Fin n → Nat) : Prop where
  bounded : ∀ w, age w < n
  distinct : Function.Injective age

/-- One use of a place. -/
def touch (age : Fin n → Nat) (place w : Fin n) : Nat :=
  if w = place then 0 else if age w < age place then age w + 1 else age w

/-- Of the places filled so far, the one filled `k` fills ago has age `k`, up to the greatest age. -/
def Ordered (age : Fin n → Nat) (filled : List (Fin n)) : Prop :=
  ∀ k w, filled.reverse[k]? = some w → age w = min k (n - 1)

/-- Once all places are filled, such ages rank them. -/
theorem Ordered.permuted {filled : List (Fin n)} (ordered : Ordered age filled) (distinct : filled.Nodup)
    (whole : filled.length = n) : Permuted age := by
  have all : filled.toFinset = Finset.univ := by
    rw [← Finset.card_eq_iff_eq_univ,List.toFinset_card_of_nodup distinct,whole,Fintype.card_fin]
  have rank : ∀ w, ∃ k < n, filled.reverse[k]? = some w ∧ age w = k := by
    intro w
    have member : w ∈ filled.reverse := by
      rw [List.mem_reverse,← List.mem_toFinset,all]
      exact Finset.mem_univ w
    obtain ⟨k,here⟩ := List.mem_iff_getElem?.mp member
    obtain ⟨inside,_⟩ := List.getElem?_eq_some_iff.mp here
    rw [List.length_reverse,whole] at inside
    have number := ordered k w here
    exact ⟨k,inside,here,by omega⟩
  constructor
  · intro w
    obtain ⟨k,inside,_,number⟩ := rank w
    rwa [number]
  · intro v w same
    obtain ⟨k,_,vHere,vNumber⟩ := rank v
    obtain ⟨l,_,wHere,wNumber⟩ := rank w
    have fills : k = l := by rw [← vNumber,same,wNumber]
    rw [fills,wHere] at vHere
    exact (Option.some.inj vHere).symm

end CacheEmulator.Ranking
