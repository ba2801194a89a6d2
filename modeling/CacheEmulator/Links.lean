import Mathlib.Data.List.Chain
import Mathlib.Data.List.Nodup
import Mathlib.Logic.Function.Basic

/-!
Doubly linked lists as rings: the nodes in forward order between two
occurrences of a sentinel, each linked both ways to the next. Unlinking a node
and linking one in change the two links at the seam and no others.
-/
namespace CacheEmulator.Links
variable {ν : Type} {fwd bwd fwd' bwd' : ν → ν} {s p : ν} {as bs xs : List ν}

/-- Two nodes linked both ways. -/
def Linked (fwd bwd : ν → ν) (x y : ν) : Prop := fwd x = y ∧ bwd y = x

/-- The nodes of a list in forward order, closed to a ring by the sentinel. -/
structure Ringed (fwd bwd : ν → ν) (s : ν) (xs : List ν) : Prop where
  linked : List.IsChain (Linked fwd bwd) (s :: xs ++ [s])
  distinct : (s :: xs).Nodup

/-- A chain is kept where the relation is kept on its neighbours. -/
theorem chain_congr {R S : ν → ν → Prop} : ∀ {l : List ν}, List.IsChain R l →
    (∀ a b, a ∈ l.dropLast → b ∈ l.tail → R a b → S a b) → List.IsChain S l := by
  intro l
  induction l with
  | nil => intro _ _; exact List.isChain_nil
  | cons x rest ih =>
    intro chain kept
    cases rest with
    | nil => exact List.isChain_singleton x
    | cons y rest =>
      rw [List.isChain_cons_cons] at chain ⊢
      refine ⟨kept x y (by simp) (by simp) chain.1,ih chain.2 ?_⟩
      intro a b early late
      refine kept a b ?_ ?_
      · rw [List.dropLast_cons_of_ne_nil (List.cons_ne_nil y rest)]
        exact List.mem_cons_of_mem x early
      · exact List.mem_cons_of_mem y late

/-- The neighbours of a seam: the last node before it and the first one after it. -/
theorem seam (s : ν) (as bs : List ν) :
    ∃ front rest, s :: as = front ++ [as.getLastD s] ∧ bs ++ [s] = bs.headD s :: rest := by
  refine ⟨(s :: as).dropLast,(bs ++ [s]).tail,?_,?_⟩
  · rw [← List.getLast_eq_getLastD (List.cons_ne_nil s as)]
    exact (List.dropLast_append_getLast (List.cons_ne_nil s as)).symm
  · cases bs with
    | nil => rfl
    | cons b bs => rfl

/-- A ring cut at a seam: its two halves and the link between them. -/
theorem cut {R : ν → ν → Prop} (s : ν) (as bs : List ν) :
    List.IsChain R (s :: (as ++ bs) ++ [s]) ↔
      List.IsChain R (s :: as) ∧ R (as.getLastD s) (bs.headD s) ∧ List.IsChain R (bs ++ [s]) := by
  obtain ⟨front,rest,before,after⟩ := seam s as bs
  have whole : s :: (as ++ bs) ++ [s] = front ++ as.getLastD s :: bs.headD s :: rest := by
    calc s :: (as ++ bs) ++ [s] = (s :: as) ++ (bs ++ [s]) := by simp only [List.cons_append,List.append_assoc]
      _ = front ++ [as.getLastD s] ++ (bs.headD s :: rest) := by rw [before,after]
      _ = front ++ as.getLastD s :: bs.headD s :: rest := by rw [List.append_assoc]; rfl
  rw [whole,List.isChain_append_cons_cons,before,after]

theorem Ringed.fwd_at (ring : Ringed fwd bwd s (as ++ p :: bs)) : fwd p = bs.headD s := by
  have halves := ring.linked
  rw [List.append_cons as p bs,cut,List.getLastD_concat] at halves
  exact halves.2.1.1

theorem Ringed.bwd_at (ring : Ringed fwd bwd s (as ++ p :: bs)) : bwd p = as.getLastD s := by
  have halves := ring.linked
  rw [cut,List.headD_cons] at halves
  exact halves.2.1.2

theorem Ringed.fwd_sentinel (ring : Ringed fwd bwd s xs) : fwd s = xs.headD s := by
  have halves := (cut s [] xs).mp ring.linked
  exact halves.2.1.1

theorem Ringed.bwd_sentinel (ring : Ringed fwd bwd s xs) : bwd s = xs.getLastD s := by
  have linked := ring.linked
  rw [← List.append_nil xs,cut] at linked
  exact linked.2.1.2

/-- An empty ring: the sentinel is linked to itself. -/
theorem ringed_nil (forward : fwd s = s) (backward : bwd s = s) : Ringed fwd bwd s [] :=
  ⟨List.isChain_pair.mpr ⟨forward,backward⟩,List.nodup_singleton s⟩

/-- The links of the nodes of a ring are all it depends on. -/
theorem Ringed.congr (ring : Ringed fwd bwd s xs) (same : ∀ a ∈ s :: xs, fwd' a = fwd a ∧ bwd' a = bwd a) :
    Ringed fwd' bwd' s xs := by
  refine ⟨chain_congr ring.linked ?_,ring.distinct⟩
  rintro a b early late ⟨linked,back⟩
  rw [List.dropLast_concat] at early
  have inRing : b ∈ s :: xs := by
    simp only [List.cons_append,List.tail_cons,List.mem_append,List.mem_cons,List.not_mem_nil,or_false] at late ⊢
    tauto
  exact ⟨(same a early).1.trans linked,(same b inRing).2.trans back⟩

/-- The halves of a ring, under a relation that is kept but for the last node
    before the seam and the first one after it. -/
theorem halves_congr {R S : ν → ν → Prop} (distinct : (s :: (as ++ bs)).Nodup) (left : List.IsChain R (s :: as))
    (right : List.IsChain R (bs ++ [s]))
    (kept : ∀ a b, a ∈ s :: (as ++ bs) → b ∈ s :: (as ++ bs) → a ≠ as.getLastD s → b ≠ bs.headD s → R a b → S a b) :
    List.IsChain S (s :: as) ∧ List.IsChain S (bs ++ [s]) := by
  obtain ⟨front,rest,before,after⟩ := seam s as bs
  have sameNodes : s :: (as ++ bs) = front ++ [as.getLastD s] ++ bs := by rw [← before]; rfl
  have turned : (as ++ (bs ++ [s])).Nodup := by
    rw [← List.append_assoc]
    exact distinct.perm (List.perm_append_singleton s (as ++ bs)).symm
  have sameTurned : as ++ (bs ++ [s]) = as ++ (bs.headD s :: rest) := by rw [after]
  have memTurned : ∀ a, a ∈ as ++ (bs ++ [s]) → a ∈ s :: (as ++ bs) := by
    intro a member
    simp only [List.mem_append,List.mem_cons,List.not_mem_nil,or_false] at member ⊢
    tauto
  constructor
  · refine chain_congr left ?_
    intro a b early late
    rw [List.tail_cons] at late
    have early' : a ∈ front := by rwa [before,List.dropLast_concat] at early
    refine kept a b ?_ (memTurned b (List.mem_append_left _ late)) ?_ ?_
    · rw [sameNodes]
      exact List.mem_append_left _ (List.mem_append_left _ early')
    · rw [sameNodes] at distinct
      have apart := (List.nodup_append.mp distinct.of_append_left).2.2
      exact apart a early' _ (List.mem_singleton_self _)
    · rw [sameTurned] at turned
      exact (List.nodup_append.mp turned).2.2 b late _ List.mem_cons_self
  · refine chain_congr right ?_
    intro a b early late
    rw [List.dropLast_concat] at early
    have late' : b ∈ rest := by rwa [after,List.tail_cons] at late
    refine kept a b (List.mem_cons_of_mem s (List.mem_append_right as early)) (memTurned b ?_) ?_ ?_
    · rw [after]
      exact List.mem_append_right as (List.mem_cons_of_mem _ late')
    · rw [sameNodes,List.append_assoc] at distinct
      have apart := (List.nodup_append.mp distinct.of_append_right).2.2
      exact (apart _ (List.mem_singleton_self _) a early).symm
    · rw [sameTurned] at turned
      rintro rfl
      exact (List.nodup_cons.mp turned.of_append_right).1 late'

theorem distinct_middle : (s :: (as ++ p :: bs)).Nodup ↔ p ∉ s :: (as ++ bs) ∧ (s :: (as ++ bs)).Nodup := by
  have perm : (s :: (as ++ p :: bs)).Perm (p :: s :: (as ++ bs)) :=
    (List.Perm.cons s List.perm_middle).trans (List.Perm.swap p s _)
  rw [perm.nodup_iff,List.nodup_cons]

/-- The nodes of a seam belong to the ring. -/
theorem seam_mem : as.getLastD s ∈ s :: (as ++ bs) ∧ bs.headD s ∈ s :: (as ++ bs) := by
  constructor
  · exact List.mem_append_left bs (List.getLastD_mem_cons : as.getLastD s ∈ s :: as)
  · cases bs with
    | nil => exact List.mem_cons_self
    | cons b bs => exact List.mem_cons_of_mem s (List.mem_append_right as List.mem_cons_self)

/-- The halves of a ring, when only the links over the seam are rewritten. -/
theorem halves_kept (distinct : (s :: (as ++ bs)).Nodup) (left : List.IsChain (Linked fwd bwd) (s :: as))
    (right : List.IsChain (Linked fwd bwd) (bs ++ [s]))
    (forward : ∀ a ∈ s :: (as ++ bs), a ≠ as.getLastD s → fwd' a = fwd a)
    (backward : ∀ b ∈ s :: (as ++ bs), b ≠ bs.headD s → bwd' b = bwd b) :
    List.IsChain (Linked fwd' bwd') (s :: as) ∧ List.IsChain (Linked fwd' bwd') (bs ++ [s]) := by
  refine halves_congr distinct left right ?_
  rintro a b first second notLast notFirst ⟨linked,back⟩
  exact ⟨(forward a first notLast).trans linked,(backward b second notFirst).trans back⟩

variable [DecidableEq ν]

/-- Taking a node out needs the two links over it and keeps the others. -/
theorem Ringed.unlink (ring : Ringed fwd bwd s (as ++ p :: bs))
    (forward : ∀ a, a ≠ p → fwd' a = if a = as.getLastD s then bs.headD s else fwd a)
    (backward : ∀ b, b ≠ p → bwd' b = if b = bs.headD s then as.getLastD s else bwd b) :
    Ringed fwd' bwd' s (as ++ bs) := by
  obtain ⟨gone,distinct⟩ := distinct_middle.mp ring.distinct
  obtain ⟨left,_,right⟩ := (cut s as (p :: bs)).mp ring.linked
  have tail : List.IsChain (Linked fwd bwd) (bs ++ [s]) := right.tail
  have present : ∀ a, a ∈ s :: (as ++ bs) → a ≠ p := fun a member same => gone (same ▸ member)
  obtain ⟨lastMember,firstMember⟩ : as.getLastD s ∈ s :: (as ++ bs) ∧ bs.headD s ∈ s :: (as ++ bs) := seam_mem
  obtain ⟨left',right'⟩ : List.IsChain (Linked fwd' bwd') (s :: as) ∧ List.IsChain (Linked fwd' bwd') (bs ++ [s]) := by
    refine halves_kept distinct left tail ?_ ?_
    · intro a member notLast
      rw [forward a (present a member),if_neg notLast]
    · intro b member notFirst
      rw [backward b (present b member),if_neg notFirst]
  refine ⟨(cut s as bs).mpr ⟨left',⟨?_,?_⟩,right'⟩,distinct⟩
  · rw [forward _ (present _ lastMember),if_pos rfl]
  · rw [backward _ (present _ firstMember),if_pos rfl]

/-- Putting a new node in needs the four links around it and keeps the others. -/
theorem Ringed.link (ring : Ringed fwd bwd s (as ++ bs)) (fresh : p ∉ s :: (as ++ bs))
    (forward : ∀ a, fwd' a = if a = p then bs.headD s else if a = as.getLastD s then p else fwd a)
    (backward : ∀ b, bwd' b = if b = p then as.getLastD s else if b = bs.headD s then p else bwd b) :
    Ringed fwd' bwd' s (as ++ p :: bs) := by
  obtain ⟨left,_,right⟩ := (cut s as bs).mp ring.linked
  have present : ∀ a, a ∈ s :: (as ++ bs) → a ≠ p := fun a member same => fresh (same ▸ member)
  obtain ⟨lastMember,firstMember⟩ : as.getLastD s ∈ s :: (as ++ bs) ∧ bs.headD s ∈ s :: (as ++ bs) := seam_mem
  obtain ⟨left',right'⟩ : List.IsChain (Linked fwd' bwd') (s :: as) ∧ List.IsChain (Linked fwd' bwd') (bs ++ [s]) := by
    refine halves_kept ring.distinct left right ?_ ?_
    · intro a member notLast
      rw [forward a,if_neg (present a member),if_neg notLast]
    · intro b member notFirst
      rw [backward b,if_neg (present b member),if_neg notFirst]
  refine ⟨(cut s as (p :: bs)).mpr ⟨left',⟨?_,?_⟩,?_⟩,distinct_middle.mpr ⟨fresh,ring.distinct⟩⟩
  · rw [List.headD_cons,forward,if_neg (present _ lastMember),if_pos rfl]
  · rw [List.headD_cons,backward,if_pos rfl]
  · obtain ⟨front,rest,before,after⟩ := seam s as bs
    rw [List.cons_append,after,List.isChain_cons_cons,← after]
    refine ⟨⟨?_,?_⟩,right'⟩
    · rw [forward,if_pos rfl]
    · rw [backward,if_neg (present _ firstMember),if_pos rfl]

end CacheEmulator.Links
