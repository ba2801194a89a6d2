import Mathlib.Data.Nat.Digits.Lemmas
import Mathlib.Tactic.Common

/-!
What printed text tells about the values behind it. A printer tells values apart
up to a relation when two of its texts, with anything behind them, agree just
when the values are related and the rest agrees. Such printers can be put one
after the other, chosen between, and repeated over a list of places.
-/
namespace CacheEmulator.Printing
universe u v w
variable {α : Type u} {β : Type v} {ι : Type w} {known alike alike' : α → α → Prop} {print print' : α → List β}

/-- The text tells values apart up to `alike`, among those that `known` admits. -/
def Tells (known : α → α → Prop) (print : α → List β) (alike : α → α → Prop) : Prop :=
  ∀ a b, known a b → ∀ rest rest', print a ++ rest = print b ++ rest' ↔ alike a b ∧ rest = rest'

theorem Tells.text_eq (tells : Tells (fun _ _ => True) print alike) (a b : α) : print a = print b ↔ alike a b := by
  simpa using tells a b trivial [] []

theorem Tells.congr (tells : Tells known print alike) (same : ∀ a b, known a b → (alike a b ↔ alike' a b)) :
    Tells known print alike' := by
  intro a b here rest rest'
  rw [tells a b here,same a b here]

theorem Tells.weaken {known' : α → α → Prop} (tells : Tells known print alike) (weaker : ∀ a b, known' a b → known a b) :
    Tells known' print alike := fun a b here => tells a b (weaker a b here)

/-- A text about a part of the values. -/
theorem Tells.part {γ : Type*} (tells : Tells (fun _ _ => True) print alike) (part : γ → α) :
    Tells (fun _ _ => True) (fun c => print (part c)) (fun c d => alike (part c) (part d)) :=
  fun c d _ => tells (part c) (part d) trivial

theorem tells_text (text : List β) : Tells known (fun _ => text) (fun _ _ => True) := by
  intro a b _ rest rest'
  simp

theorem tells_symbol (symbol : α → β) : Tells known (fun a => [symbol a]) (fun a b => symbol a = symbol b) := by
  intro a b _ rest rest'
  simp

/-- Texts of one length tell what they do alone. -/
theorem tells_word (length : Nat) (same : ∀ a, (print a).length = length) (alone : ∀ a b, print a = print b ↔ alike a b) :
    Tells known print alike := by
  intro a b _ rest rest'
  have lengths : (print a).length = (print b).length := by rw [same,same]
  rw [← alone]
  constructor
  · exact fun equal => List.append_inj equal lengths
  · rintro ⟨first,behind⟩
    rw [first,behind]

/-- A text in front tells nothing. -/
theorem Tells.after_text (text : List β) (behind : Tells known print alike) : Tells known (fun a => text ++ print a) alike := by
  intro a b here rest rest'
  simpa using behind a b here rest rest'

/-- Either of two texts that never begin alike. -/
theorem tells_flag {yes no : List β} (apart : ∀ rest rest', yes ++ rest ≠ no ++ rest') (test : α → Prop) [DecidablePred test] :
    Tells known (fun a => if test a then yes else no) (fun a b => test a ↔ test b) := by
  intro a b _ rest rest'
  have apart' : ∀ rest rest', no ++ rest ≠ yes ++ rest' := fun rest rest' => (apart rest' rest).symm
  by_cases first : test a <;> by_cases second : test b <;> simp [first,second,apart,apart']

/-- The second text may rely on what the first has told. -/
theorem Tells.append (first : Tells known print alike) (second : Tells (fun a b => known a b ∧ alike a b) print' alike') :
    Tells known (fun a => print a ++ print' a) (fun a b => alike a b ∧ alike' a b) := by
  intro a b here rest rest'
  rw [List.append_assoc,List.append_assoc,first a b here,and_assoc]
  exact and_congr_right (fun told => second a b ⟨here,told⟩ rest rest')

theorem Tells.beside (first : Tells (fun _ _ => True) print alike) (second : Tells (fun _ _ => True) print' alike') :
    Tells (fun _ _ => True) (fun a => print a ++ print' a) (fun a b => alike a b ∧ alike' a b) :=
  first.append (second.weaken (fun _ _ _ => trivial))

/-- A choice that is known already. -/
theorem Tells.choice (test : α → Prop) [DecidablePred test] (decided : ∀ a b, known a b → (test a ↔ test b))
    (yes : Tells (fun a b => known a b ∧ test a) print alike) (no : Tells (fun a b => known a b ∧ ¬ test a) print' alike') :
    Tells known (fun a => if test a then print a else print' a)
      (fun a b => (test a → alike a b) ∧ (¬ test a → alike' a b)) := by
  intro a b here rest rest'
  by_cases holds : test a
  · have also := (decided a b here).mp holds
    simp only [holds,also,↓reduceIte,forall_const,not_true_eq_false,false_implies,and_true]
    exact yes a b ⟨here,holds⟩ rest rest'
  · have neither : ¬ test b := fun also => holds ((decided a b here).mpr also)
    simp only [holds,neither,↓reduceIte,not_false_eq_true,forall_const,false_implies,true_and]
    exact no a b ⟨here,holds⟩ rest rest'

/-- One text for each of a list of places. -/
theorem tells_flatMap {print : ι → α → List β} {alike : ι → α → α → Prop} :
    ∀ places : List ι, (∀ i ∈ places, Tells known (print i) (alike i)) →
      Tells known (fun a => places.flatMap (fun i => print i a)) (fun a b => ∀ i ∈ places, alike i a b) := by
  intro places
  induction places with
  | nil =>
    intro _ a b _ rest rest'
    simp
  | cons i places ih =>
    intro each
    have first := each i List.mem_cons_self
    have others := (ih (fun j member => each j (List.mem_cons_of_mem i member))).weaken
      (fun a b (here : known a b ∧ alike i a b) => here.1)
    simpa using first.append others

/-! ### Numerals -/

/-- The digits of a number, padded with zeros, each as its symbol. -/
def numeral (symbol : Nat → β) (base width n : Nat) : List β :=
  ((Nat.digits base n).reverse.leftpad width 0).map symbol

/-- Symbols that differ for different digits. -/
def Distinct (symbol : Nat → β) (base : Nat) : Prop := ∀ d < base, ∀ e < base, symbol d = symbol e → d = e

section
variable {symbol : Nat → β} {base : Nat}

theorem padded_digits_lt (more : 1 < base) (width n : Nat) :
    ∀ d ∈ (Nat.digits base n).reverse.leftpad width 0, d < base := by
  intro d member
  rw [List.leftpad,List.mem_append,List.mem_replicate,List.mem_reverse] at member
  rcases member with ⟨_,rfl⟩ | member
  · exact Nat.lt_of_lt_of_le Nat.zero_lt_one (Nat.le_of_lt more)
  · exact Nat.digits_lt_base more member

/-- Leading zeros do not change a number. -/
theorem ofDigits_padded (base width n : Nat) :
    Nat.ofDigits base ((Nat.digits base n).reverse.leftpad width 0).reverse = n := by
  rw [List.leftpad,List.reverse_append,List.reverse_reverse,List.reverse_replicate,Nat.ofDigits_append_replicate_zero,
    Nat.ofDigits_digits]

theorem map_symbol_inj (distinct : Distinct symbol base) : ∀ {left right : List Nat}, (∀ d ∈ left, d < base) →
    (∀ d ∈ right, d < base) → left.map symbol = right.map symbol → left = right := by
  intro left
  induction left with
  | nil =>
    intro right _ _ same
    exact (List.map_eq_nil_iff.mp same.symm).symm
  | cons d left ih =>
    intro right small small' same
    cases right with
    | nil => cases same
    | cons e right =>
      obtain ⟨first,others⟩ := List.cons.inj same
      rw [distinct d (small d List.mem_cons_self) e (small' e List.mem_cons_self) first,
        ih (fun x member => small x (List.mem_cons_of_mem d member))
          (fun x member => small' x (List.mem_cons_of_mem e member)) others]

theorem numeral_inj (more : 1 < base) (distinct : Distinct symbol base) {width n m : Nat}
    (same : numeral symbol base width n = numeral symbol base width m) : n = m := by
  have digits := map_symbol_inj distinct (padded_digits_lt more width n) (padded_digits_lt more width m) same
  rw [← ofDigits_padded base width n,digits,ofDigits_padded]

theorem numeral_symbols (more : 1 < base) {width n : Nat} {c : β} (member : c ∈ numeral symbol base width n) :
    ∃ d < base, symbol d = c := by
  obtain ⟨d,here,same⟩ := List.mem_map.mp member
  exact ⟨d,padded_digits_lt more width n d here,same⟩

/-- A word ends where the first symbol of another kind stands. -/
theorem split_at {kind : β → Prop} {c c' : β} (stops : ¬ kind c) (stops' : ¬ kind c') :
    ∀ {word word' rest rest' : List β}, (∀ x ∈ word, kind x) → (∀ x ∈ word', kind x) →
      word ++ c :: rest = word' ++ c' :: rest' → word = word' ∧ c :: rest = c' :: rest' := by
  intro word
  induction word with
  | nil =>
    intro word' rest rest' _ kinds' same
    cases word' with
    | nil => exact ⟨rfl,same⟩
    | cons x word' =>
      obtain ⟨rfl,_⟩ := List.cons.inj same
      exact absurd (kinds' _ List.mem_cons_self) stops
  | cons x word ih =>
    intro word' rest rest' kinds kinds' same
    cases word' with
    | nil =>
      obtain ⟨rfl,_⟩ := List.cons.inj same
      exact absurd (kinds _ List.mem_cons_self) stops'
    | cons y word' =>
      obtain ⟨rfl,others⟩ := List.cons.inj same
      obtain ⟨rfl,rests⟩ := ih (fun z member => kinds z (List.mem_cons_of_mem x member))
        (fun z member => kinds' z (List.mem_cons_of_mem x member)) others
      exact ⟨rfl,rests⟩

/-- Numerals with symbols behind them that are no digits. -/
theorem numeral_split (more : 1 < base) (distinct : Distinct symbol base) {stop stop' : β}
    (noDigit : ∀ d < base, symbol d ≠ stop) (noDigit' : ∀ d < base, symbol d ≠ stop') {width n m : Nat} {rest rest' : List β}
    (same : numeral symbol base width n ++ stop :: rest = numeral symbol base width m ++ stop' :: rest') :
    n = m ∧ stop :: rest = stop' :: rest' := by
  let digit : β → Prop := fun c => ∃ d < base, symbol d = c
  have ends : ¬ digit stop := by
    rintro ⟨d,small,found⟩
    exact noDigit d small found
  have ends' : ¬ digit stop' := by
    rintro ⟨d,small,found⟩
    exact noDigit' d small found
  obtain ⟨word,behind⟩ := split_at ends ends' (fun _ member => numeral_symbols more member)
    (fun _ member => numeral_symbols more member) same
  exact ⟨numeral_inj more distinct word,behind⟩

/-- A numeral in front of a text that does not go on with a digit. -/
theorem Tells.after_numeral (more : 1 < base) (distinct : Distinct symbol base) {stop : β}
    (noDigit : ∀ d < base, symbol d ≠ stop) (number : α → Nat) (width : Nat)
    (behind : Tells (fun a b => known a b ∧ number a = number b) print alike)
    (starts : ∀ a, ∃ rest, print a = stop :: rest) :
    Tells known (fun a => numeral symbol base width (number a) ++ print a)
      (fun a b => number a = number b ∧ alike a b) := by
  intro a b here rest rest'
  rw [List.append_assoc,List.append_assoc,and_assoc]
  constructor
  · intro same
    obtain ⟨after,begins⟩ := starts a
    obtain ⟨after',begins'⟩ := starts b
    rw [begins,begins'] at same
    obtain ⟨sameNumber,remain⟩ := numeral_split more distinct noDigit noDigit same
    refine ⟨sameNumber,(behind a b ⟨here,sameNumber⟩ rest rest').mp ?_⟩
    rw [begins,begins']
    exact remain
  · rintro ⟨sameNumber,also⟩
    rw [sameNumber,(behind a b ⟨here,sameNumber⟩ rest rest').mpr also]

/-- A number is told by its numeral with a symbol behind it that is no digit. -/
theorem tells_numeral (more : 1 < base) (distinct : Distinct symbol base) {stop : β}
    (noDigit : ∀ d < base, symbol d ≠ stop) (number : α → Nat) (width : Nat) (after : List β) :
    Tells known (fun a => numeral symbol base width (number a) ++ stop :: after) (fun a b => number a = number b) := by
  intro a b _ rest rest'
  rw [List.append_assoc,List.append_assoc,List.cons_append,List.cons_append]
  constructor
  · intro same
    obtain ⟨sameNumber,behind⟩ := numeral_split more distinct noDigit noDigit same
    exact ⟨sameNumber,by simpa using behind⟩
  · rintro ⟨same,rfl⟩
    rw [same]

end

/-! ### Sequences -/

/-- Texts one after the other tell the values one by one, and how many there are. -/
theorem Tells.sequence_of {ok : α → Prop} (tells : Tells (fun a b => ok a ∧ ok b) print alike) (something : ∀ a, print a ≠ []) :
    ∀ left right : List α, (∀ a ∈ left, ok a) → (∀ b ∈ right, ok b) →
      (left.flatMap print = right.flatMap print ↔ List.Forall₂ alike left right) := by
  intro left
  induction left with
  | nil =>
    intro right _ _
    cases right with
    | nil => simp
    | cons b right => simp [something b]
  | cons a left ih =>
    intro right all all'
    cases right with
    | nil => simp [something a]
    | cons b right =>
      rw [List.flatMap_cons,List.flatMap_cons,tells a b ⟨all a List.mem_cons_self,all' b List.mem_cons_self⟩,
        ih right (fun c member => all c (List.mem_cons_of_mem a member)) (fun c member => all' c (List.mem_cons_of_mem b member)),
        List.forall₂_cons]

theorem Tells.sequence (tells : Tells (fun _ _ => True) print alike) (something : ∀ a, print a ≠ []) (left right : List α) :
    left.flatMap print = right.flatMap print ↔ List.Forall₂ alike left right :=
  (tells.weaken (fun _ _ _ => trivial)).sequence_of something left right (fun _ _ => trivial)
    (fun _ _ => trivial)

/-- Items with a text between any two of them and another behind the last. -/
def separated (item : α → List β) (between close : List β) : List α → List β
  | [] => []
  | [a] => item a ++ close
  | a :: b :: others => item a ++ (between ++ separated item between close (b :: others))

section
variable {item : α → List β} {between close : List β}

/-- Items that are told with either text behind them, when the two texts are told apart too:
    the sequence ends where the closing text stands. -/
theorem separated_split
    (inside : ∀ a b rest rest', item a ++ (between ++ rest) = item b ++ (between ++ rest') → a = b ∧ rest = rest')
    (atEnd : ∀ a b rest rest', item a ++ (close ++ rest) = item b ++ (close ++ rest') → a = b ∧ rest = rest')
    (apart : ∀ a b rest rest', item a ++ (between ++ rest) ≠ item b ++ (close ++ rest')) :
    ∀ {left right : List α} {rest rest' : List β}, left ≠ [] → right ≠ [] →
      separated item between close left ++ rest = separated item between close right ++ rest' →
        left = right ∧ rest = rest' := by
  intro left
  induction left with
  | nil => exact fun some_ => absurd rfl some_
  | cons a left ih =>
    intro right rest rest' _ some_ same
    cases right with
    | nil => exact absurd rfl some_
    | cons b right =>
      cases left with
      | nil =>
        cases right with
        | nil =>
          simp only [separated,List.append_assoc] at same
          obtain ⟨rfl,behind⟩ := atEnd a b _ _ same
          exact ⟨rfl,behind⟩
        | cons b' right =>
          simp only [separated,List.append_assoc] at same
          exact absurd same.symm (apart b a _ _)
      | cons a' left =>
        cases right with
        | nil =>
          simp only [separated,List.append_assoc] at same
          exact absurd same (apart a b _ _)
        | cons b' right =>
          rw [separated,separated,List.append_assoc,List.append_assoc,List.append_assoc,List.append_assoc] at same
          obtain ⟨rfl,others⟩ := inside a b _ _ same
          obtain ⟨equal,behind⟩ := ih (List.cons_ne_nil a' left) (List.cons_ne_nil b' right) others
          exact ⟨by rw [equal],behind⟩

theorem separated_ne_nil (some_ : close ≠ []) (a : α) (others : List α) : separated item between close (a :: others) ≠ [] := by
  intro none
  induction others generalizing a with
  | nil => exact some_ (List.append_eq_nil_iff.mp none).2
  | cons b others ih =>
    obtain ⟨_,behind⟩ := List.append_eq_nil_iff.mp none
    exact ih b (List.append_eq_nil_iff.mp behind).2

end

end CacheEmulator.Printing
