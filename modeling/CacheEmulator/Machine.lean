import Mathlib.Data.List.Forall2
import Mathlib.Data.Option.Basic
import Mathlib.Tactic.Common

/-!
Runs of a partial step function over a list of inputs, and the rules that lift
a fact about one step to every run: an invariant that may speak of the inputs
already read (`run_answers`) and two machines that move together (`run_simulates`).
-/
namespace CacheEmulator.Machine
universe u
variable {σ τ ι κ ο ω : Type u}

/-- Feeds the inputs in order and collects the outputs; a step without a result
    leaves the whole run without one. -/
def run (step : σ → ι → Option (ο × σ)) : σ → List ι → Option (List ο × σ)
  | s, [] => some ([],s)
  | s, i :: inputs =>
    match step s i with
    | none => none
    | some (o,next) =>
      match run step next inputs with
      | none => none
      | some (outputs,last) => some (o :: outputs,last)

@[simp] theorem run_nil (step : σ → ι → Option (ο × σ)) (s : σ) : run step s [] = some ([],s) := rfl

theorem run_cons_of {step : σ → ι → Option (ο × σ)} {s next : σ} {i : ι} {o : ο} (stepped : step s i = some (o,next))
    (inputs : List ι) :
    run step s (i :: inputs) = (run step next inputs).map (fun after => (o :: after.1,after.2)) := by
  simp only [run,stepped]
  cases run step next inputs with
  | none => rfl
  | some after => rfl

/-- A run over a first input takes its step and runs on from there. -/
theorem run_cons {step : σ → ι → Option (ο × σ)} {s last : σ} {i : ι} {inputs : List ι} {outputs : List ο}
    (ran : run step s (i :: inputs) = some (outputs,last)) :
    ∃ o next rest, step s i = some (o,next) ∧ run step next inputs = some (rest,last) ∧ outputs = o :: rest := by
  cases stepped : step s i with
  | none => simp [run,stepped] at ran
  | some answer =>
    obtain ⟨o,next⟩ := answer
    rw [run_cons_of stepped] at ran
    obtain ⟨after,executed,same⟩ := Option.map_eq_some_iff.mp ran
    obtain ⟨rest,final⟩ := after
    obtain ⟨rfl,rfl⟩ := Prod.mk.inj same
    exact ⟨o,next,rest,rfl,executed,rfl⟩

/-- Inputs may be translated beforehand or in each step. -/
theorem run_map (step : σ → ι → Option (ο × σ)) (f : κ → ι) (inputs : List κ) :
    ∀ s : σ, run step s (inputs.map f) = run (fun s k => step s (f k)) s inputs := by
  induction inputs with
  | nil => intro s; rfl
  | cons k inputs ih =>
    intro s
    simp only [List.map_cons,run]
    cases step s (f k) with
    | none => rfl
    | some answer => simp only [ih]

/-- A run over inputs in two parts is the run over the first and then over the second. -/
theorem run_append {step : σ → ι → Option (ο × σ)} : ∀ (first second : List ι) {s between last : σ} {before after : List ο},
    run step s first = some (before,between) → run step between second = some (after,last) →
      run step s (first ++ second) = some (before ++ after,last) := by
  intro first
  induction first with
  | nil =>
    intro second s between last before after ran later
    cases ran
    exact later
  | cons i first ih =>
    intro second s between last before after ran later
    obtain ⟨o,next,rest,stepped,tail,rfl⟩ := run_cons ran
    rw [List.cons_append,run_cons_of stepped,ih second tail later]
    rfl

/-- What every defined step preserves, every defined run preserves. -/
theorem run_invariant {step : σ → ι → Option (ο × σ)} {Inv : σ → Prop}
    (preserved : ∀ s i o next, Inv s → step s i = some (o,next) → Inv next) :
    ∀ (inputs : List ι) (s last : σ) (outputs : List ο), Inv s → run step s inputs = some (outputs,last) → Inv last := by
  intro inputs
  induction inputs with
  | nil =>
    intro s last outputs inv ran
    cases ran
    exact inv
  | cons i inputs ih =>
    intro s last outputs inv ran
    obtain ⟨o,next,rest,stepped,tail,_⟩ := run_cons ran
    exact ih next last rest (preserved s i o next inv stepped) tail

/-- Every output answers its input as `Good` asks after the inputs before it. -/
def Answers (Good : List ι → ι → ο → Prop) : List ι → List ι → List ο → Prop
  | _, [], [] => True
  | before, i :: inputs, o :: outputs => Good before i o ∧ Answers Good (before ++ [i]) inputs outputs
  | _, _, _ => False

/-- Answers read off by position. -/
theorem answers_get {Good : List ι → ι → ο → Prop} :
    ∀ {inputs : List ι} {outputs : List ο} {before : List ι}, Answers Good before inputs outputs →
      outputs.length = inputs.length ∧
        ∀ (k : Nat) (i : ι) (o : ο), inputs[k]? = some i → outputs[k]? = some o →
          Good (before ++ inputs.take k) i o := by
  intro inputs
  induction inputs with
  | nil =>
    intro outputs before answers
    cases outputs with
    | nil => simp
    | cons o outputs => exact answers.elim
  | cons i inputs ih =>
    intro outputs before answers
    cases outputs with
    | nil => exact answers.elim
    | cons o outputs =>
      obtain ⟨first,later⟩ := answers
      obtain ⟨lengths,positions⟩ := ih later
      refine ⟨by simp [lengths],?_⟩
      intro k i' o' input output
      cases k with
      | zero =>
        cases input; cases output
        simpa using first
      | succ k =>
        have later := positions k i' o' (by simpa using input) (by simpa using output)
        simpa [List.append_assoc] using later

/-- What every defined step keeps of an invariant about the inputs read so far,
    every defined run keeps, and it answers each input as the steps do. -/
theorem run_keeps {step : σ → ι → Option (ο × σ)} {Inv : List ι → σ → Prop} {Good : List ι → ι → ο → Prop}
    (kept : ∀ before s i o next, Inv before s → step s i = some (o,next) →
      Inv (before ++ [i]) next ∧ Good before i o) :
    ∀ (inputs before : List ι) (s last : σ) (outputs : List ο), Inv before s → run step s inputs = some (outputs,last) →
      Inv (before ++ inputs) last ∧ Answers Good before inputs outputs := by
  intro inputs
  induction inputs with
  | nil =>
    intro before s last outputs inv ran
    cases ran
    exact ⟨by simpa using inv,trivial⟩
  | cons i inputs ih =>
    intro before s last outputs inv ran
    obtain ⟨o,next,rest,stepped,tail,rfl⟩ := run_cons ran
    obtain ⟨restored,good⟩ := kept before s i o next inv stepped
    obtain ⟨final,answers⟩ := ih (before ++ [i]) next last rest restored tail
    exact ⟨by simpa [List.append_assoc] using final,good,answers⟩

/-- The same for an invariant about the inputs and the outputs so far. -/
theorem run_records {step : σ → ι → Option (ο × σ)} {Inv : List (ι × ο) → σ → Prop}
    {Good : List (ι × ο) → ι → ο → Prop}
    (kept : ∀ before s i o next, Inv before s → step s i = some (o,next) →
      Inv (before ++ [(i,o)]) next ∧ Good before i o) :
    ∀ (inputs : List ι) (before : List (ι × ο)) (s last : σ) (outputs : List ο), Inv before s →
      run step s inputs = some (outputs,last) →
        Inv (before ++ inputs.zip outputs) last ∧ outputs.length = inputs.length ∧
          ∀ (k : Nat) (i : ι) (o : ο), inputs[k]? = some i → outputs[k]? = some o →
            Good (before ++ (inputs.zip outputs).take k) i o := by
  intro inputs
  induction inputs with
  | nil =>
    intro before s last outputs inv ran
    cases ran
    exact ⟨by simpa using inv,rfl,by simp⟩
  | cons i inputs ih =>
    intro before s last outputs inv ran
    obtain ⟨o,next,rest,stepped,tail,rfl⟩ := run_cons ran
    obtain ⟨restored,good⟩ := kept before s i o next inv stepped
    obtain ⟨final,lengths,later⟩ := ih (before ++ [(i,o)]) next last rest restored tail
    refine ⟨by simpa [List.append_assoc] using final,by simp [lengths],?_⟩
    intro k i' o' input output
    cases k with
    | zero =>
      cases input; cases output
      simpa using good
    | succ k =>
      have there := later k i' o' (by simpa using input) (by simpa using output)
      simpa [List.append_assoc] using there

/-- A step that is defined on legal inputs, answers them well and restores an
    invariant about the inputs read so far makes every run of legal inputs do so. -/
theorem run_answers {step : σ → ι → Option (ο × σ)} {Legal : ι → Prop} {Inv : List ι → σ → Prop}
    {Good : List ι → ι → ο → Prop}
    (total : ∀ before s i, Inv before s → Legal i →
      ∃ o next, step s i = some (o,next) ∧ Inv (before ++ [i]) next ∧ Good before i o) :
    ∀ (inputs before : List ι) (s : σ), Inv before s → (∀ i ∈ inputs, Legal i) →
      ∃ outputs last, run step s inputs = some (outputs,last) ∧ Inv (before ++ inputs) last ∧
        Answers Good before inputs outputs := by
  intro inputs
  induction inputs with
  | nil =>
    intro before s inv _
    exact ⟨[],s,rfl,by simpa using inv,trivial⟩
  | cons i inputs ih =>
    intro before s inv legal
    obtain ⟨o,next,stepped,restored,good⟩ := total before s i inv (legal i List.mem_cons_self)
    obtain ⟨outputs,last,ran,final,answers⟩ :=
      ih (before ++ [i]) next restored (fun j member => legal j (List.mem_cons_of_mem _ member))
    refine ⟨o :: outputs,last,by simp [run_cons_of stepped,ran],?_,good,answers⟩
    simpa [List.append_assoc] using final

/-- Steps that are always defined under an invariant about the inputs and outputs so far
    make runs that are. -/
theorem run_total {step : σ → ι → Option (ο × σ)} {Inv : List (ι × ο) → σ → Prop}
    (total : ∀ before s i, Inv before s → ∃ o next, step s i = some (o,next) ∧ Inv (before ++ [(i,o)]) next) :
    ∀ (inputs : List ι) (before : List (ι × ο)) (s : σ), Inv before s →
      ∃ outputs last, run step s inputs = some (outputs,last) ∧ Inv (before ++ inputs.zip outputs) last := by
  intro inputs
  induction inputs with
  | nil =>
    intro before s inv
    exact ⟨[],s,rfl,by simpa using inv⟩
  | cons i inputs ih =>
    intro before s inv
    obtain ⟨o,next,stepped,restored⟩ := total before s i inv
    obtain ⟨outputs,last,ran,final⟩ := ih (before ++ [(i,o)]) next restored
    refine ⟨o :: outputs,last,by simp [run_cons_of stepped,ran],?_⟩
    simpa [List.append_assoc] using final

/-- Two partial results that are both missing or both there and related. -/
def Agree {α β : Type u} (R : α → β → Prop) : Option α → Option β → Prop
  | none, none => True
  | some a, some b => R a b
  | _, _ => False

theorem agree_cases {α β : Type u} {R : α → β → Prop} {left : Option α} {right : Option β} (agree : Agree R left right) :
    (left = none ∧ right = none) ∨ ∃ a b, left = some a ∧ right = some b ∧ R a b := by
  cases left with
  | none =>
    cases right with
    | none => exact .inl ⟨rfl,rfl⟩
    | some b => exact agree.elim
  | some a =>
    cases right with
    | none => exact agree.elim
    | some b => exact .inr ⟨a,b,rfl,rfl,agree⟩

theorem agree_left {α β : Type u} {R : α → β → Prop} {a : α} {right : Option β} (agree : Agree R (some a) right) :
    ∃ b, right = some b ∧ R a b := by
  rcases agree_cases agree with ⟨missing,_⟩ | ⟨a',b,same,there,related⟩
  · cases missing
  · obtain rfl := Option.some.inj same
    exact ⟨b,there,related⟩

theorem agree_right {α β : Type u} {R : α → β → Prop} {left : Option α} {b : β} (agree : Agree R left (some b)) :
    ∃ a, left = some a ∧ R a b := by
  rcases agree_cases agree with ⟨_,missing⟩ | ⟨a,b',there,same,related⟩
  · cases missing
  · obtain rfl := Option.some.inj same
    exact ⟨a,there,related⟩

/-- Results that agree still do after functions that carry the relation over. -/
theorem agree_image {α β γ δ : Type u} {R : α → β → Prop} {S : γ → δ → Prop} {f : α → γ} {g : β → δ}
    (carried : ∀ a b, R a b → S (f a) (g b)) {left : Option α} {right : Option β} (agree : Agree R left right) :
    Agree S (left.map f) (right.map g) := by
  rcases agree_cases agree with ⟨rfl,rfl⟩ | ⟨a,b,rfl,rfl,related⟩
  · trivial
  · exact carried a b related

theorem agree_map {α β γ : Type u} {R : α → β → Prop} {f : α → γ} {g : β → γ} (same : ∀ a b, R a b → f a = g b)
    {left : Option α} {right : Option β} (agree : Agree R left right) : left.map f = right.map g := by
  rcases agree_cases agree with ⟨rfl,rfl⟩ | ⟨a,b,rfl,rfl,related⟩
  · rfl
  · simp [same a b related]

/-- Machines whose steps agree have agreeing runs: they are undefined together,
    and otherwise give corresponding outputs and end in related states. -/
theorem run_simulates {left : σ → ι → Option (ο × σ)} {right : τ → κ → Option (ω × τ)} (input : ι → κ)
    (output : ο → ω) {R : σ → τ → Prop}
    (together : ∀ s t i, R s t → Agree (fun a b => output a.1 = b.1 ∧ R a.2 b.2) (left s i) (right t (input i))) :
    ∀ (inputs : List ι) (s : σ) (t : τ), R s t →
      Agree (fun a b => a.1.map output = b.1 ∧ R a.2 b.2) (run left s inputs) (run right t (inputs.map input)) := by
  intro inputs
  induction inputs with
  | nil => intro s t related; exact ⟨rfl,related⟩
  | cons i inputs ih =>
    intro s t related
    rw [List.map_cons]
    rcases agree_cases (together s t i related) with ⟨leftStep,rightStep⟩ | ⟨a,b,leftStep,rightStep,sameOutput,next⟩
    · simp [run,leftStep,rightStep,Agree]
    · rw [run_cons_of leftStep,run_cons_of rightStep]
      refine agree_image ?_ (ih a.2 b.2 next)
      rintro x y ⟨sameOutputs,last⟩
      exact ⟨by simp [sameOutput,sameOutputs],last⟩

/-- Two machines whose outputs, from related states, are alike just when their inputs are,
    and which like inputs leave in related states: in runs, outputs tell the inputs. -/
theorem run_tells {left : σ → ι → Option (ο × σ)} {right : τ → κ → Option (ω × τ)} {R : σ → τ → Prop}
    {alike : ι → κ → Prop} {alike' : ο → ω → Prop}
    (told : ∀ s t i k o p next next', R s t → left s i = some (o,next) → right t k = some (p,next') →
      (alike' o p ↔ alike i k) ∧ (alike i k → R next next')) :
    ∀ (inputs : List ι) (inputs' : List κ) (s last : σ) (t last' : τ) (outputs : List ο) (outputs' : List ω), R s t →
      run left s inputs = some (outputs,last) → run right t inputs' = some (outputs',last') →
        (List.Forall₂ alike' outputs outputs' ↔ List.Forall₂ alike inputs inputs') := by
  intro inputs
  induction inputs with
  | nil =>
    intro inputs' s last t last' outputs outputs' _ ran ran'
    cases ran
    cases inputs' with
    | nil => cases ran'; simp
    | cons k inputs' =>
      obtain ⟨p,next',rest',_,_,rfl⟩ := run_cons ran'
      simp
  | cons i inputs ih =>
    intro inputs' s last t last' outputs outputs' related ran ran'
    obtain ⟨o,next,rest,stepped,tail,rfl⟩ := run_cons ran
    cases inputs' with
    | nil => cases ran'; simp
    | cons k inputs' =>
      obtain ⟨p,next',rest',stepped',tail',rfl⟩ := run_cons ran'
      obtain ⟨here,after⟩ := told s t i k o p next next' related stepped stepped'
      rw [List.forall₂_cons,List.forall₂_cons,here]
      exact and_congr_right (fun same => ih inputs' next last next' last' rest rest' (after same) tail tail')

end CacheEmulator.Machine
