import Mathlib.Data.List.TakeWhile
import Mathlib.Tactic.Common

/-!
Reading a file one character at a time: what `stdio.h` and `ctype.h` give to a
hand-written parser. A character is a byte; the type `char` is signed, so the
byte 255 and the end of the file become one value of it.
-/
namespace CacheEmulator.Stdio
universe u
variable {σ : Type u}

abbrev byte := BitVec 8

/-- A character constant of the source. -/
def chr (c : Char) : byte := BitVec.ofNat 8 c.toNat

/-- A string constant of the source. -/
def text (s : String) : List byte := s.toList.map chr

/-- An open file: what is still to be read, or the end-of-file indicator. A read
    past the last byte sets the indicator; the last byte itself does not. -/
inductive FILE
  | reading (rest : List byte)
  | ended
  deriving DecidableEq, Repr

def FILE.rest : FILE → List byte
  | reading rest => rest
  | ended => []

def fopen (text : List byte) : FILE := .reading text

def feof : FILE → Bool
  | .reading _ => false
  | .ended => true

/-- The next byte; nothing stands for `EOF`. -/
def fgetc : FILE → Option byte × FILE
  | .reading [] => (none,.ended)
  | .reading (c :: rest) => (some c,.reading rest)
  | .ended => (none,.ended)

def EOF : byte := 0xFF

/-- The result of `fgetc` as a `char`. -/
def char (c : Option byte) : byte := c.getD EOF

/-- Pushes a `char` back. `EOF` cannot be pushed back, and so neither can the byte 255. -/
def ungetc (c : byte) (stream : FILE) : FILE :=
  if c = EOF then stream else .reading (c :: stream.rest)

/-- The blank, and tabulation to carriage return. -/
def isspace (c : byte) : Bool := c = 32 ∨ (9 ≤ c.toNat ∧ c.toNat ≤ 13)

/-- The loop `c = fgetc(stream); while (test(c) && !feof(stream)) { s = body(s, c); c = fgetc(stream); }`:
    the state, the last value of `c` and the stream when it ends. -/
def read_while (test : byte → Bool) (body : σ → byte → σ) (s : σ) : FILE → σ × Option byte × FILE
  | .reading text => go text s
  | .ended => (s,none,.ended)
where
  go : List byte → σ → σ × Option byte × FILE
    | [], s => (s,none,.ended)
    | c :: rest, s => if test c then go rest (body s c) else (s,some c,.reading rest)

/-! ### Single characters -/

@[simp] theorem fgetc_cons (c : byte) (rest : List byte) : fgetc (.reading (c :: rest)) = (some c,.reading rest) := rfl
@[simp] theorem fgetc_nil : fgetc (.reading []) = (none,.ended) := rfl
@[simp] theorem fgetc_ended : fgetc .ended = (none,.ended) := rfl
@[simp] theorem rest_reading (text : List byte) : (FILE.reading text).rest = text := rfl
@[simp] theorem feof_reading (text : List byte) : feof (.reading text) = false := rfl
@[simp] theorem feof_ended : feof .ended = true := rfl
@[simp] theorem char_some (c : byte) : char (some c) = c := rfl
@[simp] theorem char_none : char none = EOF := rfl

/-- A file with bytes left has not ended. -/
theorem reading_of_rest {stream : FILE} {text : List byte} (left : stream.rest = text) (more : text ≠ []) :
    stream = .reading text := by
  cases stream with
  | reading rest => rw [← left]; rfl
  | ended => exact absurd left.symm more

/-- A byte that was read stood first in what was left. -/
theorem fgetc_some {stream : FILE} {c : byte} (read : (fgetc stream).1 = some c) :
    ∃ rest, stream = .reading (c :: rest) ∧ (fgetc stream).2 = .reading rest := by
  cases stream with
  | ended => cases read
  | reading text =>
    cases text with
    | nil => cases read
    | cons first rest =>
      cases read
      exact ⟨rest,rfl,rfl⟩

/-- A `char` other than `EOF` has been read from the file. -/
theorem fgetc_char {stream : FILE} {c : byte} (read : char (fgetc stream).1 = c) (proper : c ≠ EOF) :
    ∃ rest, stream = .reading (c :: rest) ∧ (fgetc stream).2 = .reading rest := by
  cases taken : (fgetc stream).1 with
  | none =>
    rw [taken,char_none] at read
    exact absurd read.symm proper
  | some first =>
    rw [taken,char_some] at read
    subst read
    exact fgetc_some taken

theorem ungetc_proper {c : byte} (proper : c ≠ EOF) (rest : List byte) :
    ungetc c (.reading rest) = .reading (c :: rest) := if_neg proper
@[simp] theorem ungetc_EOF (stream : FILE) : ungetc EOF stream = stream := if_pos rfl

@[simp] theorem isspace_EOF : isspace EOF = false := by decide

/-! ### The loop -/
section loop
variable (test : byte → Bool) (body : σ → byte → σ)

/-- One turn of the loop. -/
theorem read_while_turn (s : σ) (stream : FILE) :
    read_while test body s stream =
      match fgetc stream with
      | (some c,after) => if test c then read_while test body (body s c) after else (s,some c,after)
      | (none,after) => (s,none,after) := by
  cases stream with
  | ended => rfl
  | reading text => cases text <;> rfl

/-- The loop runs over every byte that passes the test. -/
theorem read_while_over {word : List byte} (passes : ∀ c ∈ word, test c = true) (rest : List byte) (s : σ) :
    read_while test body s (.reading (word ++ rest)) = read_while test body (word.foldl body s) (.reading rest) := by
  induction word generalizing s with
  | nil => rfl
  | cons c word ih =>
    have first : test c = true := passes c List.mem_cons_self
    rw [List.cons_append,read_while_turn]
    simp only [fgetc_cons,first,↓reduceIte,List.foldl_cons]
    exact ih (fun d member => passes d (List.mem_cons_of_mem c member)) (body s c)

theorem read_while_stops {c : byte} (fails : test c = false) (rest : List byte) (s : σ) :
    read_while test body s (.reading (c :: rest)) = (s,some c,.reading rest) := by
  simp [read_while_turn,fails]

/-- Where the loop ends: at the first byte that fails the test or at the end of the file. -/
theorem read_while_total (text : List byte) (s : σ) :
    ∃ word, (∀ c ∈ word, test c = true) ∧
      ((text = word ∧ read_while test body s (.reading text) = (word.foldl body s,none,.ended)) ∨
        ∃ c rest, text = word ++ c :: rest ∧ test c = false ∧
          read_while test body s (.reading text) = (word.foldl body s,some c,.reading rest)) := by
  have passes : ∀ c ∈ text.takeWhile test, test c = true := fun c member => List.mem_takeWhile_imp member
  refine ⟨text.takeWhile test,passes,?_⟩
  have parts := List.takeWhile_append_dropWhile (p := test) (l := text)
  have ran := read_while_over test body passes (text.dropWhile test) s
  rw [parts] at ran
  cases left : text.dropWhile test with
  | nil =>
    rw [left,List.append_nil] at parts
    rw [left] at ran
    exact .inl ⟨parts.symm,ran⟩
  | cons c rest =>
    have fails : test c = false := by
      have := List.head?_dropWhile_not test text
      simpa [left] using this
    rw [left,read_while_stops test body fails] at ran
    rw [left] at parts
    exact .inr ⟨c,rest,parts.symm,fails,ran⟩

end loop

end CacheEmulator.Stdio
