import CacheEmulator.CacheCalls
import CacheEmulator.Numeral

/-!
Printing a cache: `cache_dump` of `cache_mng.c`. The conversions for integers of
8 and 16 bits print the promoted value whole. An invalid entry is printed without
its age, tag and words; of a valid one everything is printed.
-/
namespace CacheEmulator.CacheDump
open CacheEmulator.Error CacheEmulator.Cache CacheEmulator.CacheMng CacheEmulator.CacheCalls CacheEmulator.Stdio CacheEmulator.Numeral
open CacheEmulator.Printing (Tells tells_text tells_flatMap)

variable {g : geometry}

def PRINT_CACHE_LINE (entry : cache_entry_t g) : List byte :=
  text "V: " ++ print_hex_lower 1 entry.v.toNat ++ text ", AGE: " ++ print_hex_lower 1 entry.age.toNat ++
    text ", TAG: 0x" ++ print_hex_lower 3 entry.tag.toNat ++ text ", values: ( " ++
    (List.finRange L1_ICACHE_WORDS_PER_LINE).flatMap (fun i =>
      text "0x" ++ print_hex_lower 8 (entry.line i).toNat ++ text " ") ++
    text ")\n"

def PRINT_INVALID_CACHE_LINE (entry : cache_entry_t g) : List byte :=
  text "V: " ++ print_hex_lower 1 entry.v.toNat ++
    text ", AGE: -, TAG: -----, values: ( ---------- ---------- ---------- ---------- )\n"

def DUMP_CACHE_TYPE (cache : cache g) : List byte :=
  (List.finRange g.LINES).flatMap (fun index => (List.finRange g.WAYS).flatMap (fun way =>
    print_hex_lower 2 way.val ++ text "/" ++ print_hex_lower 4 index.val ++ text ": " ++
      if (cache index way).v ≠ 0#1 then PRINT_CACHE_LINE (cache index way)
      else PRINT_INVALID_CACHE_LINE (cache index way)))

/-- The error code and the text written to `output`. -/
def cache_dump (cs : caches) (ptr : cache_ptr) (cache_type : cache_t) : Option (error_code × List byte) :=
  let title := text "WAY/LINE: V: AGE: TAG: WORDS\n"
  match cache_type.cast with
  | none => some (.ERR_BAD_PARAMETER,title)
  | some cast => if cast = ptr then some (.ERR_NONE,title ++ DUMP_CACHE_TYPE (cs.deref ptr) ++ [chr '\n']) else none

/-! ### What a dump tells -/

/-- Two caches that show the same: the same valid entries, ages included, and the same invalid places. -/
def ShowSame (cache cache' : Cache.cache g) : Prop := ∀ s w,
  (cache s w).v = (cache' s w).v ∧ ((cache s w).v ≠ 0#1 → cache s w = cache' s w)

/-- The text of an entry after its place, in the order in which it can be read: what
    depends on the valid bit stands behind it. -/
def read_entry (entry : cache_entry_t g) : List byte :=
  text "V: " ++ ((print_hex_lower 1 entry.v.toNat ++ text ", AGE: ") ++
    if entry.v ≠ 0#1 then (print_hex_lower 1 entry.age.toNat ++ text ", TAG: 0x") ++
      ((print_hex_lower 3 entry.tag.toNat ++ text ", values: ( ") ++
        ((List.finRange L1_ICACHE_WORDS_PER_LINE).flatMap (fun i =>
          text "0x" ++ (print_hex_lower 8 (entry.line i).toNat ++ text " ")) ++ text ")\n"))
    else text "-, TAG: -----, values: ( ---------- ---------- ---------- ---------- )\n")

theorem read_entry_eq (entry : cache_entry_t g) :
    (if entry.v ≠ 0#1 then PRINT_CACHE_LINE entry else PRINT_INVALID_CACHE_LINE entry) = read_entry entry := by
  have cut : text ", AGE: -, TAG: -----, values: ( ---------- ---------- ---------- ---------- )\n" =
      text ", AGE: " ++ text "-, TAG: -----, values: ( ---------- ---------- ---------- ---------- )\n" := rfl
  by_cases invalid : entry.v = 0#1
  · simp only [read_entry,invalid,ne_eq,not_true_eq_false,↓reduceIte,PRINT_INVALID_CACHE_LINE,cut,List.append_assoc]
  · simp only [read_entry,invalid,ne_eq,not_false_eq_true,↓reduceIte,PRINT_CACHE_LINE,List.append_assoc]

variable {α : Type} {known : α → α → Prop}

theorem tells_word (word : α → BitVec 32) :
    Tells known (fun a => text "0x" ++ (print_hex_lower 8 (word a).toNat ++ text " ")) (fun a b => word a = word b) :=
  ((tells_text (text "0x")).append (tells_hex_lower (chr ' ') [] (by decide) word 8)).congr
    (fun _ _ _ => iff_of_eq (true_and _))

/-- The words of a line are told one by one. -/
theorem tells_line (line : α → line_t) : Tells known (fun a =>
    (List.finRange L1_ICACHE_WORDS_PER_LINE).flatMap (fun i =>
      text "0x" ++ (print_hex_lower 8 (line a i).toNat ++ text " ")) ++ text ")\n") (fun a b => line a = line b) := by
  have words : Tells known _ _ := tells_flatMap (List.finRange L1_ICACHE_WORDS_PER_LINE)
    (fun i _ => tells_word (fun a => line a i))
  refine (words.append (tells_text (text ")\n"))).congr (fun a b _ => ?_)
  simp only [List.mem_finRange,forall_const,and_true]
  exact funext_iff.symm

theorem tells_valid (entry : α → cache_entry_t g) : Tells known
    (fun a => (print_hex_lower 1 (entry a).age.toNat ++ text ", TAG: 0x") ++
      ((print_hex_lower 3 (entry a).tag.toNat ++ text ", values: ( ") ++
        ((List.finRange L1_ICACHE_WORDS_PER_LINE).flatMap (fun i =>
          text "0x" ++ (print_hex_lower 8 ((entry a).line i).toNat ++ text " ")) ++ text ")\n")))
    (fun a b => (entry a).age = (entry b).age ∧ (entry a).tag = (entry b).tag ∧ (entry a).line = (entry b).line) :=
  (tells_hex_lower (chr ',') (text " TAG: 0x") (by decide) (fun a => (entry a).age) 1).append
    ((tells_hex_lower (chr ',') (text " values: ( ") (by decide) (fun a => (entry a).tag) 3).append
      (tells_line (fun a => (entry a).line)))

theorem tells_entry (entry : α → cache_entry_t g) : Tells known (fun a => read_entry (entry a)) (fun a b =>
    (entry a).v = (entry b).v ∧ ((entry a).v ≠ 0#1 → entry a = entry b)) := by
  have bit : Tells (fun a b => known a b ∧ True) (fun a => print_hex_lower 1 (entry a).v.toNat ++ text ", AGE: ")
      (fun a b => (entry a).v = (entry b).v) :=
    tells_hex_lower (chr ',') (text " AGE: ") (by decide) (fun a => (entry a).v) 1
  have behind := Tells.choice (fun a => (entry a).v ≠ 0#1)
    (fun a b (here : (known a b ∧ True) ∧ (entry a).v = (entry b).v) =>
      (show (entry a).v ≠ 0#1 ↔ (entry b).v ≠ 0#1 by rw [here.2]))
    (tells_valid entry) (tells_text (text "-, TAG: -----, values: ( ---------- ---------- ---------- ---------- )\n"))
  refine ((tells_text (text "V: ")).append (bit.append behind)).congr (fun a b _ => ?_)
  rw [true_and]
  refine and_congr_right (fun same => and_iff_left_of_imp (fun _ _ => trivial) |>.trans ?_)
  refine imp_congr_right (fun _ => ?_)
  cases first : entry a with
  | mk v age tag line =>
    cases second : entry b with
    | mk v' age' tag' line' =>
      rw [first,second] at same
      simp_all

/-- A dump tells apart just the caches that do not show the same. -/
theorem tells_cache : Tells (fun _ _ => True) (DUMP_CACHE_TYPE : Cache.cache g → List byte) ShowSame := by
  have place : ∀ (index : Fin g.LINES) (way : Fin g.WAYS), Tells (fun _ _ => True)
      (fun cache : Cache.cache g => print_hex_lower 2 way.val ++ text "/" ++ print_hex_lower 4 index.val ++ text ": " ++
        if (cache index way).v ≠ 0#1 then PRINT_CACHE_LINE (cache index way)
        else PRINT_INVALID_CACHE_LINE (cache index way))
      (fun cache cache' => (cache index way).v = (cache' index way).v ∧
        ((cache index way).v ≠ 0#1 → cache index way = cache' index way)) := by
    intro index way
    simp only [read_entry_eq]
    exact ((tells_text _).append (tells_entry (fun cache : Cache.cache g => cache index way))).congr
      (fun _ _ _ => iff_of_eq (true_and _))
  refine (tells_flatMap (List.finRange g.LINES) (fun index _ =>
    tells_flatMap (List.finRange g.WAYS) (fun way _ => place index way))).congr (fun cache cache' _ => ?_)
  simp only [List.mem_finRange,forall_const]
  exact Iff.rfl

/-- The dump of a cache succeeds, and two dumps are the same text just when the caches
    have the same valid entries, with the same ages, tags and words, at the same places. -/
theorem dumps_faithful (cs cs' : caches) {ptr : cache_ptr} {cache_type : cache_t}
    (cast : cache_type.cast = some ptr) : ∃ output output', cache_dump cs ptr cache_type = some (.ERR_NONE,output) ∧
      cache_dump cs' ptr cache_type = some (.ERR_NONE,output') ∧
      (output = output' ↔ ShowSame (cs.deref ptr) (cs'.deref ptr)) := by
  refine ⟨_,_,by simp only [cache_dump,cast,↓reduceIte]; rfl,by simp only [cache_dump,cast,↓reduceIte]; rfl,?_⟩
  rw [List.append_cancel_right_eq,List.append_cancel_left_eq]
  exact tells_cache.text_eq _ _

/-- Flushed caches and the same with one valid entry of zeros. -/
def one_valid : caches := { flushed with l1_cache := put flushed.l1_cache 0 0 ⟨1#1,0,0,fun _ => 0⟩ }

theorem dumps_faithful_flushed : ∃ output output', cache_dump flushed .l1_cache .L1_DCACHE = some (.ERR_NONE,output) ∧
    cache_dump one_valid .l1_cache .L1_DCACHE = some (.ERR_NONE,output') ∧
    (output = output' ↔ ShowSame (flushed.deref .l1_cache) (one_valid.deref .l1_cache)) :=
  dumps_faithful flushed one_valid rfl

end CacheEmulator.CacheDump
