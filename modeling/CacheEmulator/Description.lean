import CacheEmulator.Image
import CacheEmulator.Loader

/-!
A memory description as a list of pages. Loading is independent of reading: the
loader reads the same pages whatever it does with them, and loads them in order
until one of them or the text stops it.
-/
namespace CacheEmulator.Description
open CacheEmulator.Error CacheEmulator.Memory CacheEmulator.Addr CacheEmulator.PageWalk
open CacheEmulator.Stdio CacheEmulator.Scanf CacheEmulator.Loader CacheEmulator.Image
open CacheEmulator.Error.error_code ( ERR_IO)

section runs
variable {σ : Type}

/-- Loads pages in order; the text behind them ends as given. -/
def load_all (load : listed_page → σ → σ × Option stop) (ending : Option stop) : List listed_page → σ → σ × Option stop
  | [], s => (s,ending)
  | p :: pages, s =>
    match load p s with
    | (s,some why) => (s,some why)
    | (s,none) => load_all load ending pages s

/-- Keeps a page instead of loading it. -/
def record (p : listed_page) (pages : List listed_page) : List listed_page × Option stop := (pages ++ [p],none)

/-- The pages of a description and what its text stops with. -/
def description (entree : FILE) : List listed_page × Option stop := load_pages record entree []

/-- What the text alone can stop a load with. -/
def OfText (why : stop) : Prop := why = .returned ERR_IO ∨ why = .undefined .filename

/-- Physical pages come before virtual ones. -/
def Ordered (pages : List listed_page) : Prop :=
  ∃ (tables : List (BitVec 32 × List byte)) (data : List (BitVec 64 × List byte)),
    pages = tables.map (fun t => .physical t.1 t.2) ++ data.map (fun d => .virtual d.1 d.2)

/-- A loop that reads pages, independent of what is done with them. -/
def Reads (loop : ∀ {σ : Type}, (listed_page → σ → σ × Option stop) → σ → σ × Option stop) (pages : List listed_page)
    (ending : Option stop) : Prop :=
  ∀ (σ : Type) (load : listed_page → σ → σ × Option stop) (s : σ), loop load s = load_all load ending pages s

theorem load_all_record (ending : Option stop) (pages before : List listed_page) :
    load_all record ending pages before = (before ++ pages,ending) := by
  induction pages generalizing before with
  | nil => simp [load_all]
  | cons p pages ih =>
    rw [load_all,record]
    simp only
    rw [ih,List.append_assoc,List.singleton_append]

/-- A turn reads its page and then what is read after it. -/
theorem turn_reads {p : listed_page} {entree : FILE} {pages : List listed_page} {ending : Option stop}
    {k : ∀ {σ : Type}, (listed_page → σ → σ × Option stop) → FILE → σ → σ × Option stop}
    (later : Reads (fun load s => k load entree s) pages ending) :
    Reads (fun load s => turn load (.ok (p,entree)) s (k load)) (p :: pages) ending := by
  intro σ load s
  simp only [turn,load_all]
  cases load p s with
  | mk after stopped =>
    cases stopped with
    | none => exact later σ load after
    | some why => rfl

end runs

/-! ### Reading the text -/

/-- Skipping blanks never fails and puts nothing new into the file. -/
theorem skip_ok (entree : FILE) : ∃ after, skip entree = .ok after ∧ after.rest.length ≤ entree.rest.length := by
  refine ⟨(go_to_next_char entree).2,rfl,?_⟩
  cases entree with
  | ended => exact le_rfl
  | reading text =>
    obtain ⟨word,_,⟨rfl,loop⟩ | ⟨c,rest,rfl,_,loop⟩⟩ := read_while_total isspace (fun (u : Unit) _ => u) text ()
    · rw [go_to_next_char,loop]
      exact Nat.zero_le _
    · rw [go_to_next_char,loop]
      by_cases lost : c = EOF
      · subst lost
        simp
        omega
      · rw [char_some,ungetc_proper lost]
        simp

theorem read_filename_cases (entree : FILE) :
    (∃ why, read_filename entree = .error why ∧ OfText why) ∨
      ∃ name after, read_filename entree = .ok (name,after) ∧ after.rest.length ≤ entree.rest.length := by
  unfold read_filename
  cases scanned : fscanf_string entree with
  | none => exact .inl ⟨_,rfl,.inl rfl⟩
  | some found =>
    obtain ⟨word,after⟩ := found
    by_cases fits : word.length < FILENAME_SIZE
    · exact .inr ⟨_,after,if_pos fits,fscanf_string_consumes scanned⟩
    · exact .inl ⟨_,if_neg fits,.inr rfl⟩

/-- A turn over the data pages finds a virtual page in the bytes it consumes. -/
theorem read_data_cases (entree : FILE) :
    (∃ why, read_data entree = .error why ∧ OfText why) ∨
      ∃ v name after, read_data entree = .ok (.virtual v name,after) ∧ after.rest.length < entree.rest.length := by
  unfold read_data
  cases scanned : fscanf_unsigned 16 entree with
  | none => exact .inl ⟨_,rfl,.inl rfl⟩
  | some number =>
    obtain ⟨v,behind⟩ := number
    have shorter := fscanf_unsigned_consumes scanned
    obtain ⟨second,skipped,le⟩ := skip_ok behind
    rcases read_filename_cases second with ⟨why,failed,other⟩ | ⟨name,third,found,le'⟩
    · exact .inl ⟨why,by simp [read_number,skipped,failed,bind,Except.bind],other⟩
    · obtain ⟨last,skipped',le''⟩ := skip_ok third
      exact .inr ⟨v,name,last,by simp [read_number,skipped,found,skipped',bind,Except.bind],by omega⟩

theorem read_translation_cases (entree : FILE) :
    (∃ why, read_translation entree = .error why ∧ OfText why) ∨
      ∃ a name after, read_translation entree = .ok (.physical a name,after) := by
  unfold read_translation
  obtain ⟨first,skipped,_⟩ := skip_ok entree
  cases scanned : fscanf_unsigned 16 first with
  | none => exact .inl ⟨.returned ERR_IO,by simp [skipped,read_number,scanned,bind,Except.bind],.inl rfl⟩
  | some number =>
    obtain ⟨second,skipped',_⟩ := skip_ok number.2
    rcases read_filename_cases second with ⟨why,failed,other⟩ | ⟨name,third,found,_⟩
    · exact .inl ⟨why,by simp [read_number,scanned,skipped,skipped',failed,bind,Except.bind],other⟩
    · exact .inr ⟨_,name,third,by simp [read_number,scanned,skipped,skipped',found,bind,Except.bind]; rfl⟩

/-- The loop over the data pages reads virtual pages, and its turns are enough. -/
theorem data_pages_reads : ∀ (turns : Nat) (entree : FILE), entree.rest.length < turns →
    ∃ (data : List (BitVec 64 × List byte)) (ending : Option stop), (∀ why ∈ ending, OfText why) ∧
      Reads (fun load s => data_pages load turns entree s) (data.map (fun d => .virtual d.1 d.2)) ending := by
  intro turns
  induction turns with
  | zero => intro entree enough; cases enough
  | succ turns ih =>
    intro entree enough
    cases at_end : feof entree with
    | true => exact ⟨[],none,by rintro _ ⟨⟩,fun σ load s => by simp [data_pages,at_end,load_all]⟩
    | false =>
      rcases read_data_cases entree with ⟨why,failed,other⟩ | ⟨v,name,after,found,shorter⟩
      · refine ⟨[],some why,by rintro _ ⟨⟩; exact other,fun σ load s => ?_⟩
        simp [data_pages,at_end,failed,turn,load_all]
      · obtain ⟨last,skipped,le⟩ := skip_ok after
        obtain ⟨data,ending,finished,reads⟩ := ih last (by omega)
        have later : Reads (fun load s => skip_then after s (data_pages load turns))
            (data.map (fun d => .virtual d.1 d.2)) ending := by
          intro σ load s
          simp only [skip_then,skipped]
          exact reads σ load s
        refine ⟨(v,name) :: data,ending,finished,fun σ load s => ?_⟩
        simp only [data_pages,at_end,found]
        exact turn_reads (k := fun load entree s => skip_then entree s (data_pages load turns)) later σ load s

/-- The loop over the translation pages reads physical pages, and then the data pages. -/
theorem translation_pages_reads (count : Nat) (entree : FILE) :
    ∃ (pages : List listed_page) (ending : Option stop), (∀ why ∈ ending, OfText why) ∧ Ordered pages ∧
      Reads (fun load s => translation_pages load count entree s) pages ending := by
  induction count generalizing entree with
  | zero =>
    obtain ⟨last,skipped,_⟩ := skip_ok entree
    obtain ⟨data,ending,finished,reads⟩ := data_pages_reads (last.rest.length + 1) last (Nat.lt_succ_self _)
    refine ⟨_,ending,finished,⟨[],data,rfl⟩,fun σ load s => ?_⟩
    simp only [translation_pages,skip_then,skipped]
    exact reads σ load s
  | succ count ih =>
    rcases read_translation_cases entree with ⟨why,failed,other⟩ | ⟨a,name,after,found⟩
    · refine ⟨[],some why,by rintro _ ⟨⟩; exact other,⟨[],[],rfl⟩,fun σ load s => ?_⟩
      simp [translation_pages,failed,turn,load_all]
    · obtain ⟨pages,ending,finished,⟨tables,data,rfl⟩,reads⟩ := ih after
      refine ⟨_,ending,finished,⟨(a,name) :: tables,data,rfl⟩,fun σ load s => ?_⟩
      simp only [translation_pages,found]
      exact turn_reads (k := fun load => translation_pages load count) reads σ load s

theorem counted_pages_reads (entree : FILE) :
    ∃ (pages : List listed_page) (ending : Option stop), (∀ why ∈ ending, OfText why) ∧ Ordered pages ∧
      Reads (fun load s => counted_pages load entree s) pages ending := by
  obtain ⟨last,skipped,_⟩ := skip_ok entree
  cases scanned : fscanf_int last with
  | none =>
    refine ⟨[],some (.returned ERR_IO),by rintro _ ⟨⟩; exact .inl rfl,⟨[],[],rfl⟩,fun σ load s => ?_⟩
    simp [counted_pages,skip_then,skipped,scanned,read_number,load_all]
  | some number =>
    obtain ⟨number_of_pages,after⟩ := number
    obtain ⟨pages,ending,finished,ordered,reads⟩ := translation_pages_reads number_of_pages.toInt.toNat after
    refine ⟨pages,ending,finished,ordered,fun σ load s => ?_⟩
    simp only [counted_pages,skip_then,skipped,scanned,read_number]
    exact reads σ load s

theorem load_pages_reads (entree : FILE) :
    ∃ (pages : List listed_page) (ending : Option stop), (∀ why ∈ ending, OfText why) ∧ Ordered pages ∧
      Reads (fun load s => load_pages load entree s) pages ending := by
  obtain ⟨first,skipped,_⟩ := skip_ok entree
  rcases read_filename_cases first with ⟨why,failed,other⟩ | ⟨name,after,found,_⟩
  · refine ⟨[],some why,by rintro _ ⟨⟩; exact other,⟨[],[],rfl⟩,fun σ load s => ?_⟩
    simp [load_pages,read_pgd,skipped,failed,bind,Except.bind,turn,load_all]
  · obtain ⟨pages,ending,finished,⟨tables,data,rfl⟩,reads⟩ := counted_pages_reads after
    refine ⟨_,ending,finished,⟨(0,name) :: tables,data,rfl⟩,fun σ load s => ?_⟩
    have pgd : read_pgd entree = .ok (.physical 0 name,after) := by
      simp [read_pgd,skipped,found,bind,Except.bind]
    simp only [load_pages,pgd]
    exact turn_reads (k := fun load => counted_pages load) reads σ load s

/-- The list of a description holds what every load of it reads. -/
theorem description_reads (entree : FILE) :
    Reads (fun load s => load_pages load entree s) (description entree).1 (description entree).2 ∧
      Ordered (description entree).1 ∧ ∀ why ∈ (description entree).2, OfText why := by
  obtain ⟨pages,ending,finished,ordered,reads⟩ := load_pages_reads entree
  have listed : description entree = (pages,ending) := (reads _ record []).trans (load_all_record ending pages [])
  rw [listed]
  exact ⟨reads,ordered,finished⟩

/-- The loader loads the pages of the description in order. -/
theorem load_pages_eq {σ : Type} (load : listed_page → σ → σ × Option stop) (entree : FILE) (s : σ) :
    load_pages load entree s = load_all load (description entree).2 (description entree).1 s :=
  (description_reads entree).1 σ load s

end CacheEmulator.Description
