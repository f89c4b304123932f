import Mathlib.Data.List.Induction
import Mathlib.Logic.Function.Basic
import TapeScribe.Proofs.WellFormed

namespace TapeScribe

open Instruction

/-- Text has no more instructions than bytes, and as many only if there is nothing else in it. -/
theorem length_filterMap_ofSymbol? (chars : List Char) :
    (chars.filterMap ofSymbol?).length ≤ (chars.map Char.utf8Size).sum ∧
      ((chars.filterMap ofSymbol?).length = (chars.map Char.utf8Size).sum ↔
        ∀ c ∈ chars, c ∈ Instruction.all.map symbol) := by
  induction chars with
  | nil => simp
  | cons c chars ih =>
    obtain ⟨hle, hiff⟩ := ih
    have hpos := c.utf8Size_pos
    rw [List.map_cons, List.sum_cons, List.forall_mem_cons, ← hiff]
    cases hc : ofSymbol? c with
    | none =>
      rw [List.filterMap_cons_none hc]
      exact ⟨by omega, iff_of_false (by omega) fun h => notMem_symbols_of_none hc h.1⟩
    | some i =>
      obtain rfl := symbol_ofSymbol? hc
      have hone : i.symbol.utf8Size = 1 := by cases i <;> rfl
      rw [List.filterMap_cons_some hc, List.length_cons, hone, and_iff_right (symbol_mem i)]
      omega

namespace Program

/-- A segment is never empty, so only a program without segments has no size. -/
theorem isEmpty_iff_size (p : Program) : p.isEmpty = true ↔ p.size = 0 := by
  rw [isEmpty, List.isEmpty_iff, size_eq_sum, List.sum_eq_zero_iff_forall_eq_nat,
    List.forall_mem_map, List.eq_nil_iff_forall_not_mem]
  refine forall_congr' fun s => ⟨fun h hs => absurd hs h, fun h hs => p.code_ne s hs ?_⟩
  exact String.utf8ByteSize_eq_zero_iff.mp (h hs)

/-- What the observers of a program tell, and its text, are about the same thing. -/
structure ViewsAgree (p : Program) : Prop where
  isEmpty_iff_size : p.isEmpty = true ↔ p.size = 0
  size_eq_zero_iff : p.size = 0 ↔ p.text = ""
  size_eq_bytes : p.size = (Utf8.encode p.text).length
  count_eq_occurrences : ∀ i, p.count i = p.text.toList.count i.symbol
  counts_le : (Instruction.all.map p.count).sum ≤ p.size
  counts_eq_iff : (Instruction.all.map p.count).sum = p.size ↔
    ∀ c ∈ p.text.toList, c ∈ Instruction.all.map symbol

theorem viewsAgree (p : Program) : p.ViewsAgree := by
  obtain ⟨hle, hiff⟩ := length_filterMap_ofSymbol? p.text.toList
  rw [← Utf8.utf8ByteSize_eq_sum, ← size_eq] at hle hiff
  refine ⟨p.isEmpty_iff_size, ?_, ?_, p.count_eq, ?_, ?_⟩
  · rw [size_eq, String.utf8ByteSize_eq_zero_iff]
  · rw [size_eq, Utf8.length_encode]
  · rw [sum_counts]
    exact hle
  · rw [sum_counts]
    exact hiff

theorem append_assoc (p q r : Program) : p ++ q ++ r = p ++ (q ++ r) := by
  ext1
  exact List.append_assoc ..

theorem empty_append (p : Program) : ∅ ++ p = p := by
  ext1
  exact List.nil_append _

theorem append_empty (p : Program) : p ++ ∅ = p := by
  ext1
  exact List.append_nil _

end Program

/-- Something that writes a program as a whole. -/
inductive Maker
  | request (request : Request) (options : Options)
  | reader (reader : Reader)
  | printer (printer : Printer) (text : List UInt8)
  deriving DecidableEq, Repr

def Maker.program : Maker → Program
  | request r options => r.program options
  | reader r => r.program
  | printer p text => p.program text

/-- What can be done to one of several programs that go by names. -/
inductive Edit (Name : Type)
  | clear
  | emit (note code : String)
  | append (source : Name)
  | make (maker : Maker)
  deriving DecidableEq, Repr

namespace Edit

variable {Name : Type}

/-- The program in place of another. The source of an append may be the program itself. -/
def apply (programs : Name → Program) (own : Program) : Edit Name → Program
  | clear => ∅
  | emit note code => own.emit note code
  | append source => own ++ programs source
  | make maker => maker.program

/-- The same on segments as such, in a list that could hold any. -/
def record (lists : Name → List Segment) (own : List Segment) : Edit Name → List Segment
  | clear => []
  | emit note code => if code = "" then own else own ++ [⟨note, code⟩]
  | append source => own ++ lists source
  | make maker => maker.program.segments

theorem segments_emit (p : Program) (note code : String) :
    (p.emit note code).segments = if code = "" then p.segments else p.segments ++ [⟨note, code⟩] := by
  rw [Program.emit, Program.segments_append, Program.segments_ofList]
  by_cases h : code = "" <;> simp [h]

theorem segments_apply (programs : Name → Program) (own : Program) (e : Edit Name) :
    (e.apply programs own).segments =
      e.record (fun name => (programs name).segments) own.segments := by
  cases e with
  | clear => rfl
  | emit note code => exact segments_emit own note code
  | append source => rfl
  | make maker => rfl

end Edit

variable {Name : Type} [DecidableEq Name]

/-- What the names stand for after some edits, of which each is made to what its name stands for. -/
def afterEdits {α : Type} (edit : (Name → α) → α → Edit Name → α) (start : α)
    (history : List (Name × Edit Name)) : Name → α :=
  history.foldl (fun held (name, e) => Function.update held name (edit held (held name) e))
    fun _ => start

def programsAfter : List (Name × Edit Name) → Name → Program :=
  afterEdits Edit.apply ∅

def listsAfter : List (Name × Edit Name) → Name → List Segment :=
  afterEdits Edit.record []

theorem afterEdits_concat {α : Type} (edit : (Name → α) → α → Edit Name → α) (start : α)
    (history : List (Name × Edit Name)) (name : Name) (e : Edit Name) :
    afterEdits edit start (history ++ [(name, e)]) =
      Function.update (afterEdits edit start history) name
        (edit (afterEdits edit start history) (afterEdits edit start history name) e) := by
  rw [afterEdits, List.foldl_append]
  rfl

/-- One edit keeps each program's segments those of its list, so any number of edits does. -/
theorem segments_programsAfter (history : List (Name × Edit Name)) :
    (fun name => (programsAfter history name).segments) = listsAfter history := by
  induction history using List.reverseRecOn with
  | nil => rfl
  | append_singleton history step ih =>
    obtain ⟨target, e⟩ := step
    rw [listsAfter, afterEdits_concat, ← listsAfter, ← ih]
    rw [programsAfter, afterEdits_concat, ← programsAfter]
    funext name
    by_cases h : name = target
    · subst h
      rw [Function.update_self, Function.update_self, Edit.segments_apply]
    · rw [Function.update_of_ne h, Function.update_of_ne h]

/-- Whatever is done to programs, what their observers tell agrees with their text. -/
theorem program_views_agree_after_edits (history : List (Name × Edit Name)) :
    (∀ name, (programsAfter history name).segments = listsAfter history name ∧
      (∀ s ∈ listsAfter history name, s.code ≠ "") ∧
      (programsAfter history name).ViewsAgree) ∧
    ∀ p q r : Program, p ++ q ++ r = p ++ (q ++ r) ∧ ∅ ++ p = p ∧ p ++ ∅ = p ∧
      (p ++ q).text = p.text ++ q.text ∧ (p ++ q).size = p.size + q.size ∧
      ∀ i, (p ++ q).count i = p.count i + q.count i := by
  constructor
  · intro name
    have hsegments := congrFun (segments_programsAfter history) name
    refine ⟨hsegments, ?_, (programsAfter history name).viewsAgree⟩
    rw [← hsegments]
    exact (programsAfter history name).code_ne
  · intro p q r
    exact ⟨p.append_assoc q r, p.empty_append, p.append_empty, p.text_append q, p.size_append q,
      p.count_append q⟩

end TapeScribe
